import PsCast.Library.Run

/-!
# Simulation of a machine by its purpose

A machine that shows something in every step is a function `step : σ → ι → Option (σ × ω)`;
`trace` collects what a run shows. What the machine is for is stated as a second, total
machine: `next` moves it and `see` is what a user sees of a step. A relation between the two
that one step keeps (`Simulates`) is kept by every run, and what the run shows is what the
user of the second machine sees (`Simulates.trace`). So every run is also defined.
-/

set_option autoImplicit false

namespace PsCast.Library

variable {σ ι ω τ κ ο : Type*}

/-- The state after a list of inputs, with what the steps showed. -/
def trace (step : σ → ι → Option (σ × ω)) (s : σ) : List ι → Option (σ × List ω)
  | [] => some (s, [])
  | i :: is => do
    let (s, o) ← step s i
    let (s, os) ← trace step s is
    return (s, o :: os)

/-- What a user sees of a list of inputs. -/
def seen (next : τ → κ → τ) (see : τ → κ → ο) (t : τ) : List κ → List ο
  | [] => []
  | k :: ks => see t k :: seen next see (next t k) ks

/-- One step of the first machine is one of the second, on the translated input, and shows the
same. -/
def Simulates (step : σ → ι → Option (σ × ω)) (next : τ → κ → τ) (see : τ → κ → ο)
    (input : ι → κ) (output : ω → ο) (R : σ → τ → Prop) : Prop :=
  ∀ s t i, R s t → ∃ s' o, step s i = some (s', o) ∧ R s' (next t (input i)) ∧
    output o = see t (input i)

section Traces

variable {step : σ → ι → Option (σ × ω)}

/-- The first output comes first. -/
theorem trace_cons {s s' : σ} {i : ι} {o : ω} (h : step s i = some (s', o)) (is : List ι) :
    trace step s (i :: is) = (trace step s' is).map fun (t, os) => (t, o :: os) := by
  rw [trace, h, Option.map_eq_bind]
  rfl

end Traces

/-- **The rule of simulation**: related states stay related over every run, and what the run
shows is what the user sees. -/
theorem Simulates.trace {step : σ → ι → Option (σ × ω)} {next : τ → κ → τ} {see : τ → κ → ο}
    {input : ι → κ} {output : ω → ο} {R : σ → τ → Prop}
    (h : Simulates step next see input output R) {s : σ} {t : τ} (hst : R s t) (is : List ι) :
    ∃ s' os, trace step s is = some (s', os) ∧ R s' ((is.map input).foldl next t) ∧
      os.map output = seen next see t (is.map input) := by
  induction is generalizing s t with
  | nil => exact ⟨s, [], rfl, hst, rfl⟩
  | cons i is ih =>
    obtain ⟨s', o, hstep, hrelated, hshown⟩ := h s t i hst
    obtain ⟨s'', os, htrace, hfinal, hseen⟩ := ih hrelated
    refine ⟨s'', o :: os, ?_, hfinal, ?_⟩
    · rw [trace_cons hstep, htrace]
      rfl
    · rw [List.map_cons, List.map_cons, seen, hshown, hseen]

end PsCast.Library
