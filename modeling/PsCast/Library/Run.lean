import Mathlib.Data.List.Basic

/-!
# Runs of a partial deterministic machine

A machine is a function `step : σ → ι → Option σ`, where `none` means that the step is
not defined. `run` feeds it a list of inputs. The file gives the rules by which facts
about one step become facts about a whole run: the invariant rule (`run_invariant`), the
rules for a property that a step keeps, or has, exactly under a condition
(`everyState_iff_eachStep`, `eachStep_congr`), the inputs of a kind (`picked`), and the rule for
inputs that do nothing (`run_filter`).
-/

set_option autoImplicit false

namespace PsCast.Library

variable {σ ι : Type*} (step : σ → ι → Option σ)

/-- The state after a list of inputs, if every step is defined. -/
def run (s : σ) (is : List ι) : Option σ := is.foldlM step s

@[simp] theorem run_nil (s : σ) : run step s [] = some s := rfl

/-- The first input is taken first. -/
@[simp] theorem run_cons (s : σ) (i : ι) (is : List ι) :
    run step s (i :: is) = (step s i).bind fun t => run step t is := rfl

/-- A run in two parts. -/
theorem run_append (s : σ) (is js : List ι) :
    run step s (is ++ js) = (run step s is).bind fun t => run step t js := by
  unfold run
  rw [List.foldlM_append]
  rfl

/-- The last input is taken last. -/
theorem run_concat (s : σ) (is : List ι) (i : ι) :
    run step s (is ++ [i]) = (run step s is).bind fun t => step t i := by
  rw [run_append]
  congr 1
  funext t
  rw [run_cons]
  cases step t i <;> rfl

/-- `G` holds of every state that the run reaches, the first one included. -/
def EveryState (G : σ → Prop) (s : σ) (is : List ι) : Prop :=
  ∀ before after, is = before ++ after → ∀ t, run step s before = some t → G t

/-- `C` holds of every step of the run, as a pair of the state before it and its input. -/
def EachStep (C : σ → ι → Prop) (s : σ) (is : List ι) : Prop :=
  ∀ before i after, is = before ++ i :: after → ∀ t, run step s before = some t → C t i

variable {step}

theorem everyState_nil {G : σ → Prop} {s : σ} : EveryState step G s [] ↔ G s := by
  constructor
  · intro h
    exact h [] [] rfl s rfl
  · intro h before after heq t ht
    obtain ⟨rfl, -⟩ := List.append_eq_nil_iff.mp heq.symm
    cases ht
    exact h

/-- Every state of a run: the first one, and those of the run that remains. -/
theorem everyState_cons {G : σ → Prop} {s : σ} {i : ι} {is : List ι} :
    EveryState step G s (i :: is) ↔
      G s ∧ ∀ t, step s i = some t → EveryState step G t is := by
  constructor
  · intro h
    refine ⟨h [] (i :: is) rfl s rfl, ?_⟩
    intro t ht before after heq u hu
    exact h (i :: before) after (by rw [heq]; rfl) u (by simpa [ht] using hu)
  · rintro ⟨hs, h⟩ before after heq t ht
    cases before with
    | nil =>
      cases ht
      exact hs
    | cons j before =>
      obtain ⟨rfl, rfl⟩ := List.cons.inj heq
      rw [run_cons, Option.bind_eq_some_iff] at ht
      obtain ⟨u, hu, ht⟩ := ht
      exact h u hu before after rfl t ht

theorem eachStep_nil {C : σ → ι → Prop} {s : σ} : EachStep step C s [] := by
  intro before i after heq
  simp at heq

/-- Each step of a run: the first one, and those of the run that remains. -/
theorem eachStep_cons {C : σ → ι → Prop} {s : σ} {i : ι} {is : List ι} :
    EachStep step C s (i :: is) ↔
      C s i ∧ ∀ t, step s i = some t → EachStep step C t is := by
  constructor
  · intro h
    refine ⟨h [] i is rfl s rfl, ?_⟩
    intro t ht before j after heq u hu
    exact h (i :: before) j after (by rw [heq]; rfl) u (by simpa [ht] using hu)
  · rintro ⟨hs, h⟩ before j after heq t ht
    cases before with
    | nil =>
      obtain ⟨rfl, rfl⟩ := List.cons.inj heq
      cases ht
      exact hs
    | cons k before =>
      obtain ⟨rfl, rfl⟩ := List.cons.inj heq
      rw [run_cons, Option.bind_eq_some_iff] at ht
      obtain ⟨u, hu, ht⟩ := ht
      exact h u hu before j after rfl t ht

/-- A condition on the steps of a run is one on the steps of its first part and one on those
of its second. -/
theorem EachStep.append {C : σ → ι → Prop} {s : σ} {is js : List ι}
    (h : EachStep step C s (is ++ js)) :
    EachStep step C s is ∧ ∀ t, run step s is = some t → EachStep step C t js := by
  constructor
  · intro before i after heq t ht
    exact h before i (after ++ js) (by rw [heq, List.append_assoc]; rfl) t ht
  · intro t ht before i after heq u hu
    refine h (is ++ before) i after (by rw [heq, List.append_assoc]) u ?_
    rw [run_append, ht]
    exact hu

/-- **The invariant rule**: if every step from a state with `I` is defined and leads to a
state with `I`, then so does every run. -/
theorem run_invariant {I : σ → Prop} (hstep : ∀ s i, I s → ∃ t, step s i = some t ∧ I t)
    {s : σ} (hs : I s) (is : List ι) : ∃ t, run step s is = some t ∧ I t := by
  induction is generalizing s with
  | nil => exact ⟨s, rfl, hs⟩
  | cons i is ih =>
    obtain ⟨t, ht, hI⟩ := hstep s i hs
    obtain ⟨u, hu, hI'⟩ := ih hI
    exact ⟨u, by rw [run_cons, ht]; exact hu, hI'⟩

/-- What a state with the invariant `I` lets happen holds of each step of a run. -/
theorem eachStep_of_invariant {I : σ → Prop} {C : σ → ι → Prop} (hC : ∀ s i, I s → C s i)
    (hstep : ∀ s i t, I s → step s i = some t → I t) {s : σ} (hs : I s) (is : List ι) :
    EachStep step C s is := by
  induction is generalizing s with
  | nil => exact eachStep_nil
  | cons i is ih =>
    rw [eachStep_cons]
    exact ⟨hC s i hs, fun t ht => ih (hstep s i t hs ht)⟩

/-- **The rule of the exact condition**: where a step from a good state leads to a good
state exactly under `C`, a run stays in good states exactly if each of its steps meets
`C`. -/
theorem everyState_iff_eachStep {I G : σ → Prop} {C : σ → ι → Prop}
    (hstep : ∀ s i, I s → ∃ t, step s i = some t ∧ I t)
    (hexact : ∀ s i t, I s → G s → step s i = some t → (G t ↔ C s i))
    {s : σ} (hs : I s) (hg : G s) (is : List ι) :
    EveryState step G s is ↔ EachStep step C s is := by
  induction is generalizing s with
  | nil => simp only [everyState_nil, hg, eachStep_nil]
  | cons i is ih =>
    obtain ⟨t, ht, hI⟩ := hstep s i hs
    have hGC := hexact s i t hs hg ht
    rw [everyState_cons, eachStep_cons]
    simp only [ht, Option.some.injEq, forall_eq']
    constructor
    · rintro ⟨-, h⟩
      have hGt : G t := h [] is rfl t rfl
      exact ⟨hGC.mp hGt, (ih hI hGt).mp h⟩
    · rintro ⟨hC, h⟩
      exact ⟨hg, (ih hI (hGC.mpr hC)).mpr h⟩

/-- **The rule of the equivalent condition**: two conditions that agree on a step from a state
with `I` agree on a run, if a step that meets them leads from `I` to `I`. -/
theorem eachStep_congr {I : σ → Prop} {C D : σ → ι → Prop}
    (hiff : ∀ s i, I s → (C s i ↔ D s i))
    (hstep : ∀ s i t, I s → C s i → step s i = some t → I t)
    {s : σ} (hs : I s) (is : List ι) : EachStep step C s is ↔ EachStep step D s is := by
  induction is generalizing s with
  | nil => exact iff_of_true eachStep_nil eachStep_nil
  | cons i is ih =>
    rw [eachStep_cons, eachStep_cons, ← hiff s i hs]
    apply and_congr_right
    intro hC
    apply forall₂_congr
    intro t ht
    exact ih (hstep s i t hs hC ht)

/-! ## Inputs of a kind -/

/-- The inputs of the steps of a run that meet `C`, in their order. -/
def picked (step : σ → ι → Option σ) (C : σ → ι → Bool) : σ → List ι → List ι
  | _, [] => []
  | s, i :: is =>
    (if C s i then [i] else []) ++
      match step s i with
      | none => []
      | some t => picked step C t is

/-- The inputs that are picked are some of those given. -/
theorem picked_sublist (C : σ → ι → Bool) (s : σ) (is : List ι) :
    (picked step C s is).Sublist is := by
  induction is generalizing s with
  | nil => exact List.Sublist.refl _
  | cons i is ih =>
    have hfirst : (if C s i then [i] else []).Sublist [i] := by
      split
      · exact List.Sublist.refl _
      · exact List.nil_sublist _
    apply hfirst.append
    cases step s i with
    | none => exact List.nil_sublist _
    | some t => exact ih t

/-- A further input is picked if it meets the condition after the run. -/
theorem picked_concat (C : σ → ι → Bool) {s t : σ} {is : List ι} (hrun : run step s is = some t)
    (i : ι) :
    picked step C s (is ++ [i]) = picked step C s is ++ if C t i then [i] else [] := by
  induction is generalizing s with
  | nil =>
    obtain rfl := Option.some.inj hrun
    rw [List.nil_append, picked, picked, List.nil_append]
    cases step s i <;> simp [picked]
  | cons j is ih =>
    obtain ⟨u, hu, hrest⟩ := Option.bind_eq_some_iff.mp hrun
    simp only [List.cons_append, picked, hu, ih hrest, List.append_assoc]

/-! ## Inputs that do nothing -/

section Idle

variable {τ : Type*} {view : σ → τ}

/-- States that look alike go on alike. -/
theorem run_congr (hview : ∀ s s' i, view s = view s' → step s i = step s' i) {s s' : σ}
    (h : view s = view s') (is : List ι) :
    (run step s is).map view = (run step s' is).map view := by
  cases is with
  | nil => exact congrArg some h
  | cons i is => rw [run_cons, run_cons, hview s s' i h]

/-- **The rule of the idle inputs**: what a step keeps of the state on an idle input is all that
later steps look at, so a run ends as it does without the idle inputs. -/
theorem run_filter {I : σ → Prop} {active : ι → Bool}
    (hview : ∀ s s' i, view s = view s' → step s i = step s' i)
    (hstep : ∀ s i, I s → ∃ t, step s i = some t ∧ I t)
    (hidle : ∀ s i t, I s → active i = false → step s i = some t → view t = view s) {s : σ}
    (hs : I s) (is : List ι) :
    (run step s (is.filter active)).map view = (run step s is).map view := by
  induction is generalizing s with
  | nil => rfl
  | cons i is ih =>
    obtain ⟨t, ht, hI⟩ := hstep s i hs
    have hrest : (run step s (i :: is)).map view = (run step t is).map view := by
      rw [run_cons, ht]
      rfl
    rw [hrest, ← ih hI]
    cases hactive : active i with
    | true =>
      rw [List.filter_cons_of_pos hactive, run_cons, ht]
      rfl
    | false =>
      rw [List.filter_cons_of_neg (by simp [hactive])]
      exact run_congr hview (hidle s i t hs hactive ht).symm _

end Idle

end PsCast.Library
