import PsCast.Analysis.Input
import PsCast.Analysis.Refinement
import PsCast.Analysis.Stored
import Mathlib.Data.List.Destutter

/-!
# How often the controller is read

`App::run` reads the controller once for every frame, and most frames bring nothing new. A run
that is fed with samples ends as the run of only those frames in which one of the four buttons
is released that the menu answers to (`run_polled`): the outside world is not looked at in
between, and samples that repeat the one before can be left out. So it does not matter how fast
the frames come.
-/

set_option autoImplicit false

namespace PsCast

open App Library Library.History

/-- The state of the program itself. -/
def App.inMemory (a : App) : App := { a with feedFile := none }

/-- Whether a button is triggered that the menu answers to. -/
def Frame.active (f : Frame) : Bool := decide (f.motion ≠ .rest ∨ f.key ≠ .other)

/-- The frames that a sequence of samples makes. -/
def Gui.frames : (old_data : BitVec 32) → List (BitVec 32 × Frame) → List Frame
  | _, [] => []
  | old_data, (buttons, f) :: rest =>
    { f with pressedButtons := (updateInput old_data buttons).1 } :: frames buttons rest

/-- A sample that differs from the one before. -/
def Gui.Changes (input next : BitVec 32 × Frame) : Prop := input.1 ≠ next.1

instance : DecidableRel Gui.Changes := fun input next =>
  inferInstanceAs (Decidable (input.1 ≠ next.1))

namespace Analysis

open Gui

/-! ## Idle frames -/

section Idle

variable {P : Platform} {f : Frame} {a b : App} {c : Client} {t : Trail ListId}

/-- An idle frame neither moves the cursor nor has a key. -/
theorem active_eq_false : f.active = false ↔ f.motion = .rest ∧ f.key = .other := by
  unfold Frame.active
  rw [decide_eq_false_iff_not, not_or, not_not, not_not]

/-- A frame finds the feed file anew. -/
theorem step_congr (h : a.inMemory = b.inMemory) (f : Frame) : step P a f = step P b f := by
  have hfound : a.inMemory.atFrame f = b.inMemory.atFrame f := congrArg (App.atFrame · f) h
  exact congrArg (fun a => (draw P f a).map Prod.fst) hfound

/-- Writing the cursor that is there changes nothing. -/
theorem setCursor_index {l : ListId} {ml : MenuList} (hml : a.lists l = some ml) :
    a.setCursor l ml ml.index = a := by
  have hlists : Function.update a.lists l (some ml) = a.lists :=
    Function.update_eq_self_iff.mpr hml.symm
  unfold App.setCursor
  rw [hlists]

/-- An idle frame does nothing. -/
theorem step_idle (h : Presents a c t) (hidle : f.active = false) (hstep : step P a f = some b) :
    b = a.atFrame f := by
  obtain ⟨hrest, hother⟩ := active_eq_false.mp hidle
  obtain ⟨shown, ml, -, hml, hrun⟩ := run_of_step h.toFollows hstep
  have hcursor : cursorAfter f ml = ml.index := by
    rw [← moveTo_eq, hrest]
    rfl
  have hchosen : a.chosen f = none := by
    rw [chosen_eq h f, hother]
    rfl
  rw [hchosen, hcursor, setCursor_index (a := a.atFrame f) hml] at hrun
  exact (Option.some.inj hrun).symm

/-- Idle frames can be left out of a run. -/
theorem run_active (P : Platform) (fs : List Frame) :
    (run (step P) App.start (fs.filter Frame.active)).map App.inMemory =
      (run (step P) App.start fs).map App.inMemory := by
  apply run_filter (I := fun a => ∃ c t, Presents a c t)
  · intro a b f h
    exact step_congr h f
  · exact step_exists_presents P
  · rintro a f b ⟨c, t, h⟩ hidle hstep
    rw [step_idle h hidle hstep]
    rfl
  · exact ⟨_, _, start_presents⟩

end Idle

/-! ## Samples -/

/-- A frame without buttons is idle. -/
theorem active_zero (f : Frame) : Frame.active { f with pressedButtons := 0 } = false := by
  have hnone : ∀ button, triggered 0 button = false := by
    intro button
    simp [triggered]
  rw [active_eq_false]
  unfold Frame.motion Frame.key
  simp only [hnone, Bool.false_eq_true, if_false, and_self]

/-- A sample that repeats the one before triggers nothing. -/
theorem updateInput_self (buttons : BitVec 32) : (updateInput buttons buttons).1 = 0 := by
  simp [updateInput]

/-- A run of `GUI::update` is the run of the frames that its samples make. -/
theorem run_frames (P : Platform) (old_data : BitVec 32) (a : App)
    (inputs : List (BitVec 32 × Frame)) :
    (run (Gui.update P) (old_data, a) inputs).map Prod.snd =
      run (step P) a (frames old_data inputs) := by
  induction inputs generalizing old_data a with
  | nil => rfl
  | cons input rest ih =>
    rw [run_cons, frames, run_cons, update_eq]
    cases step P a { input.2 with pressedButtons := (updateInput old_data input.1).1 } with
    | none => rfl
    | some b => exact ih input.1 b

/-- Samples that repeat the one before make no frame that does anything. -/
theorem frames_destutter' (old_data : BitVec 32) (input : BitVec 32 × Frame)
    (inputs : List (BitVec 32 × Frame)) :
    (frames old_data (inputs.destutter' Changes input)).filter Frame.active =
      (frames old_data (input :: inputs)).filter Frame.active := by
  induction inputs generalizing old_data input with
  | nil => rfl
  | cons next inputs ih =>
    by_cases hchanges : Changes input next
    · rw [List.destutter'_cons_pos _ hchanges, frames, frames, List.filter_cons, List.filter_cons,
        ih input.1 next]
    · have hsame : next.1 = input.1 := (not_not.mp hchanges).symm
      have hidle : Frame.active { next.2 with pressedButtons := (updateInput input.1 next.1).1 } =
          false := by
        rw [hsame, updateInput_self]
        exact active_zero next.2
      have hnext : (frames input.1 (next :: inputs)).filter Frame.active =
          (frames input.1 inputs).filter Frame.active := by
        rw [frames, List.filter_cons_of_neg (by rw [hidle]; exact Bool.false_ne_true), hsame]
      rw [List.destutter'_cons_neg _ hchanges, ih old_data input, frames, frames, List.filter_cons,
        List.filter_cons, hnext]

/-- Frames whose sample repeats the one before can be left out. -/
theorem frames_destutter (old_data : BitVec 32) (inputs : List (BitVec 32 × Frame)) :
    (frames old_data (inputs.destutter Changes)).filter Frame.active =
      (frames old_data inputs).filter Frame.active := by
  cases inputs with
  | nil => rfl
  | cons input inputs => exact frames_destutter' old_data input inputs

/-- **What counts are the buttons that are released**: a run on samples ends as the run of only
those frames in which one is that the menu answers to, and as the run on only those samples
that differ from the one before. -/
theorem run_polled (P : Platform) (inputs : List (BitVec 32 × Frame)) :
    ∃ a, (run (Gui.update P) (oldData, App.start) inputs).map (fun s => s.2.inMemory) = some a ∧
      (run (step P) App.start ((frames oldData inputs).filter Frame.active)).map App.inMemory =
        some a ∧
      (run (Gui.update P) (oldData, App.start) (inputs.destutter Changes)).map
        (fun s => s.2.inMemory) = some a := by
  have hsamples : ∀ inputs : List (BitVec 32 × Frame),
      (run (Gui.update P) (oldData, App.start) inputs).map (fun s => s.2.inMemory) =
        (run (step P) App.start ((frames oldData inputs).filter Frame.active)).map
          App.inMemory := by
    intro inputs
    rw [run_active, ← run_frames, Option.map_map]
    rfl
  obtain ⟨a, hrun, -⟩ := run_follows P ((frames oldData inputs).filter Frame.active)
  refine ⟨a.inMemory, ?_, ?_, ?_⟩
  · rw [hsamples, hrun]
    rfl
  · rw [hrun]
    rfl
  · rw [hsamples, frames_destutter, hrun]
    rfl

end Analysis

end PsCast
