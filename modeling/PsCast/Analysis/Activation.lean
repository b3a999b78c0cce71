import PsCast.Analysis.Highlight
import PsCast.Analysis.Labels

/-!
# The active entry

`Menu::setEntryActive` writes the index of the menu, and `Menu::draw` reads the index of the
list, which only Down and Up write. So activating an entry never changes what Accept runs
(`withEntryIndex_chosen`), and the activated entry is the one that acts exactly if the entry
under the cursor of the list has the same callback (`activation_acts_iff`).
-/

set_option autoImplicit false

namespace PsCast

open App Library Library.History

/-- After a call of `setEntryActive` that returned `result` and left `s`, the frame `f` runs
the callback of entry `k` if the call was successful, and else what it would have run. -/
structure App.ActivationActs (a : App) (f : Frame) (ml : MenuList) (k : ℕ) (result : Bool)
    (s : Screen) : Prop where
  activated : result = true →
    (a.withScreen s).chosen f = (ml.atIndex k).callback.map MenuCallback.owner
  refused : result = false → (a.withScreen s).chosen f = a.chosen f

/-- The screen after `setEntryActive` wrote the position `k`. -/
def Screen.withEntryIndex (s : Screen) (k : ℕ) : Screen :=
  { s with menu := { s.menu with entryIndex := k } }

namespace Analysis

/-- What a frame chooses does not depend on the position that `setEntryActive` writes. -/
theorem withEntryIndex_chosen (a : App) (f : Frame) (k : ℕ) :
    (a.withScreen (a.toScreen.withEntryIndex k)).chosen f = a.chosen f := rfl

section Activating

variable {a : App} {shown : ListId} {ml : MenuList} {f : Frame}

/-- `setEntryActive` writes a position inside of the list and refuses any other one. -/
theorem setEntryActive_eq (hshown : a.menu.menuList = some shown) (hml : a.lists shown = some ml)
    (k : ℕ) :
    a.toScreen.setEntryActive k =
      some (if k < ml.size then (true, a.toScreen.withEntryIndex k) else (false, a.toScreen)) := by
  unfold Screen.setEntryActive Screen.withEntryIndex
  simp only [hshown, hml, Option.bind_eq_bind, Option.bind_some]
  split
  · rfl
  · rfl

/-- In a frame with Accept alone the function chosen runs and the cursor stays. -/
theorem handleInput_of_pressesAccept (hshown : a.menu.menuList = some shown)
    (hml : a.lists shown = some ml) (hf : PressesAccept a f) (P : Platform) :
    handleInput P f a = (runIfSet P f a (a.chosen f)).map fun b => (b, ml.index) := by
  have hcursor : cursorAfter f ml = ml.index := by
    rw [cursorAfter, if_neg (by rw [hf.2.1]; exact Bool.false_ne_true),
      if_neg (by rw [hf.2.2]; exact Bool.false_ne_true)]
  have hsame : a.setCursor shown ml ml.index = a := by
    have hlists : Function.update a.lists shown (some ml) = a.lists := by
      rw [← hml, Function.update_eq_self]
    unfold App.setCursor
    rw [hlists]
  have hchosen : a.chosen f = selected f a.menu ml ml.index := by
    rw [← hcursor]
    simp [App.chosen, hshown, hml]
  rw [handleInput_eq hshown hml, hcursor, hsame, hchosen]

end Activating

/-- **The activated entry acts** exactly if it has the callback of the entry under the cursor of
the list; a call that returns `false`, as every call with a label does, changes nothing. -/
theorem activation_acts_iff (a : App) (shown : ListId) (ml : MenuList) (f : Frame)
    (hshown : a.menu.menuList = some shown) (hml : a.lists shown = some ml)
    (hf : PressesAccept a f) :
    (∀ P, handleInput P f a = (runIfSet P f a (a.chosen f)).map fun b => (b, ml.index)) ∧
    (∀ k, ∃ result s, a.toScreen.setEntryActive k = some (result, s) ∧
      (a.ActivationActs f ml k result s ↔
        (k < ml.size → (ml.atIndex ml.index).callback = (ml.atIndex k).callback))) ∧
    (∀ label, ∃ result s, a.toScreen.setEntryActiveLabel label = some (result, s) ∧
      ∀ k, a.ActivationActs f ml k result s) := by
  have hchosen := chosen_of_pressesAccept hshown hml hf
  have hrefused : ∀ k, a.ActivationActs f ml k false a.toScreen := by
    intro k
    refine ⟨?_, fun _ => rfl⟩
    intro htrue
    cases htrue
  refine ⟨handleInput_of_pressesAccept hshown hml hf, ?_, ?_⟩
  · intro k
    have hactive := setEntryActive_eq hshown hml k
    by_cases hk : k < ml.size
    · rw [if_pos hk] at hactive
      refine ⟨true, a.toScreen.withEntryIndex k, hactive, ?_⟩
      constructor
      · intro hacts _
        have hruns := hacts.activated rfl
        rw [withEntryIndex_chosen, hchosen] at hruns
        exact Option.map_injective (fun _ _ => MenuCallback.owner.inj) hruns
      · intro hsame
        refine ⟨fun _ => ?_, ?_⟩
        · rw [withEntryIndex_chosen, hchosen, hsame hk]
        · intro hfalse
          cases hfalse
    · rw [if_neg hk] at hactive
      exact ⟨false, a.toScreen, hactive, iff_of_true (hrefused k) fun hlt => absurd hlt hk⟩
  · intro label
    exact ⟨false, a.toScreen, setEntryActiveLabel_eq hshown hml label, hrefused⟩

/-- In the first state, with Accept alone. -/
theorem activation_acts_start :
    (∀ P, handleInput P (press sceCtrlCircle) App.start =
      (runIfSet P (press sceCtrlCircle) App.start (App.start.chosen (press sceCtrlCircle))).map
        fun b => (b, mainMenuListInit.index)) ∧
    (∀ k, ∃ result s, App.start.toScreen.setEntryActive k = some (result, s) ∧
      (App.start.ActivationActs (press sceCtrlCircle) mainMenuListInit k result s ↔
        (k < mainMenuListInit.size →
          (mainMenuListInit.atIndex mainMenuListInit.index).callback =
            (mainMenuListInit.atIndex k).callback))) ∧
    (∀ label, ∃ result s, App.start.toScreen.setEntryActiveLabel label = some (result, s) ∧
      ∀ k, App.start.ActivationActs (press sceCtrlCircle) mainMenuListInit k result s) :=
  activation_acts_iff App.start .mainMenuList mainMenuListInit (press sceCtrlCircle) rfl rfl
    ⟨rfl, rfl, rfl⟩

/-- In the main menu the entry "options" is activated, and Accept runs the entry "podcasts". -/
theorem not_activation_acts :
    ¬ (∀ (a : App) (shown : ListId) (ml : MenuList) (f : Frame) (k : ℕ) (result : Bool)
      (s : Screen), a.menu.menuList = some shown → a.lists shown = some ml → PressesAccept a f →
      a.toScreen.setEntryActive k = some (result, s) → a.ActivationActs f ml k result s) := by
  intro h
  have hacts := h App.start .mainMenuList mainMenuListInit (press sceCtrlCircle) 3 true
    (App.start.toScreen.withEntryIndex 3) rfl rfl ⟨rfl, rfl, rfl⟩ rfl
  have hruns := hacts.activated rfl
  exact absurd hruns (by decide)

end Analysis

end PsCast
