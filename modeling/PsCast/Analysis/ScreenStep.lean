import PsCast.Model.App

/-!
# One frame of the menu

What `Menu::draw` does when the shown list exists: the cursor moves, the selected
function runs, and drawing succeeds as long as the list then shown exists
(`step_of_run`). Everything else that is proved about frames goes through this one
lemma and the function that runs.
-/

set_option autoImplicit false

namespace PsCast

/-- The shown list exists, so that the header can be drawn. -/
def Screen.Shown (s : Screen) : Prop :=
  ∃ shown ml, s.menu.menuList = some shown ∧ s.lists shown = some ml

/-- The application with this status message. -/
def App.withStatus (a : App) (label : Bytes) : App :=
  { a with menu := { a.menu with statusMsg := label } }

/-- The screen after `goToList` entered `next`, which was the object `ml`. -/
def Screen.entered (s : Screen) (next : ListId) (ml : MenuList) : Screen :=
  { menu := { s.menu with
      menuList := some next
      currentList := some next
      entryIndex := 0
      backButtonCallback := some (.back next) }
    lists := Function.update s.lists next
      (some { ml with parent := ml.parent.or s.menu.currentList }) }

/-- The screen after the back callback led from `next`, the object `ml`, to its parent. -/
def Screen.left (s : Screen) (next parent : ListId) (ml : MenuList) : Screen :=
  { menu := { s.menu with
      menuList := some parent
      currentList := some parent
      entryIndex := 0 }
    lists := Function.update s.lists next (some { ml with parent := none }) }

/-- The application with this screen. -/
def App.withScreen (a : App) (s : Screen) : App := { a with toScreen := s }

/-- The state in which a frame starts: the feed file is the one that the frame finds. -/
def App.atFrame (a : App) (f : Frame) : App := { a with feedFile := f.feedFile }

/-- The state with the cursor of the list `ml`, the object behind `l`, at `index`. -/
def App.setCursor (a : App) (l : ListId) (ml : MenuList) (index : ℕ) : App :=
  { a with lists := Function.update a.lists l (some { ml with index := index }) }

/-- Where Down and Up leave the cursor of the shown list. -/
def App.cursorAfter (f : Frame) (ml : MenuList) : ℕ :=
  if triggered f.pressedButtons sceCtrlDown then ml.increaseIndex.index
  else if triggered f.pressedButtons sceCtrlUp then ml.decreseIndex.index
  else ml.index

namespace Analysis

open App

/-! ## The header -/

@[simp] theorem withStatus_withStatus (a : App) (m m' : Bytes) :
    (a.withStatus m).withStatus m' = a.withStatus m' := rfl

/-- The program starts with its main menu shown. -/
theorem start_shown : App.start.toScreen.Shown := ⟨.mainMenuList, mainMenuListInit, rfl, rfl⟩

/-- A message does not change what is shown. -/
theorem shown_withStatus {a : App} (h : a.toScreen.Shown) (m : Bytes) :
    (a.withStatus m).toScreen.Shown := h

/-- Sending a message sets it, and drawing the header succeeds. -/
theorem sendHeaderMessage_eq {a : App} (h : a.toScreen.Shown) (m : Bytes) :
    a.sendHeaderMessage m = some (a.withStatus m) := by
  obtain ⟨shown, ml, hshown, hml⟩ := h
  simp [App.sendHeaderMessage, Screen.sendHeaderMessage, Screen.drawHeader, hshown, hml,
    App.withStatus]

/-! ## The cursor -/

/-- Moving the cursor down changes the cursor only. -/
theorem increaseIndex_eq (ml : MenuList) :
    ml.increaseIndex = { ml with index := ml.increaseIndex.index } := by
  unfold MenuList.increaseIndex
  split <;> rfl

/-- Moving the cursor up changes the cursor only. -/
theorem decreseIndex_eq (ml : MenuList) :
    ml.decreseIndex = { ml with index := ml.decreseIndex.index } := by
  unfold MenuList.decreseIndex
  split <;> rfl

/-- Down and Up change nothing but the cursor of the shown list. -/
theorem moveCursor_eq {a : App} {shown : ListId} {ml : MenuList} (f : Frame)
    (hshown : a.menu.menuList = some shown) (hml : a.lists shown = some ml) :
    a.moveCursor f = some (a.setCursor shown ml (cursorAfter f ml)) := by
  unfold App.moveCursor cursorAfter App.setCursor
  by_cases hdown : triggered f.pressedButtons sceCtrlDown
  · simp only [hdown, if_true, Screen.goDownOnList, Screen.setList, hshown, hml,
      Option.bind_eq_bind, Option.bind_some, Option.pure_def, ← increaseIndex_eq]
  · by_cases hup : triggered f.pressedButtons sceCtrlUp
    · simp only [hdown, hup, if_true, Bool.false_eq_true, if_false, Screen.goUpOnList,
        Screen.setList, hshown, hml, Option.bind_eq_bind, Option.bind_some, Option.pure_def,
        ← decreseIndex_eq]
    · simp only [hdown, hup, Bool.false_eq_true, if_false]
      rw [← hml, Function.update_eq_self]

/-! ## Entering and leaving a list -/

/-- Entering a list that exists; a link that is already there is kept. -/
theorem goToList_eq {s : Screen} {next : ListId} {ml : MenuList} (hml : s.lists next = some ml) :
    s.goToList (some next) = some (s.entered next ml) := by
  unfold Screen.goToList Screen.entered
  simp only [hml, Option.bind_eq_bind, Option.bind_some, MenuList.getParentList]
  by_cases hparent : ml.parent = none
  · simp [hparent, Screen.setList, Screen.checkoutEntryList, MenuList.setParentList]
  · obtain ⟨parent, hsome⟩ := Option.ne_none_iff_exists'.mp hparent
    have hsame : ({ ml with parent := ml.parent.or s.menu.currentList } : MenuList) = ml := by
      rw [hsome, Option.some_or, ← hsome]
    have hlists : Function.update s.lists next (some ml) = s.lists := by
      rw [← hml, Function.update_eq_self]
    rw [hsame, hlists]
    simp [hparent, Screen.checkoutEntryList]

/-- The back callback leads to the parent of the list it captured and empties its link. -/
theorem backLambda_eq {s : Screen} {next parent : ListId} {ml : MenuList}
    (hml : s.lists next = some ml) (hparent : ml.parent = some parent) :
    s.backLambda next = some (s.left next parent ml) := by
  unfold Screen.backLambda Screen.left
  simp [hml, hparent, MenuList.getParentList, Screen.setList, Screen.checkoutEntryList,
    MenuList.setParentList]

/-- Without a parent the back callback does nothing. -/
theorem backLambda_idle {s : Screen} {next : ListId} {ml : MenuList}
    (hml : s.lists next = some ml) (hparent : ml.parent = none) : s.backLambda next = some s := by
  unfold Screen.backLambda
  simp [hml, hparent, MenuList.getParentList]

/-! ## The frame -/

/-- With a list to show, drawing it succeeds for every cursor. -/
theorem drawList_isSome {s : Screen} (h : s.Shown) (index : ℕ) : (s.drawList index).isSome := by
  obtain ⟨shown, ml, hshown, hml⟩ := h
  simp only [Screen.drawList, hshown, hml, Option.bind_eq_bind, Option.bind_some]
  split <;> rfl

/-- **The input half of a frame**: the cursor moves, then the function that the buttons select
runs. -/
theorem handleInput_eq {P : Platform} {a : App} {f : Frame} {shown : ListId} {ml : MenuList}
    (hshown : a.menu.menuList = some shown) (hml : a.lists shown = some ml) :
    handleInput P f a =
      (runIfSet P f (a.setCursor shown ml (cursorAfter f ml))
        (selected f a.menu ml (cursorAfter f ml))).map fun b => (b, cursorAfter f ml) := by
  have hmove := moveCursor_eq f hshown hml
  have hlist : (a.setCursor shown ml (cursorAfter f ml)).lists shown =
      some { ml with index := cursorAfter f ml } := Function.update_self ..
  have hmenu : (a.setCursor shown ml (cursorAfter f ml)).menu = a.menu := rfl
  have hselected : selected f a.menu { ml with index := cursorAfter f ml } (cursorAfter f ml) =
      selected f a.menu ml (cursorAfter f ml) := rfl
  unfold handleInput
  rw [hshown]
  simp only [hmove, Option.bind_eq_bind, Option.bind_some, hlist, MenuList.getIndex, hmenu,
    hselected]
  exact Option.map_eq_bind.symm

/-- The parts of a frame that was drawn. -/
theorem draw_cases {P : Platform} {a b : App} {f : Frame} {picture : Screen.Picture}
    (hdraw : draw P f a = some (b, picture)) :
    ∃ index, handleInput P f a = some (b, index) ∧
      b.toScreen.drawHeader = some (picture.status, picture.context) ∧
      b.toScreen.drawList index = some picture.rows := by
  unfold draw at hdraw
  obtain ⟨⟨c, index⟩, hinput, hdraw⟩ := Option.bind_eq_some_iff.mp hdraw
  obtain ⟨⟨status, context⟩, hheader, hdraw⟩ := Option.bind_eq_some_iff.mp hdraw
  obtain ⟨rows, hrows, hdraw⟩ := Option.bind_eq_some_iff.mp hdraw
  obtain ⟨rfl, rfl⟩ := Prod.mk.inj (Option.some.inj hdraw)
  exact ⟨index, hinput, hheader, hrows⟩

/-- **One frame**: if the function that the buttons select runs, after the cursor moved, and
leaves a list to show, the frame ends in the state it leaves. -/
theorem step_of_run {P : Platform} {a b : App} {f : Frame} {shown : ListId} {ml : MenuList}
    (hshown : a.menu.menuList = some shown) (hml : a.lists shown = some ml)
    (hrun : runIfSet P f ((a.atFrame f).setCursor shown ml (cursorAfter f ml))
      (selected f a.menu ml (cursorAfter f ml)) = some b)
    (hb : b.toScreen.Shown) : step P a f = some b := by
  have hinput : handleInput P f (a.atFrame f) = some (b, cursorAfter f ml) := by
    rw [handleInput_eq (a := a.atFrame f) hshown hml]
    exact congrArg (Option.map fun b => (b, cursorAfter f ml)) hrun
  obtain ⟨rows, hrows⟩ := Option.isSome_iff_exists.mp (drawList_isSome hb (cursorAfter f ml))
  obtain ⟨shown', ml', hshown', hml'⟩ := hb
  show (draw P f (a.atFrame f)).map Prod.fst = some b
  unfold draw
  simp [hinput, Screen.drawHeader, hshown', hml', hrows]

end Analysis

end PsCast
