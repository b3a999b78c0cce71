import PsCast.Model.Gui
import PsCast.Library.Pulse
import PsCast.Analysis.NavigationStep

/-!
# One action per press

`GUI::updateInput` reports a button in the frame in which it is released. Seen as a signal in
time that is on while the button is held, the button is triggered where the signal falls
(`triggered_eq_falls`), so once for each press that is complete (`oneTriggerPerPress`). One
`Menu::draw` then moves the cursor by at most one and runs at most one of its four actions
(`draw_actsOnce`), and no function that it runs moves a cursor (`Outcome.index_eq`), so the
same holds of the frames of a run that is fed with samples (`one_action_per_press`).
-/

set_option autoImplicit false

namespace PsCast

open App Library Library.History

/-! ## Presses -/

/-- Button `k` is held in frame `t`: the bit of the sample is zero. -/
def Gui.held (samples : List (BitVec 32)) (k : Fin 32) (t : ℕ) : Bool :=
  samples[t]?.any fun buttons => !triggered buttons (BitVec.twoPow 32 k)

/-- Of the frames with these samples, those in which `pressed_buttons` has button `k` are the
frames in which a press of it ends. -/
structure Gui.OneTriggerPerPress (samples : List (BitVec 32)) (k : Fin 32) : Prop where
  count : (pressedButtons oldData samples).countP (triggered · (BitVec.twoPow 32 k)) =
    {press : ℕ × ℕ | press.2 < samples.length ∧ Pulse (held samples k) press.1 press.2}.ncard
  release : ∀ t pressed_buttons, (pressedButtons oldData samples)[t]? = some pressed_buttons →
    (triggered pressed_buttons (BitVec.twoPow 32 k) = true ↔
      ∃ i, Pulse (held samples k) i t)
  whileHeld : ∀ t pressed_buttons, (pressedButtons oldData samples)[t]? = some pressed_buttons →
    held samples k t = true → triggered pressed_buttons (BitVec.twoPow 32 k) = false
  beforeFirst : ∀ t pressed_buttons, (pressedButtons oldData samples)[t]? = some pressed_buttons →
    (∀ i, i < t → held samples k i = false) →
    triggered pressed_buttons (BitVec.twoPow 32 k) = false

/-! ## Actions -/

/-- The four actions of `Menu::draw`. -/
inductive Action where
  | accept
  | back
  | options
  | select
  deriving DecidableEq, Repr

/-- The button that the menu has for an action. -/
def Menu.button (menu : Menu) : Action → BitVec 32
  | .accept => menu.acceptButton
  | .back => menu.backButton
  | .options => menu.optionsButton
  | .select => menu.selectButton

/-- The function that an action runs, with the cursor at `index` of the shown list `ml`. -/
def Menu.function (menu : Menu) (ml : MenuList) (index : ℕ) : Action → Option MenuCallback
  | .accept => (ml.atIndex index).callback.map .owner
  | .back => menu.backButtonCallback
  | .options => menu.optionsButtonCallback
  | .select => menu.selectButtonCallback

/-- The frame leads from `a` to `b` by moving the cursor of the list shown to `cursor`, and then
by the action `done`, if any. -/
structure App.ActsOnce (P : Platform) (f : Frame) (a b : App) (shown : ListId) (ml : MenuList)
    (cursor : ℕ) (done : Option Action) : Prop where
  showing : a.menu.menuList = some shown
  exists_list : a.lists shown = some ml
  forward : cursor ≤ ml.index + 1
  backward : ml.index ≤ cursor + 1
  moved : cursor ≠ ml.index →
    triggered f.pressedButtons sceCtrlDown = true ∨ triggered f.pressedButtons sceCtrlUp = true
  button : ∀ action ∈ done, triggered f.pressedButtons (a.menu.button action) = true
  result : runIfSet P f (a.setCursor shown ml cursor) (done.bind (a.menu.function ml cursor)) =
    some b

/-- Of the cursors of the lists that exist before and after, only that of the list shown
before moves, by at most one, and only with Down or Up triggered. -/
def App.CursorsStep (pressed_buttons : BitVec 32) (a b : App) : Prop :=
  ∀ l ml ml', a.lists l = some ml → b.lists l = some ml' →
    ml'.index ≤ ml.index + 1 ∧ ml.index ≤ ml'.index + 1 ∧
      (ml'.index ≠ ml.index → a.menu.menuList = some l ∧
        (triggered pressed_buttons sceCtrlDown = true ∨ triggered pressed_buttons sceCtrlUp = true))

namespace Analysis

open Gui

/-! ## Triggers -/

/-- A button of one bit is triggered exactly if that bit is set. -/
theorem triggered_twoPow (w : BitVec 32) (k : Fin 32) :
    triggered w (BitVec.twoPow 32 k) = w.getLsbD k := by
  unfold triggered
  rw [BitVec.and_twoPow]
  cases hbit : w.getLsbD k with
  | false => rfl
  | true =>
    have hne : BitVec.twoPow 32 k ≠ 0 := by
      intro hzero
      have hget := congrArg (BitVec.getLsbD · k) hzero
      simp at hget
    simpa using hne

/-- The edge mask: a button is triggered if it is released and was not before. -/
theorem triggered_updateInput (old_data buttons : BitVec 32) (k : Fin 32) :
    triggered (updateInput old_data buttons).1 (BitVec.twoPow 32 k) =
      (triggered buttons (BitVec.twoPow 32 k) && !triggered old_data (BitVec.twoPow 32 k)) := by
  rw [triggered_twoPow, triggered_twoPow, triggered_twoPow]
  simp [updateInput]

/-- Each sample gives one word of buttons. -/
theorem length_pressedButtons (old_data : BitVec 32) (samples : List (BitVec 32)) :
    (pressedButtons old_data samples).length = samples.length := by
  induction samples generalizing old_data with
  | nil => rfl
  | cons buttons rest ih => exact congrArg (· + 1) (ih buttons)

/-- In each frame the remembered sample is the one before. -/
theorem pressedButtons_getElem? (old_data : BitVec 32) (samples : List (BitVec 32)) (t : ℕ) :
    (pressedButtons old_data samples)[t]? =
      samples[t]?.bind fun buttons => (old_data :: samples)[t]?.map fun before =>
        (updateInput before buttons).1 := by
  induction samples generalizing old_data t with
  | nil => rfl
  | cons buttons rest ih =>
    cases t with
    | zero => rfl
    | succ t => exact ih buttons t

/-- A button is triggered where its signal falls. -/
theorem triggered_eq_falls {samples : List (BitVec 32)} {t : ℕ} {pressed_buttons : BitVec 32}
    (h : (pressedButtons oldData samples)[t]? = some pressed_buttons) (k : Fin 32) :
    triggered pressed_buttons (BitVec.twoPow 32 k) = falls (held samples k) t := by
  rw [pressedButtons_getElem?] at h
  obtain ⟨buttons, hbuttons, h⟩ := Option.bind_eq_some_iff.mp h
  obtain ⟨before, hbefore, rfl⟩ := Option.map_eq_some_iff.mp h
  rw [triggered_updateInput]
  cases t with
  -- the initial value says that no button is held
  | zero =>
    obtain rfl : oldData = before := by simpa using hbefore
    have hold : triggered oldData (BitVec.twoPow 32 k) = true := by
      have hones : oldData = BitVec.allOnes 32 := rfl
      rw [triggered_twoPow, hones, BitVec.getLsbD_allOnes]
      exact decide_eq_true k.isLt
    rw [hold, Bool.not_true, Bool.and_false, falls]
  | succ t =>
    rw [List.getElem?_cons_succ] at hbefore
    rw [falls, held, held, hbefore, hbuttons, Option.any_some, Option.any_some, Bool.not_not,
      Bool.and_comm]

/-- Counting along a list is counting times, if the two predicates agree. -/
theorem countP_eq_count {α : Type} {p : α → Bool} {q : ℕ → Bool} {xs : List α}
    (h : ∀ t x, xs[t]? = some x → p x = q t) :
    xs.countP p = Nat.count (fun t => q t = true) xs.length := by
  have hmap : xs.map p = (List.range xs.length).map q := by
    apply List.ext_getElem
    · simp
    · intro t ht _
      have hlt : t < xs.length := by simpa using ht
      simpa using h t xs[t] (List.getElem?_eq_getElem hlt)
  have hcount := congrArg (List.countP id) hmap
  rw [List.countP_map, List.countP_map] at hcount
  simpa [Nat.count, Function.comp_def] using hcount

/-- Every bit triggers once for each press. -/
theorem oneTriggerPerPress (samples : List (BitVec 32)) (k : Fin 32) :
    OneTriggerPerPress samples k where
  count := by
    rw [ncard_pulses, ← length_pressedButtons oldData samples]
    exact countP_eq_count fun t pressed_buttons h => triggered_eq_falls h k
  release t pressed_buttons h := by
    rw [triggered_eq_falls h k]
    exact falls_iff_exists_pulse t
  whileHeld t pressed_buttons h hheld := by
    rw [triggered_eq_falls h k]
    cases t with
    | zero => rfl
    | succ t =>
      rw [falls, hheld, Bool.not_true, Bool.and_false]
  beforeFirst t pressed_buttons h hbefore := by
    rw [triggered_eq_falls h k]
    cases t with
    | zero => rfl
    | succ t => rw [falls, hbefore t (Nat.lt_succ_self t), Bool.false_and]

/-! ## The frame -/

/-- Down moves the cursor by at most one. -/
theorem increaseIndex_step (ml : MenuList) :
    ml.index ≤ ml.increaseIndex.index ∧ ml.increaseIndex.index ≤ ml.index + 1 := by
  unfold MenuList.increaseIndex
  split
  · exact ⟨Nat.le_succ ml.index, le_rfl⟩
  · exact ⟨le_rfl, Nat.le_succ ml.index⟩

/-- Up moves the cursor by at most one. -/
theorem decreseIndex_step (ml : MenuList) :
    ml.decreseIndex.index ≤ ml.index ∧ ml.index ≤ ml.decreseIndex.index + 1 := by
  unfold MenuList.decreseIndex
  split
  · exact ⟨Nat.sub_le ml.index 1, Nat.le_add_of_sub_le le_rfl⟩
  · exact ⟨le_rfl, Nat.le_succ ml.index⟩

/-- A frame moves the cursor of the shown list by at most one, and only with Down or Up. -/
theorem cursorAfter_step (f : Frame) (ml : MenuList) :
    cursorAfter f ml ≤ ml.index + 1 ∧ ml.index ≤ cursorAfter f ml + 1 ∧
      (cursorAfter f ml ≠ ml.index →
        triggered f.pressedButtons sceCtrlDown = true ∨
          triggered f.pressedButtons sceCtrlUp = true) := by
  have hdown := increaseIndex_step ml
  have hup := decreseIndex_step ml
  unfold cursorAfter
  by_cases hgoDown : triggered f.pressedButtons sceCtrlDown = true
  · rw [if_pos hgoDown]
    exact ⟨hdown.2, by omega, fun _ => .inl hgoDown⟩
  · rw [if_neg hgoDown]
    by_cases hgoUp : triggered f.pressedButtons sceCtrlUp = true
    · rw [if_pos hgoUp]
      exact ⟨by omega, hup.2, fun _ => .inr hgoUp⟩
    · rw [if_neg hgoUp]
      exact ⟨Nat.le_succ ml.index, Nat.le_succ ml.index, fun hne => absurd rfl hne⟩

/-- The buttons select one of the four actions, whose button is triggered, or none. -/
theorem selected_eq_action (f : Frame) (menu : Menu) (ml : MenuList) (index : ℕ) :
    ∃ done : Option Action,
      (∀ action ∈ done, triggered f.pressedButtons (menu.button action) = true) ∧
        selected f menu ml index = done.bind (menu.function ml index) := by
  have hsome : ∀ action, triggered f.pressedButtons (menu.button action) = true →
      ∀ other ∈ some action, triggered f.pressedButtons (menu.button other) = true := by
    intro action haction other hother
    rwa [← Option.mem_some_iff.mp hother]
  unfold selected
  split
  · rename_i haccept
    exact ⟨some .accept, hsome .accept haccept, rfl⟩
  · split
    · rename_i hback
      exact ⟨some .back, hsome .back hback, rfl⟩
    · split
      · rename_i hoptions
        exact ⟨some .options, hsome .options hoptions, rfl⟩
      · split
        · rename_i hselect
          exact ⟨some .select, hsome .select hselect, rfl⟩
        · refine ⟨none, ?_, rfl⟩
          intro action hnone
          cases hnone

/-- Only with a list to show is a picture drawn. -/
theorem draw_exists_shown {P : Platform} {f : Frame} {a b : App} {picture : Screen.Picture}
    (h : draw P f a = some (b, picture)) :
    ∃ shown ml, a.menu.menuList = some shown ∧ a.lists shown = some ml := by
  obtain ⟨index, hinput, hheader, -⟩ := draw_cases h
  unfold handleInput at hinput
  cases hshown : a.menu.menuList with
  | none =>
    rw [hshown] at hinput
    obtain ⟨rfl, rfl⟩ := Prod.mk.inj (Option.some.inj hinput)
    rw [Screen.drawHeader, hshown] at hheader
    cases hheader
  | some shown =>
    rw [hshown] at hinput
    cases hml : a.lists shown with
    | some ml => exact ⟨shown, ml, rfl, hml⟩
    | none =>
      obtain ⟨moved, hmove, hinput⟩ := Option.bind_eq_some_iff.mp hinput
      obtain ⟨ml, hlist, -⟩ := Option.bind_eq_some_iff.mp hinput
      unfold moveCursor Screen.goDownOnList Screen.goUpOnList at hmove
      simp only [hshown, hml, Option.bind_eq_bind, Option.bind_some, Option.bind_none] at hmove
      split at hmove
      · cases hmove
      · split at hmove
        · cases hmove
        · obtain rfl := Option.some.inj hmove
          rw [hml] at hlist
          cases hlist

/-- **One draw** moves the cursor by at most one and runs at most one action. -/
theorem draw_actsOnce {P : Platform} {f : Frame} {a b : App} {picture : Screen.Picture}
    (h : draw P f a = some (b, picture)) :
    ∃ shown ml cursor done, ActsOnce P f a b shown ml cursor done := by
  obtain ⟨shown, ml, hshown, hml⟩ := draw_exists_shown h
  obtain ⟨hforward, hbackward, hmoved⟩ := cursorAfter_step f ml
  obtain ⟨done, hbutton, hselected⟩ := selected_eq_action f a.menu ml (cursorAfter f ml)
  refine ⟨shown, ml, cursorAfter f ml, done, hshown, hml, hforward, hbackward, hmoved, hbutton, ?_⟩
  obtain ⟨index, hinput, -, -⟩ := draw_cases h
  rw [handleInput_eq hshown hml, hselected] at hinput
  obtain ⟨c, hrun, hc⟩ := Option.map_eq_some_iff.mp hinput
  obtain ⟨rfl, -⟩ := Prod.mk.inj hc
  exact hrun

/-! ## The cursors of a run -/

section Running

variable {P : Platform} {f : Frame} {a b : App} {t : Trail ListId}

/-- An update leaves the cursors of the lists that stay. -/
theorem rebuilt_index_eq (h : Furnished a) (ps : List Podcast) {pl : MenuList}
    (hpl : a.lists .podcastList = some pl) {l : ListId} {ml ml' : MenuList}
    (hml : a.lists l = some ml) (hml' : (rebuilt a ps pl).lists l = some ml') :
    ml'.index = ml.index := by
  have hfixed : l = .mainMenuList ∨ l = .optionsList → ml'.index = ml.index := by
    intro hl
    rw [rebuilt_lists_fixed h ps pl hl, hml] at hml'
    rw [Option.some.inj hml']
  cases l with
  | mainMenuList => exact hfixed (.inl rfl)
  | optionsList => exact hfixed (.inr rfl)
  | podcastList =>
    obtain rfl : pl = ml := Option.some.inj (hpl.symm.trans hml)
    rw [← Option.some.inj hml']
  -- the lists of the update are new objects
  | episodes n =>
    have hlive := h.live n ml.entries (by rw [Screen.entriesOf, hml]; rfl)
    obtain ⟨m, hm, heq⟩ := h.allocated _ hlive
    have hold : ¬ a.allocated ≤ n := by
      rw [ListId.episodes.inj heq]
      omega
    rw [rebuilt_lists_episodes h, newLists, if_neg hold] at hml'
    cases hml'

/-- No function that the menu runs moves a cursor. -/
theorem Outcome.index_eq {c : Option MenuCallback} (h : Follows a t) (ho : Outcome P f t a c b)
    {l : ListId} {ml ml' : MenuList} (hml : a.lists l = some ml) (hml' : b.lists l = some ml') :
    ml'.index = ml.index := by
  have hsame : b.lists = a.lists → ml'.index = ml.index := by
    intro hlists
    rw [hlists, hml] at hml'
    rw [Option.some.inj hml']
  have hwritten : ∀ k before after, a.lists k = some before → after.index = before.index →
      b.lists = Function.update a.lists k (some after) → ml'.index = ml.index := by
    intro k before after hbefore hindex hlists
    rw [hlists] at hml'
    by_cases hl : l = k
    · subst hl
      rw [Function.update_self] at hml'
      rw [← Option.some.inj hml', hindex, Option.some.inj (hbefore.symm.trans hml)]
    · rw [Function.update_of_ne hl, hml] at hml'
      rw [Option.some.inj hml']
  cases ho with
  | nothing => exact hsame rfl
  | entered next before hbefore hnext hplace =>
    exact hwritten next before { before with parent := before.parent.or a.menu.currentList }
      hbefore rfl rfl
  | appended _ hb => exact hsame hb.1
  | unread _ hb hlines => exact hsame hb.1
  | updated m pl hpl hpath hlines =>
    have hupdate := read_follows h f (updatePodcasts P f a) m
    exact rebuilt_index_eq hupdate.toFurnished (updatePodcasts P f a) hpl hml hml'
  | left parent rest before hbefore hpath =>
    exact hwritten t.captured before { before with parent := none } hbefore rfl rfl
  | idle hidle => exact hsame rfl

/-- A frame moves no cursor but that of the list shown, by at most one. -/
theorem step_cursorsStep (h : Follows a t) (hstep : step P a f = some b) :
    CursorsStep f.pressedButtons a b := by
  obtain ⟨shown, mls, hhead, hmls, houtcome⟩ := outcome_of_step h hstep
  have hfollows : Follows ((a.atFrame f).setCursor shown mls (cursorAfter f mls)) t :=
    setCursor_follows h hmls _
  intro l ml ml' hml hml'
  by_cases hl : l = shown
  · subst hl
    obtain rfl : mls = ml := Option.some.inj (hmls.symm.trans hml)
    have hindex : ml'.index = cursorAfter f mls :=
      houtcome.index_eq hfollows (Function.update_self ..) hml'
    obtain ⟨hforward, hbackward, hmoved⟩ := cursorAfter_step f mls
    rw [hindex]
    exact ⟨hforward, hbackward, fun hne => ⟨h.shown.trans hhead, hmoved hne⟩⟩
  · have hindex : ml'.index = ml.index :=
      houtcome.index_eq hfollows ((Function.update_of_ne hl ..).trans hml) hml'
    rw [hindex]
    exact ⟨Nat.le_succ ml.index, Nat.le_succ ml.index, fun hne => absurd rfl hne⟩

/-- A call of `GUI::update` is a frame with the buttons that are released in its sample. -/
theorem update_eq (P : Platform) (s : BitVec 32 × App) (input : BitVec 32 × Frame) :
    Gui.update P s input =
      (step P s.2 { input.2 with pressedButtons := (updateInput s.1 input.1).1 }).map
        fun a => (input.1, a) :=
  Option.map_eq_bind.symm

/-- The sample remembered at the end of a run is its last one. -/
theorem run_samples {inputs : List (BitVec 32 × Frame)} {s s' : BitVec 32 × App}
    (hrun : run (Gui.update P) s inputs = some s') :
    (s.1 :: inputs.map Prod.fst)[inputs.length]? = some s'.1 := by
  induction inputs generalizing s with
  | nil =>
    obtain rfl := Option.some.inj hrun
    rfl
  | cons input rest ih =>
    rw [run_cons, update_eq] at hrun
    obtain ⟨u, hu, hrest⟩ := Option.bind_eq_some_iff.mp hrun
    obtain ⟨c, -, rfl⟩ := Option.map_eq_some_iff.mp hu
    exact ih hrest

/-- **Every run on samples is defined**, each frame is drawn with the `pressed_buttons` of its
sample, and it moves no cursor but that of the list shown, by at most one. -/
theorem run_cursors (P : Platform) (inputs : List (BitVec 32 × Frame))
    (input : BitVec 32 × Frame) :
    ∃ s s' pressed_buttons, run (Gui.update P) (oldData, App.start) inputs = some s ∧
      Gui.update P s input = some s' ∧
      (pressedButtons oldData ((inputs ++ [input]).map Prod.fst))[inputs.length]? =
        some pressed_buttons ∧
      CursorsStep pressed_buttons s.2 s'.2 := by
  have hstep : ∀ s input, (∃ t, Follows s.2 t) →
      ∃ s', Gui.update P s input = some s' ∧ ∃ t, Follows s'.2 t := by
    intro s input hs
    obtain ⟨b, hb, hfollows⟩ := step_exists_follows P s.2
      { input.2 with pressedButtons := (updateInput s.1 input.1).1 } hs
    refine ⟨(input.1, b), ?_, hfollows⟩
    rw [update_eq, hb]
    rfl
  obtain ⟨s, hrun, hs⟩ := run_invariant hstep (s := (oldData, App.start)) ⟨_, start_follows⟩ inputs
  obtain ⟨s', hupdate, -⟩ := hstep s input hs
  refine ⟨s, s', (updateInput s.1 input.1).1, hrun, hupdate, ?_, ?_⟩
  · have hsample : ((inputs ++ [input]).map Prod.fst)[inputs.length]? = some input.1 := by simp
    have hbefore : (oldData :: (inputs ++ [input]).map Prod.fst)[inputs.length]? = some s.1 := by
      rw [List.map_append, ← List.cons_append, List.getElem?_append_left (by simp)]
      exact run_samples hrun
    rw [pressedButtons_getElem?, hsample, hbefore]
    rfl
  · obtain ⟨t, ht⟩ := hs
    rw [update_eq] at hupdate
    obtain ⟨b, hb, rfl⟩ := Option.map_eq_some_iff.mp hupdate
    exact step_cursorsStep ht hb

end Running

/-- **One action per press**: each button is triggered once for each complete press of it, in
the frame of its release, and one `Menu::draw` moves the cursor by at most one and runs at
most one action, whose button is triggered. -/
theorem one_action_per_press :
    (∀ (samples : List (BitVec 32)) (k : Fin 32), OneTriggerPerPress samples k) ∧
    (∀ (P : Platform) (f : Frame) (a b : App) (picture : Screen.Picture),
      draw P f a = some (b, picture) →
        ∃ shown ml cursor done, ActsOnce P f a b shown ml cursor done) ∧
    (∀ (P : Platform) (inputs : List (BitVec 32 × Frame)) (input : BitVec 32 × Frame),
      ∃ s s' pressed_buttons, run (Gui.update P) (oldData, App.start) inputs = some s ∧
        Gui.update P s input = some s' ∧
        (pressedButtons oldData ((inputs ++ [input]).map Prod.fst))[inputs.length]? =
          some pressed_buttons ∧
        CursorsStep pressed_buttons s.2 s'.2) := by
  refine ⟨oneTriggerPerPress, ?_, run_cursors⟩
  intro P f a b picture h
  exact draw_actsOnce h

end Analysis

end PsCast
