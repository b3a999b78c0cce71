import PsCast.Analysis.NavigationStep
import PsCast.Analysis.Paging

/-!
# What a frame highlights

`Menu::draw` reads the cursor once, then runs a function that may show another list, and then
draws the list shown with the cursor it read. So the highlighted row is the one that Accept
runs next exactly when the list shown at the end is empty or has its cursor, on an entry,
where the frame read it (`run_highlight_iff`).
-/

set_option autoImplicit false

namespace PsCast

open App Library Library.History

/-- Unless the shown list is empty, one row is highlighted, it is the entry under the cursor of
that list, and Accept alone in the next frame runs it. -/
def App.HighlightsAccepted (b : App) (picture : Screen.Picture) : Prop :=
  ∀ shown ml, b.menu.menuList = some shown → b.lists shown = some ml → ml.entries ≠ [] →
    ∃ row, picture.rows.filter Screen.Row.highlighted = [row] ∧ row.entry = ml.getIndex ∧
      row.label = (ml.atIndex ml.getIndex).label ∧
      ∀ f, Analysis.PressesAccept b f →
        b.chosen f = (ml.atIndex row.entry).callback.map MenuCallback.owner

/-- The list that the menu shows once it has run the function. -/
def App.destination (a : App) : Option MenuCallback → Option ListId
  | some (.owner (.goToList l)) => some l
  | some (.back l) => (a.toScreen.parentOf l).or a.menu.menuList
  | _ => a.menu.menuList

/-- The list shown after the frame is empty, or its cursor is on an entry and is the cursor
that the frame reads from the list shown before, as a 32-bit number. -/
def App.KeepsHighlight (a : App) (f : Frame) : Prop :=
  ∀ shown ml next ml', a.menu.menuList = some shown → a.lists shown = some ml →
    a.destination (a.chosen f) = some next → a.lists next = some ml' → ml'.entries ≠ [] →
    (if next = shown then cursorAfter f ml else ml'.index) = cursorAfter f ml % UInt32.size ∧
      cursorAfter f ml % UInt32.size < ml'.size

namespace Analysis

/-! ## The picture of a frame -/

/-- The rows of the picture are those of the list shown at the end, drawn with the cursor read
at the beginning. -/
theorem draw_rows {P : Platform} {a b : App} {f : Frame} {picture : Screen.Picture}
    {shown : ListId} {ml : MenuList} (hshown : a.menu.menuList = some shown)
    (hml : a.lists shown = some ml) (hdraw : draw P f (a.atFrame f) = some (b, picture)) :
    b.toScreen.drawList (cursorAfter f ml) = some picture.rows := by
  obtain ⟨index, hinput, -, hrows⟩ := draw_cases hdraw
  rw [handleInput_eq (a := a.atFrame f) hshown hml] at hinput
  obtain ⟨c, -, hc⟩ := Option.map_eq_some_iff.mp hinput
  obtain ⟨-, rfl⟩ := Prod.mk.inj hc
  exact hrows

/-- A frame that presses Accept runs the entry under the cursor. -/
theorem chosen_of_pressesAccept {b : App} {shown : ListId} {ml : MenuList} {f : Frame}
    (hshown : b.menu.menuList = some shown) (hml : b.lists shown = some ml)
    (hf : PressesAccept b f) :
    b.chosen f = (ml.atIndex ml.index).callback.map MenuCallback.owner := by
  obtain ⟨haccept, hdown, hup⟩ := hf
  have hcursor : cursorAfter f ml = ml.index := by simp [cursorAfter, hdown, hup]
  simp [App.chosen, hshown, hml, hcursor, selected, haccept]

/-- A list drawn with the cursor `index` highlights what Accept runs exactly when it is empty
or that is its own cursor, on an entry. -/
theorem highlightsAccepted_iff {b : App} {picture : Screen.Picture} {shown : ListId}
    {ml : MenuList} {index : ℕ} (hshown : b.menu.menuList = some shown)
    (hml : b.lists shown = some ml)
    (hrows : b.toScreen.drawList index = some picture.rows) :
    b.HighlightsAccepted picture ↔
      (ml.entries ≠ [] → ml.index = index % UInt32.size ∧ index % UInt32.size < ml.size) := by
  have hpaged : Screen.Paged ml (index % UInt32.size) picture.rows := by
    have hdraw := (drawList_eq hshown hml index).symm.trans hrows
    rw [← Option.some.inj hdraw]
    exact rows_paged ml _
  have hhighlight := hpaged.highlight
  constructor
  · intro h hentries
    obtain ⟨row, hrow, hentry, -, -⟩ := h shown ml hshown hml hentries
    rw [hrow] at hhighlight
    by_cases hin : index % UInt32.size < ml.size
    · rw [if_pos hin] at hhighlight
      have hcursor : row.entry = index % UInt32.size := by simpa using hhighlight
      exact ⟨hentry.symm.trans hcursor, hin⟩
    · rw [if_neg hin] at hhighlight
      cases hhighlight
  · intro h shown' ml' hshown' hml' hentries
    obtain rfl : shown = shown' := Option.some.inj (hshown.symm.trans hshown')
    obtain rfl : ml = ml' := Option.some.inj (hml.symm.trans hml')
    obtain ⟨hcursor, hin⟩ := h hentries
    rw [if_pos hin] at hhighlight
    obtain ⟨row, hrow, hentry⟩ := List.map_eq_singleton_iff.mp hhighlight
    have hmem : row ∈ picture.rows :=
      List.mem_of_mem_filter (by rw [hrow]; exact List.mem_singleton_self row)
    have hindex : row.entry = ml.index := hentry.trans hcursor.symm
    refine ⟨row, hrow, hindex, ?_, ?_⟩
    · rw [hpaged.labels row hmem, hindex]
      rfl
    · intro f hf
      rw [chosen_of_pressesAccept hshown hml hf, hindex]

/-! ## The list shown after a frame -/

section Stepping

variable {P : Platform} {a b : App} {t : Trail ListId} {f : Frame}

/-- Where Back does nothing the captured list has no parent. -/
theorem parentOf_of_idle (h : Follows a t) (hidle : t.next .back = t) :
    a.toScreen.parentOf t.captured = none := by
  rcases h.place.captured_cases h.isEpisodes with hcurrent | hnot
  · have hpath := congrArg Trail.path hidle
    rw [Trail.next_back_of_current hcurrent] at hpath
    have hlinks := h.links
    match hshape : t.path with
    | [] =>
      rw [hshape] at hcurrent
      cases hcurrent
    | [l] =>
      rw [hshape] at hcurrent hlinks
      obtain rfl : l = t.captured := Option.some.inj hcurrent
      exact hlinks.parent_head
    | l :: parent :: rest =>
      rw [hshape] at hpath
      exact absurd (congrArg List.length hpath) (by simp [Move.apply])
  · exact h.links.unlinked _ hnot

/-- The frame leads from the list `shown`, the object `ml`, to a list `next` that was there
before it: the frame keeps its entries, and of the cursors it moves that of `shown` only. -/
def LeadsTo (a b : App) (f : Frame) (shown : ListId) (ml : MenuList) (next : ListId) : Prop :=
  a.destination (a.chosen f) = some next ∧ b.menu.menuList = some next ∧
    ∃ ml' ml'', a.lists next = some ml' ∧ b.lists next = some ml'' ∧
      ml''.entries = ml'.entries ∧
      ml''.index = if next = shown then cursorAfter f ml else ml'.index

/-- Every outcome of a frame leads to one list. -/
theorem Outcome.leadsTo (h : Follows a t) {shown : ListId} {ml : MenuList}
    (hhead : t.path.head? = some shown) (hml : a.lists shown = some ml)
    (ho : Outcome P f t ((a.atFrame f).setCursor shown ml (cursorAfter f ml)) (a.chosen f) b) :
    ∃ next, LeadsTo a b f shown ml next := by
  have hshown : a.menu.menuList = some shown := h.shown.trans hhead
  have hmoved : ((a.atFrame f).setCursor shown ml (cursorAfter f ml)).lists shown =
      some { ml with index := cursorAfter f ml } := Function.update_self ..
  have hstays : a.destination (a.chosen f) = some shown → b.menu.menuList = some shown →
      b.lists shown = some { ml with index := cursorAfter f ml } →
      ∃ next, LeadsTo a b f shown ml next := by
    intro hdestination hmenu hlists
    exact ⟨shown, hdestination, hmenu, ml, _, hml, hlists, rfl, (if_pos rfl).symm⟩
  have hquiet : a.destination (a.chosen f) = some shown →
      Quiet ((a.atFrame f).setCursor shown ml (cursorAfter f ml)) b →
      ∃ next, LeadsTo a b f shown ml next := by
    rintro hdestination ⟨hlists, -, -, m, hmenu⟩
    apply hstays hdestination
    · rw [hmenu]
      exact hshown
    · rw [hlists, hmoved]
  unfold LeadsTo at hstays hquiet ⊢
  generalize a.chosen f = c at ho hstays hquiet ⊢
  cases ho with
  | nothing => exact hstays hshown hshown hmoved
  | appended _ hb => exact hquiet hshown hb
  | unread _ hb hlines => exact hquiet hshown hb
  | entered l ml' hml' hl hplace =>
    have hother : l ≠ shown := by
      rintro rfl
      exact hl (List.mem_of_mem_head? hhead)
    have hbefore : a.lists l = some ml' := (Function.update_of_ne hother ..).symm.trans hml'
    exact ⟨l, rfl, rfl, ml', _, hbefore, Function.update_self .., rfl,
      (if_neg hother).symm⟩
  | updated m pl hpl hpath hlines =>
    have hmain : shown = .mainMenuList := by
      rw [hpath] at hhead
      exact (Option.some.inj hhead).symm
    have hfollows := setCursor_follows (f := f) h hml (cursorAfter f ml)
    apply hstays hshown hshown
    exact (rebuilt_lists_fixed (read_follows hfollows f _ m).toFurnished _ pl (.inl hmain)).trans
      hmoved
  | left parent rest ml' hml' hpath =>
    have hcaptured : t.captured = shown := by
      rw [hpath] at hhead
      exact Option.some.inj hhead
    have hlinks := h.links
    rw [hpath] at hlinks
    have hother : parent ≠ shown := by
      rintro rfl
      exact (List.nodup_cons.mp hlinks.nodup).1 (by simp [hcaptured])
    have hparent : a.toScreen.parentOf t.captured = some parent := hlinks.parent_head
    obtain ⟨mlp, hmlp⟩ := (h.toFurnished.exists_iff_known parent).mpr
      (h.place.known.1 parent (by rw [hpath]; simp))
    refine ⟨parent, ?_, rfl, mlp, mlp, hmlp, ?_, rfl, (if_neg hother).symm⟩
    · rw [App.destination, hparent]
      rfl
    · show Function.update (Function.update a.lists shown _) t.captured _ parent = some mlp
      rw [hcaptured, Function.update_of_ne hother, Function.update_of_ne hother, hmlp]
  | idle hidle =>
    apply hstays _ hshown hmoved
    rw [App.destination, parentOf_of_idle h hidle]
    exact hshown

/-- Whether a frame highlights what Accept runs next is decided before its function runs. -/
theorem draw_highlights_iff (h : Follows a t) {picture : Screen.Picture}
    (hdraw : draw P f (a.atFrame f) = some (b, picture)) :
    b.HighlightsAccepted picture ↔ a.KeepsHighlight f := by
  have hstep : step P a f = some b := congrArg (Option.map Prod.fst) hdraw
  obtain ⟨shown, ml, hhead, hml, houtcome⟩ := outcome_of_step h hstep
  have hshown : a.menu.menuList = some shown := h.shown.trans hhead
  obtain ⟨next, hdestination, hmenu, ml', ml'', hml', hml'', hentries, hindex⟩ :=
    houtcome.leadsTo h hhead hml
  have hrows := draw_rows hshown hml hdraw
  rw [highlightsAccepted_iff hmenu hml'' hrows, hindex, MenuList.size, hentries]
  constructor
  · intro hkeeps shown' mls next' mln hs hmls hn hmln hsome
    obtain rfl : shown = shown' := Option.some.inj (hshown.symm.trans hs)
    obtain rfl : ml = mls := Option.some.inj (hml.symm.trans hmls)
    obtain rfl : next = next' := Option.some.inj (hdestination.symm.trans hn)
    obtain rfl : ml' = mln := Option.some.inj (hml'.symm.trans hmln)
    exact hkeeps hsome
  · intro hkeeps hsome
    exact hkeeps shown ml next ml' hshown hml hdestination hml' hsome

end Stepping

/-- **The highlight**: from every reachable state every frame is drawn, and it highlights the
entry that Accept runs next exactly if the list that it leads to has its cursor where the
frame read one. -/
theorem run_highlight_iff (P : Platform) (fs : List Frame) (f : Frame) :
    ∃ a b picture, run (step P) App.start fs = some a ∧
      draw P f (a.atFrame f) = some (b, picture) ∧
      (b.HighlightsAccepted picture ↔ a.KeepsHighlight f) := by
  obtain ⟨a, hrun, t, ht⟩ := run_follows P fs
  obtain ⟨b, hstep, -⟩ := step_follows (P := P) ht f
  obtain ⟨⟨b', picture⟩, hdraw, -⟩ := Option.map_eq_some_iff.mp hstep
  exact ⟨a, b', picture, hrun, hdraw, draw_highlights_iff ht hdraw⟩

/-- The cursor of the main menu is on "options" when Accept enters that list of one entry. -/
def enteringRun : List Frame := List.replicate 3 (press sceCtrlDown)

/-- The frame that enters the list highlights no row of it. -/
theorem not_run_highlight : ¬ (∀ (P : Platform) (fs : List Frame) (f : Frame) (a b : App)
    (picture : Screen.Picture), run (step P) App.start fs = some a →
      draw P f (a.atFrame f) = some (b, picture) → b.HighlightsAccepted picture) := by
  intro h
  have hdrawn : (run (step lenient) App.start enteringRun).bind (fun a =>
      (draw lenient (press sceCtrlCircle) (a.atFrame (press sceCtrlCircle))).map fun result =>
        (result.1.menu.menuList, result.1.lists .optionsList,
          result.2.rows.filter Screen.Row.highlighted)) =
      some (some .optionsList,
        some { optionsListInit with parent := some .mainMenuList }, []) := by decide
  obtain ⟨a, hrun, hresult⟩ := Option.bind_eq_some_iff.mp hdrawn
  obtain ⟨⟨b, picture⟩, hdraw, hparts⟩ := Option.map_eq_some_iff.mp hresult
  obtain ⟨hmenu, hparts⟩ := Prod.mk.inj hparts
  obtain ⟨hlist, hnone⟩ := Prod.mk.inj hparts
  obtain ⟨row, hrow, -⟩ := h lenient enteringRun (press sceCtrlCircle) a b picture hrun hdraw
    .optionsList _ hmenu hlist (by decide)
  rw [hnone] at hrow
  cases hrow

end Analysis

end PsCast
