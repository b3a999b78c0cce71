import PsCast.Analysis.NavigationStep

/-!
# The cursor stays in its list

Each list keeps its own cursor, also while another list is shown. Of the operations on a
list only `clear` and `erase` can leave the cursor outside it, and the program clears one
list, `podcast_list`, when an update refills it. So the cursors of a run are in their lists
exactly when no update refills `podcast_list` with too few podcasts for its cursor
(`run_cursorsOk_iff`).
-/

set_option autoImplicit false

namespace PsCast

open App Library Library.History

/-- The cursor is on an entry, or at zero in an empty list. -/
def MenuList.CursorOk (ml : MenuList) : Prop := ml.index < ml.size ∨ (ml.size = 0 ∧ ml.index = 0)

/-- The cursor of every list that exists is in its list, so that what Accept runs in a list
with entries is one of them. -/
structure App.CursorsOk (a : App) : Prop where
  bounded : ∀ l ml, a.lists l = some ml → ml.CursorOk
  accepted : ∀ shown ml f, a.menu.menuList = some shown → a.lists shown = some ml →
    ml.entries ≠ [] → cursorAfter f ml < ml.size ∧ ml.atIndex (cursorAfter f ml) ∈ ml.entries

/-- If the frame runs an update that read a line, the cursor of `podcast_list` is at zero or
on one of the podcasts that the update keeps. -/
def App.KeepsCursor (P : Platform) (a : App) (f : Frame) : Prop :=
  a.chosen f = some (.owner .updateFromFeedFile) → feedLines f.fdRead (a.atFrame f) ≠ [] →
    ∀ pl, a.lists .podcastList = some pl →
      pl.index = 0 ∨
        pl.index < (keptFeeds P (outcomes f.net 0 (feedLines f.fdRead (a.atFrame f)))).length

/-! ## The operations on one list -/

namespace MenuList

variable {ml : MenuList}

/-- Appending an entry keeps the bound. -/
theorem CursorOk.append (h : ml.CursorOk) (entry : MenuEntry) : (ml.append entry).CursorOk := by
  unfold CursorOk MenuList.append size at *
  rw [List.length_append]
  simp only [List.length_singleton]
  omega

/-- Moving the cursor down keeps the bound. -/
theorem CursorOk.increaseIndex (h : ml.CursorOk) : ml.increaseIndex.CursorOk := by
  unfold MenuList.increaseIndex
  split
  · rename_i hnext
    exact .inl hnext
  · exact h

/-- Moving the cursor up keeps the bound. -/
theorem CursorOk.decreseIndex (h : ml.CursorOk) : ml.decreseIndex.CursorOk := by
  unfold MenuList.decreseIndex
  split
  · unfold CursorOk size at *
    simp only
    omega
  · exact h

/-- A copy starts at its first entry. -/
theorem copy_cursorOk (ml : MenuList) : ml.copy.CursorOk := by
  rcases Nat.eq_zero_or_pos ml.copy.size with hempty | hpos
  · exact .inr ⟨hempty, rfl⟩
  · exact .inl hpos

/-- New entries keep the bound exactly if the cursor is on one of them, or at zero. -/
theorem refill_cursorOk_iff (ml : MenuList) (entries : List MenuEntry) :
    MenuList.CursorOk { ml with entries := entries } ↔
      ml.index = 0 ∨ ml.index < entries.length := by
  unfold CursorOk size
  simp only
  omega

/-- Clearing keeps the bound exactly if the cursor is at zero. -/
theorem clear_cursorOk_iff (ml : MenuList) : ml.clear.CursorOk ↔ ml.index = 0 := by
  have hrefill := ml.refill_cursorOk_iff []
  rwa [List.length_nil, or_iff_left (Nat.not_lt_zero _)] at hrefill

/-- Erasing an entry loses the cursor of the last one. -/
theorem erase_cursorOk_iff {index : ℕ} (hindex : index < ml.size) :
    (ml.erase index).CursorOk ↔ ml.index = 0 ∨ ml.index + 1 < ml.size := by
  have hlength : (ml.entries.eraseIdx index).length = ml.size - 1 :=
    List.length_eraseIdx_of_lt hindex
  have herase : ml.erase index = { ml with entries := ml.entries.eraseIdx index } := if_pos hindex
  rw [herase, refill_cursorOk_iff, hlength]
  omega

end MenuList

namespace Analysis

/-- A frame moves the cursor of the shown list within the bound. -/
theorem cursorAfter_cursorOk {ml : MenuList} (h : ml.CursorOk) (f : Frame) :
    MenuList.CursorOk { ml with index := cursorAfter f ml } := by
  unfold cursorAfter
  split
  · rw [← increaseIndex_eq]
    exact h.increaseIndex
  · split
    · rw [← decreseIndex_eq]
      exact h.decreseIndex
    · exact h

/-- All is well with the cursors exactly if every list keeps the bound. -/
theorem cursorsOk_iff (a : App) : a.CursorsOk ↔ ∀ l ml, a.lists l = some ml → ml.CursorOk := by
  refine ⟨CursorsOk.bounded, fun h => ⟨h, ?_⟩⟩
  intro shown ml f _ hml hentries
  have hindex : cursorAfter f ml < ml.size := by
    rcases cursorAfter_cursorOk (h shown ml hml) f with hlt | ⟨hempty, -⟩
    · exact hlt
    · exact absurd (List.eq_nil_of_length_eq_zero hempty) hentries
  refine ⟨hindex, ?_⟩
  have hlt : cursorAfter f ml < ml.entries.length := hindex
  rw [MenuList.atIndex, dif_pos hlt]
  exact List.getElem_mem hlt

/-- Writing a list that keeps the bound keeps it everywhere. -/
theorem bounded_update {lists : Lists} (h : ∀ l ml, lists l = some ml → ml.CursorOk) (l : ListId)
    {ml : MenuList} (hml : ml.CursorOk) (l' : ListId) (ml' : MenuList)
    (hml' : Function.update lists l (some ml) l' = some ml') : ml'.CursorOk := by
  by_cases hl : l' = l
  · rw [hl, Function.update_self, Option.some.injEq] at hml'
    exact hml' ▸ hml
  · rw [Function.update_of_ne hl] at hml'
    exact h l' ml' hml'

/-- After an update, all that matters is the cursor of `podcast_list`. -/
theorem rebuilt_bounded_iff {a : App} (h : Furnished a)
    (hbounded : ∀ l ml, a.lists l = some ml → ml.CursorOk) (ps : List Podcast) (pl : MenuList) :
    (∀ l ml, (rebuilt a ps pl).lists l = some ml → ml.CursorOk) ↔
      pl.index = 0 ∨ pl.index < ps.length := by
  have hlength : (newEntries a.allocated ps).length = ps.length := by simp [newEntries]
  have hrefill := pl.refill_cursorOk_iff (newEntries a.allocated ps)
  rw [hlength] at hrefill
  rw [← hrefill]
  constructor
  · exact fun hnew => hnew .podcastList _ rfl
  · intro hpl l ml hml
    cases l with
    | podcastList =>
      obtain rfl : { pl with entries := newEntries a.allocated ps } = ml := Option.some.inj hml
      exact hpl
    | episodes n =>
      rw [rebuilt_lists_episodes h, newLists] at hml
      split at hml
      · obtain ⟨p, -, rfl⟩ := Option.map_eq_some_iff.mp hml
        exact (episodesOf p).copy_cursorOk
      · cases hml
    | mainMenuList =>
      rw [rebuilt_lists_fixed h ps pl (.inl rfl)] at hml
      exact hbounded _ ml hml
    | optionsList =>
      rw [rebuilt_lists_fixed h ps pl (.inr rfl)] at hml
      exact hbounded _ ml hml

/-- A frame keeps the bound exactly if it meets the condition. -/
theorem step_cursorsOk_iff {P : Platform} {a b : App} {t : Trail ListId} (h : Follows a t)
    {f : Frame} (hcursors : a.CursorsOk) (hstep : step P a f = some b) :
    b.CursorsOk ↔ a.KeepsCursor P f := by
  obtain ⟨shown, ml, hhead, hml, houtcome⟩ := outcome_of_step h hstep
  have hmoved : ∀ l ml', ((a.atFrame f).setCursor shown ml (cursorAfter f ml)).lists l = some ml' →
      ml'.CursorOk :=
    bounded_update hcursors.bounded shown (cursorAfter_cursorOk (hcursors.bounded shown ml hml) f)
  have hfollows : Follows ((a.atFrame f).setCursor shown ml (cursorAfter f ml)) t :=
    setCursor_follows h hml _
  have hlists : ListId.podcastList ≠ shown →
      ((a.atFrame f).setCursor shown ml (cursorAfter f ml)).lists .podcastList =
        a.lists .podcastList :=
    fun hne => Function.update_of_ne hne ..
  have hread : feedLines f.fdRead (a.atFrame f) =
      feedLines f.fdRead ((a.atFrame f).setCursor shown ml (cursorAfter f ml)) := rfl
  rw [cursorsOk_iff]
  unfold KeepsCursor
  rw [hread]
  have hother : ∀ {p : Prop} (c : Option MenuCallback), c ≠ some (.owner .updateFromFeedFile) →
      (c = some (.owner .updateFromFeedFile) → p) := fun c hc heq => absurd heq hc
  generalize a.chosen f = c at houtcome ⊢
  generalize (a.atFrame f).setCursor shown ml (cursorAfter f ml) = moved
    at hmoved hfollows hlists houtcome ⊢
  cases houtcome with
  | nothing => exact iff_of_true hmoved (hother _ (by simp))
  | entered l ml' hml' hl hplace =>
    exact iff_of_true (bounded_update hmoved l (hmoved l ml' hml')) (hother _ (by simp))
  | appended _ hb =>
    refine iff_of_true ?_ (hother _ (by simp))
    rw [hb.1]
    exact hmoved
  | unread _ hb hlines =>
    refine iff_of_true ?_ fun _ hread => absurd hlines hread
    rw [hb.1]
    exact hmoved
  | updated m pl hpl hpath hlines =>
    -- the frame moved the cursor of the main menu, not that of `podcast_list`
    have hshown : ListId.podcastList ≠ shown := by
      rw [hpath] at hhead
      obtain rfl := Option.some.inj hhead
      simp
    have hkept : (updatePodcasts P f moved).length =
        (keptFeeds P (outcomes f.net 0 (feedLines f.fdRead moved))).length := List.length_map _
    have hupdate := read_follows hfollows f (updatePodcasts P f moved) m
    have hiff := rebuilt_bounded_iff hupdate.toFurnished hmoved (updatePodcasts P f moved) pl
    rw [hkept] at hiff
    rw [← hlists hshown, hpl]
    simp only [hlines, ne_eq, not_false_eq_true, Option.some.injEq, forall_const, forall_eq']
    exact hiff
  | left parent rest ml' hml' hpath =>
    exact iff_of_true (bounded_update hmoved _ (hmoved _ ml' hml')) (hother _ (by simp))
  | idle hidle => exact iff_of_true hmoved (hother _ (by simp))

/-- The lists of the first state are at their first entries. -/
theorem start_cursorsOk : App.start.CursorsOk := by
  rw [cursorsOk_iff]
  intro l ml hml
  cases l with
  | podcastList => exact .inr (by cases hml; exact ⟨rfl, rfl⟩)
  | mainMenuList => exact .inl (by cases hml; decide)
  | optionsList => exact .inl (by cases hml; decide)
  | episodes n => cases hml

/-- **The cursors of a run** are in their lists in every state exactly if every update of the
run keeps the cursor of `podcast_list`. -/
theorem run_cursorsOk_iff (P : Platform) (fs : List Frame) :
    EveryState (step P) CursorsOk App.start fs ↔
      EachStep (step P) (KeepsCursor P) App.start fs := by
  refine everyState_iff_eachStep (step_exists_follows P) ?_ ⟨_, start_follows⟩ start_cursorsOk fs
  rintro a f b ⟨t, ht⟩ hcursors hstep
  exact step_cursorsOk_iff ht hcursors hstep

/-- Three podcasts, the cursor on the third of them, then an update that keeps one. -/
def shrinkingRun : List Frame :=
  [press sceCtrlDown, press sceCtrlDown, acceptOver (lit "a\nb\nc\n"),
    press sceCtrlUp, press sceCtrlUp, press sceCtrlCircle,
    press sceCtrlDown, press sceCtrlDown, press sceCtrlCross,
    press sceCtrlDown, press sceCtrlDown, acceptOver (lit "a\n")]

/-- After that run the cursor of `podcast_list` is two entries behind its only one. -/
theorem not_run_cursorsOk :
    ¬ (∀ (P : Platform) (fs : List Frame), EveryState (step P) CursorsOk App.start fs) := by
  intro h
  have hcursor : (run (step lenient) App.start shrinkingRun).bind
      (fun a => (a.lists .podcastList).map fun pl => (pl.index, pl.size)) = some (2, 1) := by decide
  obtain ⟨a, hrun, hlist⟩ := Option.bind_eq_some_iff.mp hcursor
  obtain ⟨pl, hpl, hindex⟩ := Option.map_eq_some_iff.mp hlist
  obtain ⟨hindex, hsize⟩ := Prod.mk.inj hindex
  have hend := h lenient shrinkingRun shrinkingRun [] (List.append_nil _).symm a hrun
  rcases hend.bounded _ pl hpl with hlt | ⟨hempty, -⟩
  · omega
  · omega

end Analysis

end PsCast
