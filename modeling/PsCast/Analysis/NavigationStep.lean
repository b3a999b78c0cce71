import PsCast.Analysis.Navigation

/-!
# One frame moves the trail

`Outcome` lists what one frame can do once the cursor has moved, and with `step_outcome`
every later invariant is a case analysis over it. Every frame is defined and moves the trail
by the machine of `Library.History.Trail` (`step_follows`), so every run does
(`run_follows`).
-/

set_option autoImplicit false

namespace PsCast.Analysis

open App Library Library.History

/-! ## What one frame can do -/

/-- Nothing that the menu acts on has changed. -/
def Quiet (a b : App) : Prop :=
  b.lists = a.lists ∧ b.podcastEpisodesLists = a.podcastEpisodesLists ∧ b.allocated = a.allocated ∧
    ∃ m, b.menu = { a.menu with statusMsg := m }

/-- The podcasts that an update stores in this frame. -/
def updatePodcasts (P : Platform) (f : Frame) (a : App) : List Podcast :=
  storedPodcasts (keptFeeds P (outcomes f.net 0 (feedLines f.fdRead a)))

/-- **What one frame can do** once the cursor has moved: the state that each function the
menu can run leaves, where `a` holds the trail `t`. -/
inductive Outcome (P : Platform) (f : Frame) (t : Trail ListId) (a : App) :
    Option MenuCallback → App → Prop
  | nothing : Outcome P f t a none a
  | entered (l : ListId) (ml : MenuList) (hml : a.lists l = some ml) (hl : l ∉ t.path)
      (hplace : Place a.podcastEpisodesLists (t.next (.enter l))) :
      Outcome P f t a (some (.owner (.goToList l))) (a.withScreen (a.toScreen.entered l ml))
  | appended (b : App) (hb : Quiet a b) : Outcome P f t a (some (.owner .appendUrlToFeed)) b
  | unread (b : App) (hb : Quiet a b) (hlines : feedLines f.fdRead a = []) :
      Outcome P f t a (some (.owner .updateFromFeedFile)) b
  | updated (m : Bytes) (pl : MenuList) (hpl : a.lists .podcastList = some pl)
      (hpath : t.path = [.mainMenuList]) (hlines : feedLines f.fdRead a ≠ []) :
      Outcome P f t a (some (.owner .updateFromFeedFile))
        (rebuilt ((withPodcasts (withFeedFile f.fdRead a) (updatePodcasts P f a)).withStatus m)
          (updatePodcasts P f a) pl)
  | left (parent : ListId) (rest : List ListId) (ml : MenuList) (hml : a.lists t.captured = some ml)
      (hpath : t.path = t.captured :: parent :: rest) :
      Outcome P f t a (some (.back t.captured))
        (a.withScreen (a.toScreen.left t.captured parent ml))
  | idle (hidle : t.next .back = t) : Outcome P f t a (some (.back t.captured)) a

/-- The functions that the menu can run: the back callback and those of the shown entries. -/
theorem selected_cases {a : App} {t : Trail ListId} (h : Follows a t) (f : Frame) (ml : MenuList)
    (index : ℕ) :
    selected f a.menu ml index = none ∨ selected f a.menu ml index = some (.back t.captured) ∨
      ∃ e ∈ ml.entries, ∃ callback, e.callback = some callback ∧
        selected f a.menu ml index = some (.owner callback) := by
  unfold selected
  rw [h.captured, h.optionsButton, h.selectButton]
  by_cases haccept : triggered f.pressedButtons a.menu.acceptButton
  · simp only [haccept, if_true]
    unfold MenuList.atIndex
    by_cases hindex : index < ml.entries.length
    · cases hcallback : ml.entries[index].callback with
      | none => simp [hindex, hcallback]
      | some callback =>
        refine .inr (.inr ⟨ml.entries[index], List.getElem_mem hindex, callback, hcallback, ?_⟩)
        simp [hindex, hcallback]
    · simp [hindex]
  · simp only [haccept, Bool.false_eq_true, if_false]
    split
    · exact .inr (.inl rfl)
    · left
      split
      · rfl
      · split <;> rfl

/-! ## The functions that the menu runs -/

section Running

variable {P : Platform} {f : Frame} {a : App} {t : Trail ListId}

/-- The callback of an entry enters its list. -/
theorem run_goToList {l : ListId} (h : Follows a t) (hl : l ∉ t.path)
    (hplace : Place a.podcastEpisodesLists (t.next (.enter l))) :
    ∃ b, runCallback P f a (.goToList l) = some b ∧
      Outcome P f t a (some (.owner (.goToList l))) b := by
  have hknown : Known a.podcastEpisodesLists l := hplace.known.2
  obtain ⟨ml, hml⟩ := (h.toFurnished.exists_iff_known l).mpr hknown
  refine ⟨_, ?_, .entered l ml hml hl hplace⟩
  simp only [runCallback, goToList_eq hml, Option.bind_eq_bind, Option.bind_some]
  rfl

/-- The callback of the second entry of the main menu. -/
theorem run_appendUrlToFeed (h : Follows a t) :
    ∃ b, runCallback P f a .appendUrlToFeed = some b ∧
      Outcome P f t a (some (.owner .appendUrlToFeed)) b := by
  obtain ⟨m, hresult⟩ := appendUrlToFeed_eq h.screen_shown f.fdRead f.fdAppend
    (requestInputFromImeDialog P f.ime)
  refine ⟨_, hresult, .appended _ ?_⟩
  split <;> exact ⟨rfl, rfl, rfl, m, rfl⟩

/-- The callback of the third entry, which runs in the main menu only. -/
theorem run_updateFromFeedFile (h : Follows a t) (hpath : t.path = [.mainMenuList]) :
    ∃ b, runCallback P f a .updateFromFeedFile = some b ∧
      Outcome P f t a (some (.owner .updateFromFeedFile)) b := by
  by_cases hlines : feedLines f.fdRead a = []
  · refine ⟨withFeedFile f.fdRead a, ?_, .unread _ ⟨rfl, rfl, rfl, a.menu.statusMsg, rfl⟩ hlines⟩
    simp only [runCallback, updateFromFeedFile_nil P f.fdRead f.net a hlines, Option.bind_eq_bind,
      Option.bind_some, Option.pure_def]
  · obtain ⟨pl, hpl⟩ := h.toFurnished.owned.podcastList
    obtain ⟨m, ps, hps, hresult⟩ := updateFromFeedFile_eq P f.fdRead f.net a h.screen_shown
      h.toFurnished.owned pl hpl hlines
    subst hps
    refine ⟨_, ?_, .updated m pl hpl hpath hlines⟩
    simp only [runCallback, hresult, Option.bind_eq_bind, Option.bind_some, Option.pure_def]
    rfl

/-- Whatever entry of the shown list runs, the outcome is one of these. -/
theorem run_entry (h : Follows a t) {shown : ListId} {ml : MenuList} {e : MenuEntry}
    {callback : Callback} (hhead : t.path.head? = some shown) (hml : a.lists shown = some ml)
    (he : e ∈ ml.entries) (hcallback : e.callback = some callback) :
    ∃ b, runCallback P f a callback = some b ∧ Outcome P f t a (some (.owner callback)) b := by
  rcases h.toFurnished.callback_cases hml he hcallback with ⟨rfl, hmain⟩ | ⟨rfl, l, hl, rfl⟩
  · simp only [List.mem_cons, List.not_mem_nil, or_false] at hmain
    rcases hmain with rfl | rfl | rfl | rfl
    · obtain ⟨-, hl, hplace⟩ := h.place.enter_of_main hhead (.inl rfl) h.isEpisodes
      exact run_goToList h hl hplace
    · exact run_appendUrlToFeed h
    · exact run_updateFromFeedFile h (h.place.path_of_main hhead h.isEpisodes)
    · obtain ⟨-, hl, hplace⟩ := h.place.enter_of_main hhead (.inr rfl) h.isEpisodes
      exact run_goToList h hl hplace
  · obtain ⟨hnot, hplace⟩ := h.place.enter_of_podcasts hhead hl h.isEpisodes
    exact run_goToList h hnot hplace

/-- The back callback leaves the captured list, or does nothing. -/
theorem run_back (h : Follows a t) :
    ∃ b, runMenuCallback P f a (.back t.captured) = some b ∧
      Outcome P f t a (some (.back t.captured)) b := by
  obtain ⟨ml, hml⟩ := h.exists_captured
  have hlink : a.toScreen.parentOf t.captured = ml.parent := by simp [Screen.parentOf, hml]
  have hidle : ml.parent = none → t.next .back = t →
      ∃ b, runMenuCallback P f a (.back t.captured) = some b ∧
        Outcome P f t a (some (.back t.captured)) b := by
    intro hparent hnext
    refine ⟨a, ?_, .idle hnext⟩
    simp only [runMenuCallback, backLambda_idle hml hparent, Option.bind_eq_bind, Option.bind_some,
      Option.pure_def]
  rcases h.place.captured_cases h.isEpisodes with hcurrent | hnot
  · obtain ⟨rest, hpath⟩ : ∃ rest, t.path = t.captured :: rest := by
      obtain ⟨rest, hrest⟩ := List.head?_eq_some_iff.mp hcurrent
      exact ⟨rest, hrest⟩
    have hparent : ml.parent = rest.head? := by
      have hlinks := h.links
      rw [hpath] at hlinks
      rw [← hlink, hlinks.parent_head]
    cases rest with
    -- the captured list is the main menu itself, which has no parent
    | nil =>
      refine hidle hparent ?_
      have hstay : Move.back.apply t.path = t.path := by rw [hpath]; rfl
      rw [Trail.next_back_of_current hcurrent, hstay]
    | cons parent rest =>
      refine ⟨_, ?_, .left parent rest ml hml hpath⟩
      simp only [runMenuCallback, backLambda_eq hml hparent, Option.bind_eq_bind, Option.bind_some]
      rfl
  -- the captured list was left already, and leaving it emptied its link
  · refine hidle ?_ (Trail.next_back_of_other fun hhead => hnot (List.mem_of_mem_head? hhead))
    rw [← hlink]
    exact h.links.unlinked _ hnot

end Running

/-! ## The trail moves with the menu -/

section Moving

variable {P : Platform} {f : Frame} {a b : App} {t : Trail ListId}

/-- Moving the cursor of a list changes neither links nor entries. -/
theorem setCursor_follows (h : Follows a t) {l : ListId} {ml : MenuList} (hml : a.lists l = some ml)
    (index : ℕ) : Follows ((a.atFrame f).setCursor l ml index) t where
  toFurnished := h.toFurnished.congr (entriesOf_update a.menu hml rfl) rfl rfl
  place := h.place
  links := by
    rw [setCursor_parentOf (a := a.atFrame f) hml]
    exact h.links
  shown := h.shown
  current := h.current
  captured := h.captured
  optionsButton := h.optionsButton
  selectButton := h.selectButton
  accept := h.accept
  back := h.back

/-- A state with the same lists and menu holds the same trail. -/
theorem quiet_follows (h : Follows a t) (hb : Quiet a b) : Follows b t := by
  obtain ⟨hlists, hepisodes, halloc, m, hmenu⟩ := hb
  have hparents : b.toScreen.parentOf = a.toScreen.parentOf := by
    funext l
    rw [Screen.parentOf, hlists]
    rfl
  have hentries : b.toScreen.entriesOf = a.toScreen.entriesOf := by
    funext l
    rw [Screen.entriesOf, hlists]
    rfl
  exact {
    toFurnished := h.toFurnished.congr hentries hepisodes halloc
    place := by rw [hepisodes]; exact h.place
    links := by rw [hparents]; exact h.links
    shown := by rw [hmenu]; exact h.shown
    current := by rw [hmenu]; exact h.current
    captured := by rw [hmenu]; exact h.captured
    optionsButton := by rw [hmenu]; exact h.optionsButton
    selectButton := by rw [hmenu]; exact h.selectButton
    accept := by rw [hmenu]; exact h.accept
    back := by rw [hmenu]; exact h.back }

/-- An update has replaced the feed lines and the podcasts before it rebuilds the lists. -/
theorem read_follows (h : Follows a t) (f : Frame) (ps : List Podcast) (m : Bytes) :
    Follows ((withPodcasts (withFeedFile f.fdRead a) ps).withStatus m) t :=
  quiet_follows h ⟨rfl, rfl, rfl, m, rfl⟩

/-- Entering a list keeps the invariant, with the list at the head of the path. -/
theorem entered_follows (h : Follows a t) {l : ListId} {ml : MenuList} (hml : a.lists l = some ml)
    (hl : l ∉ t.path) (hplace : Place a.podcastEpisodesLists (t.next (.enter l))) :
    Follows (a.withScreen (a.toScreen.entered l ml)) (t.next (.enter l)) where
  toFurnished := h.toFurnished.congr (entriesOf_update _ hml rfl) rfl rfl
  place := hplace
  links := by
    have hparent : ml.parent = none := by
      have hunlinked := h.links.unlinked l hl
      simpa [Screen.parentOf, hml] using hunlinked
    show Represents (a.toScreen.entered l ml).parentOf (l :: t.path)
    rw [entered_parentOf _ l hparent, h.current]
    exact h.links.enter hl
  shown := rfl
  current := rfl
  captured := rfl
  optionsButton := h.optionsButton
  selectButton := h.selectButton
  accept := h.accept
  back := h.back

/-- Leaving a list keeps it, with the parent at the head of the path. -/
theorem left_follows (h : Follows a t) {parent : ListId} {rest : List ListId} {ml : MenuList}
    (hml : a.lists t.captured = some ml) (hpath : t.path = t.captured :: parent :: rest) :
    Follows (a.withScreen (a.toScreen.left t.captured parent ml)) (t.next .back) := by
  have hnext : t.next .back = { t with path := parent :: rest } := by
    have hcurrent : t.path.head? = some t.captured := by rw [hpath]; rfl
    rw [Trail.next_back_of_current hcurrent, hpath]
    rfl
  have hplace := h.place.back h.isEpisodes
  rw [hnext] at hplace ⊢
  exact {
    toFurnished := h.toFurnished.congr (entriesOf_update _ hml rfl) rfl rfl
    place := hplace
    links := by
      have hlinks := h.links
      rw [hpath] at hlinks
      show Represents (a.toScreen.left t.captured parent ml).parentOf (parent :: rest)
      rw [left_parentOf]
      exact hlinks.back
    shown := rfl
    current := rfl
    captured := h.captured
    optionsButton := h.optionsButton
    selectButton := h.selectButton
    accept := h.accept
    back := h.back }

/-- An update allocates no list twice. -/
theorem newIds_nodup (k n : ℕ) : (newIds k n).Nodup :=
  (List.nodup_range' ..).map fun _ _ heq => ListId.episodes.inj heq

/-- An update leaves the two fixed lists alone. -/
theorem rebuilt_lists_fixed (h : Furnished a) (ps : List Podcast) (pl : MenuList) {l : ListId}
    (hl : l = .mainMenuList ∨ l = .optionsList) : (rebuilt a ps pl).lists l = a.lists l := by
  have hnot : l ∉ a.podcastEpisodesLists := by
    intro hmem
    obtain ⟨n, -, rfl⟩ := h.allocated l hmem
    rcases hl with heq | heq <;> cases heq
  rcases hl with rfl | rfl <;> simp [rebuilt, newLists, hnot]

/-- The lists of episodes after an update are those that it allocated. -/
theorem rebuilt_lists_episodes (h : Furnished a) (ps : List Podcast) (pl : MenuList) (n : ℕ) :
    (rebuilt a ps pl).lists (.episodes n) = newLists a.allocated ps (.episodes n) := by
  have hold :
      (if .episodes n ∈ a.podcastEpisodesLists then none else a.lists (.episodes n)) = none := by
    split
    · rfl
    · rename_i hnot
      cases hml : a.lists (.episodes n) with
      | none => rfl
      | some ml => exact absurd (h.live n ml.entries (by simp [Screen.entriesOf, hml])) hnot
  simp [rebuilt, hold]

/-- After an update the lists are furnished again. -/
theorem rebuilt_furnished (h : Furnished a) (ps : List Podcast) (pl : MenuList) :
    Furnished (rebuilt a ps pl) where
  main := by
    rw [Screen.entriesOf, rebuilt_lists_fixed h ps pl (.inl rfl)]
    exact h.main
  options := by
    rw [Screen.entriesOf, rebuilt_lists_fixed h ps pl (.inr rfl)]
    exact h.options
  podcasts := ⟨newEntries a.allocated ps, rfl, newEntries_callbacks a.allocated ps⟩
  episodes l hl := by
    obtain ⟨i, hi, rfl⟩ := mem_newIds.mp hl
    refine ⟨(episodesOf ps[i]).copy.entries, ?_, ?_⟩
    · simp [Screen.entriesOf, rebuilt_lists_episodes h, newLists_episodes, hi]
    · intro e he
      rw [episodesOf_eq] at he
      obtain ⟨episode, -, rfl⟩ := List.mem_map.mp he
      rfl
  live n es hes := by
    rw [Screen.entriesOf, rebuilt_lists_episodes h, newLists] at hes
    by_cases hn : a.allocated ≤ n
    · simp only [hn, if_true, Option.map_map, Option.map_eq_some_iff] at hes
      obtain ⟨p, hp, -⟩ := hes
      have hlt := (List.getElem?_eq_some_iff.mp hp).1
      exact mem_newIds.mpr ⟨n - a.allocated, hlt, by rw [Nat.add_sub_cancel' hn]⟩
    · simp [hn] at hes
  allocated l hl := by
    obtain ⟨i, hi, rfl⟩ := mem_newIds.mp hl
    exact ⟨_, Nat.add_lt_add_left hi a.allocated, rfl⟩
  nodup := newIds_nodup a.allocated ps.length

/-- No list of an update made in the main menu has a link. -/
theorem rebuilt_parentOf (h : Furnished a) (hlinks : ∀ l, a.toScreen.parentOf l = none)
    (ps : List Podcast) (pl : MenuList) (hpl : a.lists .podcastList = some pl) (l : ListId) :
    (rebuilt a ps pl).toScreen.parentOf l = none := by
  have hold := hlinks l
  cases l with
  | podcastList =>
    rw [Screen.parentOf, hpl, Option.bind_some] at hold
    simpa [Screen.parentOf, rebuilt] using hold
  | episodes n =>
    rw [Screen.parentOf, rebuilt_lists_episodes h, newLists]
    split
    · cases hp : ps[n - a.allocated]? with
      | none => rfl
      | some p => simp [MenuList.copy, episodesOf_eq]
    · rfl
  | mainMenuList =>
    rw [Screen.parentOf, rebuilt_lists_fixed h ps pl (.inl rfl)]
    exact hold
  | optionsList =>
    rw [Screen.parentOf, rebuilt_lists_fixed h ps pl (.inr rfl)]
    exact hold

/-- An update in the main menu keeps the trail: it is one of those that need no episode list. -/
theorem rebuilt_follows (h : Follows a t) (hpath : t.path = [.mainMenuList]) (ps : List Podcast)
    {pl : MenuList} (hpl : a.lists .podcastList = some pl) : Follows (rebuilt a ps pl) t where
  toFurnished := rebuilt_furnished h.toFurnished ps pl
  place := by
    have hplace := h.place
    cases hplace with
    | main captured hcaptured => exact .main captured hcaptured
    | _ => cases hpath
  links := by
    have hnone : ∀ l, a.toScreen.parentOf l = none := by
      intro l
      have hlinks := h.links
      rw [hpath] at hlinks
      by_cases hl : l = .mainMenuList
      · rw [hl, hlinks.parent_head]
        rfl
      · exact hlinks.unlinked l (by simpa using hl)
    refine h.links.congr fun l => ?_
    rw [rebuilt_parentOf h.toFurnished hnone ps pl hpl, hnone]
  shown := h.shown
  current := h.current
  captured := h.captured
  optionsButton := h.optionsButton
  selectButton := h.selectButton
  accept := h.accept
  back := h.back

/-- Whatever the frame does, the trail moves accordingly. -/
theorem Outcome.follows {c : Option MenuCallback} (h : Follows a t) (ho : Outcome P f t a c b) :
    Follows b (t.next (moveOf c)) := by
  cases ho with
  | nothing => exact h
  | entered l ml hml hl hplace => exact entered_follows h hml hl hplace
  | appended _ hb => exact quiet_follows h hb
  | unread _ hb hlines => exact quiet_follows h hb
  | updated m pl hpl hpath hlines =>
    exact rebuilt_follows (read_follows h f _ m) hpath (updatePodcasts P f a) hpl
  | left parent rest ml hml hpath => exact left_follows h hml hpath
  | idle hidle =>
    show Follows a (t.next .back)
    rwa [hidle]

end Moving

/-! ## Frames and runs -/

section Stepping

variable {P : Platform} {a : App} {t : Trail ListId}

/-- **Every frame is defined**, and after the cursor has moved it does one of the things that
a frame can do. -/
theorem step_outcome (h : Follows a t) (f : Frame) :
    ∃ shown ml b, t.path.head? = some shown ∧ a.lists shown = some ml ∧ step P a f = some b ∧
      Outcome P f t ((a.atFrame f).setCursor shown ml (cursorAfter f ml)) (a.chosen f) b := by
  obtain ⟨shown, ml, hhead, hml⟩ := h.exists_shown
  have hshown : a.menu.menuList = some shown := h.shown.trans hhead
  have hchosen : a.chosen f = selected f a.menu ml (cursorAfter f ml) := by
    simp [App.chosen, hshown, hml]
  set c := (a.atFrame f).setCursor shown ml (cursorAfter f ml) with hc
  have hfollows : Follows c t := setCursor_follows h hml _
  have hlist : c.lists shown = some { ml with index := cursorAfter f ml } := Function.update_self ..
  obtain ⟨b, hrun, houtcome⟩ : ∃ b, runIfSet P f c (a.chosen f) = some b ∧
      Outcome P f t c (a.chosen f) b := by
    rw [hchosen]
    rcases selected_cases h f ml (cursorAfter f ml) with
      hnone | hback | ⟨e, he, callback, hcallback, howner⟩
    · rw [hnone]
      exact ⟨c, rfl, .nothing⟩
    · rw [hback]
      exact run_back hfollows
    · rw [howner]
      exact run_entry hfollows hhead hlist he hcallback
  refine ⟨shown, ml, b, hhead, hml, ?_, houtcome⟩
  rw [hchosen] at hrun
  exact step_of_run hshown hml hrun (houtcome.follows hfollows).screen_shown

/-- **A frame follows the trail**: it is defined, and the state after it holds the trail that the
callback leads to. -/
theorem step_follows (h : Follows a t) (f : Frame) :
    ∃ b, step P a f = some b ∧ Follows b (t.next (moveOf (a.chosen f))) := by
  obtain ⟨shown, ml, b, -, hml, hstep, houtcome⟩ := step_outcome (P := P) h f
  exact ⟨b, hstep, houtcome.follows (setCursor_follows h hml _)⟩

/-- A frame that led to `b` did one of these things. -/
theorem outcome_of_step (h : Follows a t) {f : Frame} {b : App} (hstep : step P a f = some b) :
    ∃ shown ml, t.path.head? = some shown ∧ a.lists shown = some ml ∧
      Outcome P f t ((a.atFrame f).setCursor shown ml (cursorAfter f ml)) (a.chosen f) b := by
  obtain ⟨shown, ml, b', hhead, hml, hstep', houtcome⟩ := step_outcome (P := P) h f
  obtain rfl : b' = b := Option.some.inj (hstep'.symm.trans hstep)
  exact ⟨shown, ml, hhead, hml, houtcome⟩

/-- A frame keeps some trail. -/
theorem step_exists_follows (P : Platform) (a : App) (f : Frame) (h : ∃ t, Follows a t) :
    ∃ b, step P a f = some b ∧ ∃ t, Follows b t := by
  obtain ⟨t, ht⟩ := h
  obtain ⟨b, hstep, hb⟩ := step_follows (P := P) ht f
  exact ⟨b, hstep, _, hb⟩

/-- The program starts in the main menu, on the shortest path. -/
theorem start_follows : Follows App.start ⟨[.mainMenuList], .mainMenuList⟩ where
  main := rfl
  options := rfl
  podcasts := ⟨[], rfl, rfl⟩
  episodes l hl := absurd hl List.not_mem_nil
  live n es hes := by cases hes
  allocated l hl := absurd hl List.not_mem_nil
  nodup := List.nodup_nil
  place := .main .mainMenuList (.inl rfl)
  links := by
    refine ⟨List.nodup_singleton _, ⟨rfl, trivial⟩, fun l _ => ?_⟩
    cases l <;> rfl
  shown := rfl
  current := rfl
  captured := rfl
  optionsButton := rfl
  selectButton := rfl
  accept := rfl
  back := rfl

/-- **Every run is defined** and ends in a state that holds a trail. -/
theorem run_follows (P : Platform) (fs : List Frame) :
    ∃ a, run (step P) App.start fs = some a ∧ ∃ t, Follows a t := by
  exact run_invariant (step_exists_follows P) ⟨_, start_follows⟩ fs

end Stepping

/-! ## Frames with one button -/

/-- A frame in which one button is released. -/
def press (button : BitVec 32) : Frame := { pressedButtons := button }

/-- A frame in which Accept is pressed over the given feed file, and every download brings an RSS
document with an empty channel. -/
def acceptOver (file : Bytes) : Frame where
  pressedButtons := sceCtrlCircle
  feedFile := some file
  net := fun _ => whole

end PsCast.Analysis
