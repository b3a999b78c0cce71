import PsCast.Analysis.Highlight
import PsCast.Interface.Client
import PsCast.Library.Simulation

/-!
# The application is the podcast client

`Presents a c t` says that the state `a`, which holds the trail `t`, is the client `c`: the
trail is that of the page, and the list of each page has its title, its labels and its
cursor. A frame is one gesture of the client (`frame_simulates`), so what a run draws is
what the client shows (`run_pictures`). That a frame is defined means that it looks at no list
that does not exist: the feed parser is a function here, and the title of the dialog is not
converted in a frame.
-/

set_option autoImplicit false

namespace PsCast

open App Library Library.History

/-! ## Frames as gestures -/

/-- What a frame asks of the cursor: Down counts before Up. -/
def Frame.motion (f : Frame) : Motion :=
  if triggered f.pressedButtons sceCtrlDown then .down
  else if triggered f.pressedButtons sceCtrlUp then .up
  else .rest

/-- The button that a frame acts on: Accept counts before Back. -/
def Frame.key (f : Frame) : Key :=
  if triggered f.pressedButtons sceCtrlCircle then .accept
  else if triggered f.pressedButtons sceCtrlCross then .back
  else .other

/-- The shelf that the feeds of an update fill. -/
def shelfOf (feeds : List Feed) : List Show :=
  feeds.map fun feed => { title := feed.title, episodes := feed.items.map Item.title }

/-- What an update in this frame would fetch. -/
def Frame.fetched (P : Platform) (f : Frame) : Option (List Show) :=
  match (Utils.getLinesFromFile f.fdRead f.feedFile).1 with
  | [] => none
  | url :: rest => some (shelfOf (keptFeeds P (outcomes f.net 0 (url :: rest))))

/-- The gesture that a frame makes. -/
def Frame.gesture (P : Platform) (f : Frame) : Gesture :=
  { motion := f.motion, key := f.key, fetched := f.fetched P }

/-- One frame, with the picture it draws. -/
def App.frame (P : Platform) (a : App) (f : Frame) : Option (App × Screen.Picture) :=
  draw P f (a.atFrame f)

/-- What a view keeps of a picture: the label of the shown list, and of each row its label and
whether it is highlighted. The status message and the offsets of the rows are not in it. -/
def Screen.Picture.view (picture : Screen.Picture) : View :=
  { title := picture.context, rows := picture.rows.map fun row => (row.label, row.highlighted) }

/-! ## The relation -/

/-- The list that holds a page. -/
def listOf (eps : List ListId) : Page → Option ListId
  | .main => some .mainMenuList
  | .options => some .optionsList
  | .podcasts => some .podcastList
  | .episodes i => eps[i]?

/-- The trails of a page. The last two belong to a trapped client. -/
inductive TrailOf (eps : List ListId) : Page → Bool → Trail ListId → Prop
  | main (captured : ListId) : TrailOf eps .main false ⟨[.mainMenuList], captured⟩
  | options : TrailOf eps .options false ⟨[.optionsList, .mainMenuList], .optionsList⟩
  | podcasts : TrailOf eps .podcasts false ⟨[.podcastList, .mainMenuList], .podcastList⟩
  | episodes (i : ℕ) (l : ListId) (h : eps[i]? = some l) :
      TrailOf eps (.episodes i) true ⟨[l, .podcastList, .mainMenuList], l⟩
  | stuck (l : ListId) (h : l ∈ eps) :
      TrailOf eps .podcasts true ⟨[.podcastList, .mainMenuList], l⟩

/-- The list `ml` is the page of the client. -/
structure PageIs (c : Client) (p : Page) (ml : MenuList) : Prop where
  title : ml.label = p.title
  labels : ml.entries.map MenuEntry.label = c.labels p
  cursor : ml.index = c.cursor p

/-- The state is the client. -/
structure Presents (a : App) (c : Client) (t : Trail ListId) : Prop extends Follows a t where
  trail : TrailOf a.podcastEpisodesLists c.page c.trapped t
  count : a.podcastEpisodesLists.length = c.shelf.length
  pages : ∀ p l, listOf a.podcastEpisodesLists p = some l →
    ∃ ml, a.lists l = some ml ∧ PageIs c p ml

/-! ## Pages and lists -/

/-- Only the shelf and the cursor of the page matter. -/
theorem PageIs.congr {c c' : Client} {p : Page} {ml : MenuList} (h : PageIs c p ml)
    (hshelf : c'.shelf = c.shelf) (hcursor : c'.cursor p = c.cursor p) : PageIs c' p ml where
  title := h.title
  labels := by rw [h.labels, Client.labels_congr hshelf]
  cursor := by rw [h.cursor, hcursor]

namespace TrailOf

variable {eps : List ListId}

/-- The list shown is that of the page. -/
theorem head {p : Page} {trapped : Bool} {t : Trail ListId} (h : TrailOf eps p trapped t) :
    t.path.head? = listOf eps p := by
  cases h with
  | episodes i l hl => exact hl.symm
  | _ => rfl

/-- A trail that ends in the main menu is that of the main page. -/
theorem of_main {p : Page} {trapped : Bool} {t : Trail ListId} (h : TrailOf eps p trapped t)
    (hpath : t.path = [.mainMenuList]) : p = .main ∧ trapped = false := by
  cases h with
  | main captured => exact ⟨rfl, rfl⟩
  | _ => cases hpath

/-- The trail of a page that is visited. -/
theorem visit {c : Client} {t : Trail ListId} (h : TrailOf eps c.page c.trapped t) {index : ℕ}
    {p : Page} (hvisit : c.accepted index = .visit p) {l : ListId} (hl : listOf eps p = some l)
    (fetched : Option (List Show)) :
    TrailOf eps (c.perform fetched (.visit p)).page (c.perform fetched (.visit p)).trapped
      (t.next (.enter l)) := by
  rcases Client.accepted_eq_visit hvisit with ⟨hpage, hp⟩ | ⟨hpage, i, -, rfl⟩
  · have htrapped : c.trapped = false := by
      rw [hpage] at h
      generalize c.trapped = trapped at h ⊢
      cases h
      rfl
    have hpath : t.path = [.mainMenuList] := by
      rw [hpage] at h
      generalize c.trapped = trapped at h
      cases h
      rfl
    unfold Trail.next
    rw [hpath]
    rcases hp with rfl | rfl
    · cases hl
      simp only [Client.perform, htrapped]
      exact .podcasts
    · cases hl
      simp only [Client.perform, htrapped]
      exact .options
  · have hpath : t.path = [.podcastList, .mainMenuList] := by
      rw [hpage] at h
      generalize c.trapped = trapped at h
      cases h <;> rfl
    unfold Trail.next
    rw [hpath]
    exact .episodes i l hl

/-- The trail of the page that Back leads to. -/
theorem leave {c : Client} {t : Trail ListId} (h : TrailOf eps c.page c.trapped t)
    (heps : ∀ l ∈ eps, ∃ n, l = .episodes n) :
    TrailOf eps c.parent c.trapped (t.next .back) := by
  obtain ⟨shelf, page, trapped, cursor⟩ := c
  cases h with
  | main captured =>
    by_cases hcaptured : captured = .mainMenuList
    · subst hcaptured
      exact .main .mainMenuList
    · have hother : (Trail.mk [ListId.mainMenuList] captured).path.head? ≠ some captured :=
        fun hhead => hcaptured (Option.some.inj hhead).symm
      rw [Trail.next_back_of_other hother]
      exact .main captured
  | options => exact .main .optionsList
  | podcasts => exact .main .podcastList
  | episodes i l hl =>
    rw [Trail.next_back_of_current rfl]
    exact .stuck l (List.mem_of_getElem? hl)
  | stuck l hl =>
    -- the captured list is not the current one, so Back does nothing
    obtain ⟨n, rfl⟩ := heps l hl
    rw [Trail.next_back_of_other (by simp)]
    exact .stuck _ hl

end TrailOf

namespace Analysis


section Pages

variable {eps : List ListId} (heps : ∀ l ∈ eps, ∃ n, l = .episodes n)

include heps in
/-- The list tells the page, an episode list by its place in the vector. -/
theorem page_of_listOf {p : Page} {l : ListId} (h : listOf eps p = some l) :
    match l with
    | .mainMenuList => p = .main
    | .optionsList => p = .options
    | .podcastList => p = .podcasts
    | .episodes _ => ∃ i, p = .episodes i ∧ eps[i]? = some l := by
  cases p with
  | main => cases h; rfl
  | options => cases h; rfl
  | podcasts => cases h; rfl
  | episodes i =>
    obtain ⟨n, rfl⟩ := heps l (List.mem_of_getElem? h)
    exact ⟨i, rfl, h⟩

include heps in
/-- No two pages are held by one list. -/
theorem listOf_inj (hnodup : eps.Nodup) {p q : Page} {l : ListId} (hp : listOf eps p = some l)
    (hq : listOf eps q = some l) : p = q := by
  have hpage := page_of_listOf heps hp
  have hpage' := page_of_listOf heps hq
  cases l with
  | episodes n =>
    obtain ⟨i, rfl, hi⟩ := hpage
    obtain ⟨j, rfl, hj⟩ := hpage'
    rw [(List.getElem?_inj (List.getElem?_eq_some_iff.mp hi).1 hnodup).mp (hi.trans hj.symm)]
  | _ => exact hpage.trans hpage'.symm

end Pages

/-! ## The cursor -/

/-- The cursor of a page moves as that of its list. -/
theorem moveTo_eq (f : Frame) (ml : MenuList) :
    Client.moveTo (ml.entries.map MenuEntry.label).length ml.index f.motion = cursorAfter f ml := by
  have hlength : (ml.entries.map MenuEntry.label).length = ml.size := by
    simp [MenuList.size]
  unfold Frame.motion cursorAfter
  rw [hlength]
  split
  · unfold Client.moveTo MenuList.increaseIndex
    simp only
    split <;> rfl
  · split
    · unfold Client.moveTo MenuList.decreseIndex
      by_cases hpos : ml.index > 0
      · simp [hpos]
      · have hzero : ml.index = 0 := by omega
        simp [hzero]
    · rfl

/-- Moving the cursor of the shown list is moving that of the page. -/
theorem presents_setCursor {a : App} {c : Client} {t : Trail ListId} (h : Presents a c t)
    (f : Frame) {shown : ListId} {ml : MenuList} (hhead : t.path.head? = some shown)
    (hml : a.lists shown = some ml) :
    Presents ((a.atFrame f).setCursor shown ml (cursorAfter f ml)) (c.moved f.motion) t where
  toFollows := setCursor_follows h.toFollows hml _
  trail := h.trail
  count := h.count
  pages p l hl := by
    have hpage : listOf a.podcastEpisodesLists c.page = some shown := h.trail.head ▸ hhead
    obtain ⟨ml', hml', htitle, hlabels, hcursor⟩ := h.pages p l hl
    by_cases hp : p = c.page
    · subst hp
      obtain rfl : l = shown := Option.some.inj (hl.symm.trans hpage)
      obtain rfl : ml = ml' := Option.some.inj (hml.symm.trans hml')
      refine ⟨{ ml with index := cursorAfter f ml }, Function.update_self .., htitle, hlabels, ?_⟩
      show cursorAfter f ml = Function.update c.cursor c.page _ c.page
      rw [Function.update_self, ← hlabels, ← hcursor, moveTo_eq]
    · have hother : l ≠ shown := by
        intro heq
        exact hp (listOf_inj h.isEpisodes h.nodup (heq ▸ hl) hpage)
      refine ⟨ml', ?_, htitle, hlabels, ?_⟩
      · show Function.update a.lists shown _ l = some ml'
        rw [Function.update_of_ne hother, hml']
      · show ml'.index = Function.update c.cursor c.page _ p
        rw [Function.update_of_ne hp, hcursor]

/-! ## The function that the menu runs -/

/-- The function that a command of the client runs. -/
def callbackOf (eps : List ListId) (t : Trail ListId) : Command → Option MenuCallback
  | .stay => none
  | .visit p => (listOf eps p).map fun l => .owner (.goToList l)
  | .addUrl => some (.owner .appendUrlToFeed)
  | .update => some (.owner .updateFromFeedFile)
  | .leave => some (.back t.captured)

section Choosing

variable {a : App} {c : Client} {t : Trail ListId}

/-- The entry under the cursor runs what Accept stands for on the page. -/
theorem atIndex_callback (h : Presents a c t) {shown : ListId} {ml : MenuList}
    (hpage : listOf a.podcastEpisodesLists c.page = some shown) (hml : a.lists shown = some ml)
    (index : ℕ) :
    (ml.atIndex index).callback.map MenuCallback.owner =
      callbackOf a.podcastEpisodesLists t (c.accepted index) := by
  have hentries : a.toScreen.entriesOf shown = some ml.entries := by simp [Screen.entriesOf, hml]
  have hat : (ml.atIndex index).callback = (ml.entries[index]?).bind MenuEntry.callback := by
    unfold MenuList.atIndex
    by_cases hindex : index < ml.entries.length <;> simp [hindex]
  rw [hat]
  unfold Client.accepted
  cases hc : c.page with
  | main =>
    rw [hc] at hpage
    cases hpage
    rw [h.main, Option.some.injEq] at hentries
    rw [← hentries]
    rcases index with _ | _ | _ | _ | n <;> rfl
  | options =>
    rw [hc] at hpage
    cases hpage
    rw [h.options, Option.some.injEq] at hentries
    rw [← hentries]
    cases index <;> rfl
  | podcasts =>
    rw [hc] at hpage
    cases hpage
    obtain ⟨es, hes, hcallbacks⟩ := h.podcasts
    obtain rfl : es = ml.entries := Option.some.inj (hes.symm.trans hentries)
    have hentry : (ml.entries[index]?).bind MenuEntry.callback =
        (a.podcastEpisodesLists[index]?).map fun l => .goToList l := by
      calc (ml.entries[index]?).bind MenuEntry.callback
          = ((ml.entries.map MenuEntry.callback)[index]?).bind id := by
            rw [List.getElem?_map, Option.bind_map]
            rfl
        _ = ((a.podcastEpisodesLists.map fun l => some (Callback.goToList l))[index]?).bind id := by
            rw [hcallbacks]
        _ = (a.podcastEpisodesLists[index]?).map fun l => .goToList l := by
            rw [List.getElem?_map, Option.bind_map]
            exact Option.map_eq_bind.symm
    rw [hentry, Option.map_map]
    by_cases hindex : index < c.shelf.length
    · simp only [hindex, if_true]
      rfl
    · have hnone : a.podcastEpisodesLists[index]? = none := by
        rw [List.getElem?_eq_none_iff, h.count]
        omega
      simp only [hindex, if_false, hnone]
      rfl
  | episodes i =>
    rw [hc] at hpage
    obtain ⟨es, hes, hinert⟩ := h.episodes shown (List.mem_of_getElem? hpage)
    obtain rfl : es = ml.entries := Option.some.inj (hes.symm.trans hentries)
    cases he : ml.entries[index]? with
    | none => rfl
    | some e => rw [Option.bind_some, hinert e (List.mem_of_getElem? he)]; rfl

/-- **The frame runs the command**: what the buttons select is what the key stands for. -/
theorem chosen_eq (h : Presents a c t) (f : Frame) :
    a.chosen f = callbackOf a.podcastEpisodesLists t ((c.moved f.motion).command f.key) := by
  obtain ⟨shown, ml, hhead, hml⟩ := h.exists_shown
  have hpage : listOf a.podcastEpisodesLists c.page = some shown := h.trail.head ▸ hhead
  obtain ⟨ml', hml', -, hlabels, hindex⟩ := h.pages c.page shown hpage
  obtain rfl : ml = ml' := Option.some.inj (hml.symm.trans hml')
  have hcursor : (c.moved f.motion).cursor c.page = cursorAfter f ml := by
    show Function.update c.cursor c.page _ c.page = _
    rw [Function.update_self, ← hlabels, ← hindex, moveTo_eq]
  have hshown : a.menu.menuList = some shown := h.shown.trans hhead
  have hchosen : a.chosen f = selected f a.menu ml (cursorAfter f ml) := by
    simp [App.chosen, hshown, hml]
  rw [hchosen]
  unfold selected Frame.key
  rw [h.accept, h.back, h.captured, h.optionsButton, h.selectButton]
  by_cases haccept : triggered f.pressedButtons sceCtrlCircle
  · rw [if_pos haccept, if_pos haccept, atIndex_callback h hpage hml, ← hcursor]
    rfl
  · rw [if_neg haccept, if_neg haccept]
    by_cases hback : triggered f.pressedButtons sceCtrlCross
    · rw [if_pos hback, if_pos hback]
      rfl
    · rw [if_neg hback, if_neg hback, ite_self, ite_self]
      rfl

end Choosing

/-! ## One frame -/

section Stepping

variable {P : Platform} {f : Frame} {a b : App} {c : Client} {t : Trail ListId}

/-- A state with the same lists and menu presents the same client. -/
theorem quiet_presents (h : Presents a c t) (hb : Quiet a b) : Presents b c t where
  toFollows := quiet_follows h.toFollows hb
  trail := by rw [hb.2.1]; exact h.trail
  count := by rw [hb.2.1]; exact h.count
  pages := by rw [hb.1, hb.2.1]; exact h.pages

/-- Writing the link of a list changes no page. -/
theorem pages_update {lists : Lists} (h : ∀ p l, listOf a.podcastEpisodesLists p = some l →
      ∃ ml, lists l = some ml ∧ PageIs c p ml) {next : ListId} {ml : MenuList}
    (hml : lists next = some ml) (parent : Option ListId) (p : Page) (l : ListId)
    (hl : listOf a.podcastEpisodesLists p = some l) :
    ∃ ml', Function.update lists next (some { ml with parent := parent }) l = some ml' ∧
      PageIs c p ml' := by
  obtain ⟨ml', hml', hpage⟩ := h p l hl
  by_cases heq : l = next
  · subst heq
    obtain rfl : ml = ml' := Option.some.inj (hml.symm.trans hml')
    exact ⟨_, Function.update_self .., hpage.title, hpage.labels, hpage.cursor⟩
  · exact ⟨ml', by rw [Function.update_of_ne heq, hml'], hpage⟩

/-- Visiting a page is entering its list. -/
theorem visit_presents (h : Presents a c t) {index : ℕ} {p : Page}
    (hvisit : c.accepted index = .visit p) {l : ListId} {ml : MenuList}
    (hl : listOf a.podcastEpisodesLists p = some l) (hml : a.lists l = some ml) (hnot : l ∉ t.path)
    (hplace : Place a.podcastEpisodesLists (t.next (.enter l))) (fetched : Option (List Show)) :
    Presents (a.withScreen (a.toScreen.entered l ml)) (c.perform fetched (.visit p))
      (t.next (.enter l)) where
  toFollows := entered_follows h.toFollows hml hnot hplace
  trail := h.trail.visit hvisit hl fetched
  count := h.count.trans (congrArg List.length (Client.perform_visit_shelf fetched p)).symm
  pages p' l' hl' := by
    obtain ⟨ml', hml', hpage⟩ := pages_update h.pages hml _ p' l' hl'
    refine ⟨ml', hml', hpage.congr ?_ ?_⟩
    · exact Client.perform_visit_shelf fetched p
    · rw [Client.perform_visit_cursor]

/-- An update refills the shelf. -/
theorem update_presents (h : Presents a c t) (hpath : t.path = [.mainMenuList]) (feeds : List Feed)
    (m : Bytes) {pl : MenuList} (hpl : a.lists .podcastList = some pl) :
    Presents (rebuilt ((withPodcasts (withFeedFile f.fdRead a) (storedPodcasts feeds)).withStatus m)
      (storedPodcasts feeds) pl) (c.perform (some (shelfOf feeds)) .update) t where
  toFollows := rebuilt_follows (read_follows h.toFollows f _ m) hpath _ hpl
  trail := by
    obtain ⟨hpage, htrapped⟩ := h.trail.of_main hpath
    have htrail : t = ⟨[.mainMenuList], t.captured⟩ := by rw [← hpath]
    rw [htrail]
    show TrailOf _ c.page c.trapped _
    rw [hpage, htrapped]
    exact .main t.captured
  count := by
    show (newIds a.allocated (storedPodcasts feeds).length).length = (shelfOf feeds).length
    simp [newIds, storedPodcasts, shelfOf]
  pages p l hl := by
    have hfixed : ∀ l', l' = .mainMenuList ∨ l' = .optionsList →
        (rebuilt ((withPodcasts (withFeedFile f.fdRead a) (storedPodcasts feeds)).withStatus m)
          (storedPodcasts feeds) pl).lists l' = a.lists l' :=
      fun l' hl' => rebuilt_lists_fixed (read_follows h.toFollows f _ m).toFurnished _ pl hl'
    cases p with
    | main =>
      cases hl
      obtain ⟨ml, hml, hpage⟩ := h.pages .main .mainMenuList rfl
      exact ⟨ml, (hfixed _ (.inl rfl)).trans hml, hpage.title, hpage.labels, hpage.cursor⟩
    | options =>
      cases hl
      obtain ⟨ml, hml, hpage⟩ := h.pages .options .optionsList rfl
      exact ⟨ml, (hfixed _ (.inr rfl)).trans hml, hpage.title, hpage.labels, hpage.cursor⟩
    | podcasts =>
      cases hl
      obtain ⟨ml, hml, hpage⟩ := h.pages .podcasts .podcastList rfl
      obtain rfl : pl = ml := Option.some.inj (hpl.symm.trans hml)
      refine ⟨_, rfl, hpage.title, ?_, hpage.cursor⟩
      show (newEntries a.allocated (storedPodcasts feeds)).map MenuEntry.label =
        (shelfOf feeds).map Show.title
      simp [newEntries_labels, storedPodcasts, shelfOf, Podcast.copy, Podcast.ofFeed]
    | episodes i =>
      have hi : i < (storedPodcasts feeds).length := by
        have hlt := (List.getElem?_eq_some_iff.mp hl).1
        simpa [rebuilt, newIds] using hlt
      have hid := newIds_getElem? a.allocated (storedPodcasts feeds).length i hi
      obtain rfl : l = .episodes (a.allocated + i) := Option.some.inj (hl.symm.trans hid)
      refine ⟨(episodesOf (storedPodcasts feeds)[i]).copy, ?_, ?_, ?_, rfl⟩
      · have hlist := rebuilt_lists_episodes (read_follows h.toFollows f (storedPodcasts feeds)
          m).toFurnished (storedPodcasts feeds) pl (a.allocated + i)
        rw [hlist]
        show newLists a.allocated _ _ = _
        rw [newLists_episodes, List.getElem?_eq_getElem hi, Option.map_some]
      · rw [episodesOf_eq]
        rfl
      · have hi' : i < feeds.length := by simpa [storedPodcasts] using hi
        show ((episodesOf (storedPodcasts feeds)[i]).copy.entries).map MenuEntry.label =
          ((shelfOf feeds)[i]?.map Show.episodes).getD []
        simp [episodesOf_eq, MenuList.copy, storedPodcasts, shelfOf, hi', Podcast.copy,
          Podcast.ofFeed, Podcast.episodeOf]

/-- Leaving the captured list is leaving the page. -/
theorem left_presents (h : Presents a c t) {parent : ListId} {rest : List ListId} {ml : MenuList}
    (hml : a.lists t.captured = some ml) (hpath : t.path = t.captured :: parent :: rest)
    (fetched : Option (List Show)) :
    Presents (a.withScreen (a.toScreen.left t.captured parent ml)) (c.perform fetched .leave)
      (t.next .back) where
  toFollows := left_follows h.toFollows hml hpath
  trail := h.trail.leave h.isEpisodes
  count := h.count
  pages p l hl := by
    obtain ⟨ml', hml', hpage⟩ := pages_update h.pages hml none p l hl
    exact ⟨ml', hml', hpage.congr rfl rfl⟩

/-- Whatever the function that the menu runs does, the command does it too. -/
theorem Outcome.presents {command : Command} (h : Presents a c t)
    (hfile : a.feedFile = f.feedFile) {key : Key} (hcommand : c.command key = command)
    (ho : Outcome P f t a (callbackOf a.podcastEpisodesLists t command) b) :
    ∃ t', Presents b (c.perform (f.fetched P) command) t' := by
  have hfetched : f.fetched P = match feedLines f.fdRead a with
      | [] => none
      | url :: rest => some (shelfOf (keptFeeds P (outcomes f.net 0 (url :: rest)))) := by
    rw [feedLines, hfile]
    rfl
  cases command with
  | stay =>
    cases ho
    exact ⟨t, h⟩
  | visit p =>
    have hvisit : c.accepted (c.cursor c.page) = .visit p := by
      cases key with
      | accept => exact hcommand
      | back => cases hcommand
      | other => cases hcommand
    cases hl : listOf a.podcastEpisodesLists p with
    | none =>
      rw [callbackOf, hl, Option.map_none] at ho
      rcases Client.accepted_eq_visit hvisit with ⟨-, rfl | rfl⟩ | ⟨-, i, hi, rfl⟩
      · cases hl
      · cases hl
      · rw [listOf, List.getElem?_eq_none_iff, h.count] at hl
        omega
    | some l =>
      rw [callbackOf, hl, Option.map_some] at ho
      cases ho with
      | entered l ml hml hnot hplace =>
        exact ⟨_, visit_presents h hvisit hl hml hnot hplace _⟩
  | addUrl =>
    cases ho with
    | appended b hb => exact ⟨t, quiet_presents h hb⟩
  | update =>
    cases ho with
    | unread b hb hlines =>
      rw [hfetched, hlines]
      exact ⟨t, quiet_presents h hb⟩
    | updated m pl hpl hpath hlines =>
      have hsome : f.fetched P =
          some (shelfOf (keptFeeds P (outcomes f.net 0 (feedLines f.fdRead a)))) := by
        rw [hfetched]
        cases hread : feedLines f.fdRead a with
        | nil => exact absurd hread hlines
        | cons url rest => rfl
      rw [hsome]
      exact ⟨t, update_presents h hpath _ m hpl⟩
  | leave =>
    cases ho with
    | left parent rest ml hml hpath => exact ⟨_, left_presents h hml hpath _⟩
    | idle hidle =>
      refine ⟨t, h.toFollows, ?_, h.count, ?_⟩
      · have htrail := h.trail.leave h.isEpisodes
        rw [hidle] at htrail
        exact htrail
      · intro p l hl
        obtain ⟨ml, hml, hpage⟩ := h.pages p l hl
        exact ⟨ml, hml, hpage.congr rfl rfl⟩

/-- **A frame is a gesture.** -/
theorem step_presents (h : Presents a c t) (hstep : step P a f = some b) :
    ∃ t', Presents b (c.next (f.gesture P)) t' := by
  obtain ⟨shown, ml, hhead, hml, houtcome⟩ := outcome_of_step h.toFollows hstep
  rw [chosen_eq h f] at houtcome
  exact houtcome.presents (presents_setCursor h f hhead hml) rfl rfl

/-! ## The picture -/

/-- The rows of a page are eight of its labels, from a multiple of eight on. -/
theorem rows_view (ml : MenuList) (index : ℕ) :
    (((List.range ml.size).filter fun k => k / 8 = index / 8).map (Screen.rowOf ml index)).map
        (fun row => (row.label, row.highlighted)) =
      (((ml.entries.map MenuEntry.label).zipIdx.drop (index / 8 * 8)).take 8).map
        fun (label, k) => (label, index == k) := by
  have hpage : (fun k => decide (k / 8 = index / 8)) =
      fun k => decide (index / 8 * 8 ≤ k ∧ k < index / 8 * 8 + 8) := by
    funext k
    apply decide_eq_decide.mpr
    omega
  rw [hpage, filter_range_interval]
  apply List.ext_getElem
  · simp [MenuList.size]
  · intro i hi hi'
    have hlt : index / 8 * 8 + i < ml.entries.length := by
      simp only [List.length_map, List.length_range', MenuList.size] at hi
      omega
    simp [Screen.rowOf, MenuList.atIndex, hlt]

/-- The picture of a frame is the view of the client. -/
theorem picture_view (h : Presents a c t) {t' : Trail ListId} {picture : Screen.Picture}
    (hb : Presents b (c.next (f.gesture P)) t') (hdraw : a.frame P f = some (b, picture)) :
    picture.view = c.view (f.gesture P) := by
  obtain ⟨shown, ml, hhead, hml⟩ := h.exists_shown
  obtain ⟨shown', ml', hhead', hml'⟩ := hb.exists_shown
  have hshown' : b.menu.menuList = some shown' := hb.shown.trans hhead'
  have hpage : listOf a.podcastEpisodesLists c.page = some shown := h.trail.head ▸ hhead
  have hpage' : listOf b.podcastEpisodesLists (c.next (f.gesture P)).page = some shown' :=
    hb.trail.head ▸ hhead'
  obtain ⟨mlc, hmlc, -, hlabels, hindex⟩ := h.pages _ _ hpage
  obtain rfl : ml = mlc := Option.some.inj (hml.symm.trans hmlc)
  obtain ⟨mln, hmln, htitle', hlabels', -⟩ := hb.pages _ _ hpage'
  obtain rfl : ml' = mln := Option.some.inj (hml'.symm.trans hmln)
  have hcursor : (c.moved f.motion).cursor c.page = cursorAfter f ml := by
    show Function.update c.cursor c.page _ c.page = _
    rw [Function.update_self, ← hlabels, ← hindex, moveTo_eq]
  have hrows := draw_rows (h.shown.trans hhead) hml hdraw
  rw [drawList_eq hshown' hml', Option.some.injEq] at hrows
  obtain ⟨-, -, hheader, -⟩ := draw_cases hdraw
  have hcontext : picture.context = ml'.label := by
    simp only [Screen.drawHeader, hshown', hml', Option.bind_eq_bind, Option.bind_some,
      Option.pure_def, Option.some.injEq, Prod.mk.injEq] at hheader
    exact hheader.2.symm
  unfold Screen.Picture.view Client.view
  rw [← hrows, rows_view, hcontext, htitle', hlabels', ← hcursor]
  rfl

/-! ## Runs -/

/-- **A frame is a gesture**: it leads to a state that presents the client after the gesture, and
its picture is what that client shows. -/
theorem frame_simulates (P : Platform) :
    Simulates (App.frame P) Client.next Client.view (Frame.gesture P) Screen.Picture.view
      fun a c => ∃ t, Presents a c t := by
  rintro a c f ⟨t, h⟩
  obtain ⟨b, hstep, -⟩ := step_follows (P := P) h.toFollows f
  obtain ⟨⟨b', picture⟩, hdraw, rfl⟩ := Option.map_eq_some_iff.mp hstep
  obtain ⟨t', hb⟩ := step_presents h hstep
  exact ⟨b', picture, hdraw, ⟨t', hb⟩, picture_view h hb hdraw⟩

/-- The program starts as the client does. -/
theorem start_presents : Presents App.start {} ⟨[.mainMenuList], .mainMenuList⟩ where
  toFollows := start_follows
  trail := .main .mainMenuList
  count := rfl
  pages p l hl := by
    cases p with
    | episodes i => cases hl
    | _ =>
      cases hl
      exact ⟨_, rfl, rfl, rfl, rfl⟩

/-- A frame leads to a state that presents some client. -/
theorem step_exists_presents (P : Platform) (a : App) (f : Frame) (h : ∃ c t, Presents a c t) :
    ∃ b, step P a f = some b ∧ ∃ c t, Presents b c t := by
  obtain ⟨c, t, ht⟩ := h
  obtain ⟨b, hstep, -⟩ := step_follows (P := P) ht.toFollows f
  exact ⟨b, hstep, _, step_presents ht hstep⟩

/-- A run leads to a state that presents some client. -/
theorem run_presents (P : Platform) (fs : List Frame) :
    ∃ a, run (step P) App.start fs = some a ∧ ∃ c t, Presents a c t := by
  exact run_invariant (step_exists_presents P) ⟨_, _, start_presents⟩ fs

/-- **What a run draws is what the client shows**: no frame of a run looks at a list that does not
exist, the views of the pictures with which its frames end (title, labels and highlight) are those
of the podcast client on the gestures of the frames, and it ends in the state of the client. -/
theorem run_pictures (P : Platform) (fs : List Frame) :
    ∃ a pictures, trace (App.frame P) App.start fs = some (a, pictures) ∧
      pictures.map Screen.Picture.view =
        seen Client.next Client.view {} (fs.map (Frame.gesture P)) ∧
      ∃ t, Presents a ((fs.map (Frame.gesture P)).foldl Client.next {}) t := by
  obtain ⟨a, pictures, htrace, hpresents, hviews⟩ :=
    (frame_simulates P).trace ⟨_, start_presents⟩ fs
  exact ⟨a, pictures, htrace, hviews, hpresents⟩

end Stepping

end Analysis

end PsCast
