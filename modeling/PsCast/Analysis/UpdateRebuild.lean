import PsCast.Analysis.FeedOutcome
import PsCast.Analysis.FeedFile

/-!
# What an update makes of the lists

`App::updatePodcastsList` in closed form (`updatePodcastsList_eq`): the old episode lists
are gone, the new ones are the next objects allocated, and the entries of `podcast_list`
lead to them one by one. With the loop over the feeds this gives the state after
`App::updateFromFeedFile` (`updateFromFeedFile_eq`), and with it that the podcast menu is
rebuilt from the successful feeds exactly when no failed transfer leaves a body that the
parser accepts.
-/

set_option autoImplicit false

namespace PsCast

/-- What the application owns exists: `podcast_list`, and each list of the vector, which
came from an allocation and is held once. -/
structure App.Owned (a : App) : Prop where
  podcastList : ∃ pl, a.lists .podcastList = some pl
  live : ∀ l ∈ a.podcastEpisodesLists, ∃ ml, a.lists l = some ml
  allocated : ∀ l ∈ a.podcastEpisodesLists, ∃ n, n < a.allocated ∧ l = .episodes n
  nodup : a.podcastEpisodesLists.Nodup

namespace App

/-- The lists that an update allocates for `n` podcasts, when `k` had been allocated before. -/
def newIds (k n : ℕ) : List ListId := (List.range' k n).map .episodes

/-- The entries of `podcast_list` for podcasts whose lists are allocated from `k` on. -/
def newEntries (k : ℕ) (ps : List Podcast) : List MenuEntry :=
  ps.mapIdx fun i p => { label := p.name, callback := some (.goToList (.episodes (k + i))) }

/-- The lists allocated for podcasts from `k` on. -/
def newLists (k : ℕ) (ps : List Podcast) : Lists
  | .episodes n => if k ≤ n then ps[n - k]?.map fun p => (episodesOf p).copy else none
  | _ => none

/-- The state after `updatePodcastsList ps`, where `pl` was the object `podcast_list`. -/
def rebuilt (a : App) (ps : List Podcast) (pl : MenuList) : App :=
  { a with
    lists := fun l =>
      if l = .podcastList then some { pl with entries := newEntries a.allocated ps }
      else (newLists a.allocated ps l).or
        (if l ∈ a.podcastEpisodesLists then none else a.lists l)
    allocated := a.allocated + ps.length
    podcastEpisodesLists := newIds a.allocated ps.length }

end App

namespace Analysis

open App

/-! ## The two loops of `updatePodcastsList` -/

/-- Deleting lists that exist, each once, leaves the other ones. -/
theorem foldlM_deleteList (ls : List ListId) (a : App) (hlive : ∀ l ∈ ls, ∃ ml, a.lists l = some ml)
    (hnodup : ls.Nodup) :
    ls.foldlM deleteList a =
      some { a with lists := fun l => if l ∈ ls then none else a.lists l } := by
  induction ls generalizing a with
  | nil => simp
  | cons l rest ih =>
    obtain ⟨ml, hml⟩ := hlive l List.mem_cons_self
    obtain ⟨hnot, hrest⟩ := List.nodup_cons.mp hnodup
    have hdelete : deleteList a l = some { a with lists := Function.update a.lists l none } := by
      simp [deleteList, hml]
    have hlive' : ∀ l' ∈ rest, ∃ ml, Function.update a.lists l none l' = some ml := by
      intro l' hl'
      have hne : l' ≠ l := fun heq => hnot (heq ▸ hl')
      rw [Function.update_of_ne hne]
      exact hlive l' (List.mem_cons_of_mem _ hl')
    rw [List.foldlM_cons, hdelete, Option.bind_eq_bind, Option.bind_some, ih _ hlive' hrest]
    congr 3
    funext l'
    by_cases heq : l' = l
    · simp [heq]
    · simp [heq, Function.update_of_ne]

theorem newEntries_cons (k : ℕ) (p : Podcast) (ps : List Podcast) :
    newEntries k (p :: ps) =
      { label := p.name, callback := some (.goToList (.episodes k)) } :: newEntries (k + 1) ps := by
  unfold newEntries
  rw [List.mapIdx_cons]
  simp only [Nat.add_zero, Nat.add_assoc, Nat.add_comm 1]

theorem newIds_succ (k n : ℕ) : newIds k (n + 1) = .episodes k :: newIds (k + 1) n := by
  simp [newIds, List.range'_succ]

/-- Each entry has the name of its podcast for its label. -/
theorem newEntries_labels (k : ℕ) (ps : List Podcast) :
    (newEntries k ps).map MenuEntry.label = ps.map Podcast.name := by
  induction ps generalizing k with
  | nil => rfl
  | cons p ps ih => simp [newEntries_cons, ih]

/-- Each entry enters the list of its podcast. -/
theorem newEntries_callbacks (k : ℕ) (ps : List Podcast) :
    (newEntries k ps).map MenuEntry.callback =
      (newIds k ps.length).map fun l => some (.goToList l) := by
  induction ps generalizing k with
  | nil => rfl
  | cons p ps ih => simp [newEntries_cons, newIds_succ, ih]

theorem newLists_cons (k : ℕ) (p : Podcast) (ps : List Podcast) (l : ListId) :
    newLists k (p :: ps) l =
      if l = .episodes k then some (episodesOf p).copy else newLists (k + 1) ps l := by
  cases l with
  | episodes n =>
    simp only [newLists, ListId.episodes.injEq]
    rcases Nat.lt_trichotomy n k with hlt | rfl | hgt
    · have h₁ : ¬ k ≤ n := by omega
      have h₂ : ¬ k + 1 ≤ n := by omega
      have h₃ : n ≠ k := by omega
      simp [h₁, h₂, h₃]
    · simp
    · have h₁ : k ≤ n := by omega
      have h₂ : k + 1 ≤ n := by omega
      have h₃ : n ≠ k := by omega
      have h₄ : n - k = n - (k + 1) + 1 := by omega
      simp [h₁, h₂, h₃, h₄]
  | _ => simp [newLists]

/-- One podcast gets a list of its episodes and an entry that enters it. -/
theorem addPodcast_eq (a : App) (p : Podcast) (pl : MenuList)
    (hpl : a.lists .podcastList = some pl) :
    addPodcast a p = some { a with
      lists := Function.update (Function.update a.lists (.episodes a.allocated)
        (some (episodesOf p).copy)) .podcastList
        (some { pl with entries := pl.entries ++
          [{ label := p.name, callback := some (.goToList (.episodes a.allocated)) }] })
      allocated := a.allocated + 1
      podcastEpisodesLists := a.podcastEpisodesLists ++ [.episodes a.allocated] } := by
  simp [addPodcast, Function.update, hpl, Screen.setList, MenuList.append]

/-- The loop over the podcasts adds all of their lists and entries. -/
theorem foldlM_addPodcast (ps : List Podcast) (a : App) (pl : MenuList)
    (hpl : a.lists .podcastList = some pl) :
    ps.foldlM addPodcast a = some { a with
      lists := fun l =>
        if l = .podcastList then some { pl with entries := pl.entries ++ newEntries a.allocated ps }
        else (newLists a.allocated ps l).or (a.lists l)
      allocated := a.allocated + ps.length
      podcastEpisodesLists := a.podcastEpisodesLists ++ newIds a.allocated ps.length } := by
  induction ps generalizing a pl with
  | nil =>
    have hlists : (fun l => if l = .podcastList then some pl else a.lists l) = a.lists := by
      funext l
      by_cases hl : l = .podcastList <;> simp [hl, hpl]
    have hnone : ∀ l, newLists a.allocated [] l = none := by
      intro l
      cases l <;> simp [newLists]
    simp [newEntries, newIds, hnone, hlists]
  | cons p ps ih =>
    rw [List.foldlM_cons, addPodcast_eq a p pl hpl, Option.bind_eq_bind, Option.bind_some]
    rw [ih _ { pl with entries := pl.entries ++
      [{ label := p.name, callback := some (.goToList (.episodes a.allocated)) }] } (by simp)]
    congr 2
    · congr 1
      funext l
      by_cases hl : l = .podcastList
      · simp [hl, newEntries_cons]
      · simp only [hl, if_false, Function.update_of_ne hl, newLists_cons]
        by_cases hnew : l = .episodes a.allocated
        · have hlater : newLists (a.allocated + 1) ps (.episodes a.allocated) = none := by
            have hnot : ¬ a.allocated + 1 ≤ a.allocated := by omega
            simp only [newLists, hnot, if_false]
          simp [hnew, hlater]
        · simp [hnew]
    · simp [newIds_succ]
    · simp only [List.length_cons]
      omega

/-- **`updatePodcastsList` in closed form.** -/
theorem updatePodcastsList_eq (ps : List Podcast) (a : App) (h : a.Owned) (pl : MenuList)
    (hpl : a.lists .podcastList = some pl) : updatePodcastsList ps a = some (rebuilt a ps pl) := by
  have hne : ∀ l ∈ a.podcastEpisodesLists, l ≠ .podcastList := by
    intro l hl
    obtain ⟨n, -, rfl⟩ := h.allocated l hl
    simp
  have hlive : ∀ l ∈ a.podcastEpisodesLists,
      ∃ ml, Function.update a.lists .podcastList (some pl.clear) l = some ml := by
    intro l hl
    rw [Function.update_of_ne (hne l hl)]
    exact h.live l hl
  have hnot : ListId.podcastList ∉ a.podcastEpisodesLists := fun hmem => hne _ hmem rfl
  unfold updatePodcastsList
  simp only [hpl, Option.bind_eq_bind, Option.bind_some, Screen.setList]
  rw [foldlM_deleteList _ _ hlive h.nodup, Option.bind_some]
  rw [foldlM_addPodcast ps _ pl.clear (by simp [hnot])]
  congr 2
  · congr 1
    funext l
    by_cases hl : l = .podcastList
    · simp [hl, MenuList.clear]
    · simp [hl]

/-! ## The whole update -/

/-- Without a line an update fails, and changes only what reading the file changes. -/
theorem updateFromFeedFile_nil (P : Platform) (fd : IoRead) (net : ℕ → Transfer) (a : App)
    (h : feedLines fd a = []) :
    updateFromFeedFile P fd net a = some (-1, withFeedFile fd a) := by
  unfold updateFromFeedFile
  rw [updateFeedFile_eq]
  simp [h, App.ok]

/-- **The whole update**: the lists are rebuilt from the podcasts of the kept feeds. -/
theorem updateFromFeedFile_eq (P : Platform) (fd : IoRead) (net : ℕ → Transfer) (a : App)
    (hshown : a.toScreen.Shown) (howned : a.Owned) (pl : MenuList)
    (hpl : a.lists .podcastList = some pl) (h : feedLines fd a ≠ []) :
    ∃ m ps, ps = storedPodcasts (keptFeeds P (outcomes net 0 (feedLines fd a))) ∧
      updateFromFeedFile P fd net a =
        some (App.ok, rebuilt ((withPodcasts (withFeedFile fd a) ps).withStatus m) ps pl) := by
  obtain ⟨m, hloop⟩ := downloadFeeds_eq P net 0 (feedLines fd a)
    (withPodcasts (withFeedFile fd a) []) hshown
  refine ⟨m, _, rfl, ?_⟩
  unfold updateFromFeedFile
  rw [updateFeedFile_eq]
  simp only [h, if_false, ne_eq, not_true_eq_false, Option.bind_eq_bind]
  change ((downloadFeeds P net 0 (feedLines fd a) (withPodcasts (withFeedFile fd a) [])).bind _) = _
  rw [hloop, Option.bind_some]
  have hlist := updatePodcastsList_eq
    (storedPodcasts (keptFeeds P (outcomes net 0 (feedLines fd a))))
    ((withPodcasts (withFeedFile fd a)
      (storedPodcasts (keptFeeds P (outcomes net 0 (feedLines fd a))))).withStatus m)
    ⟨howned.podcastList, howned.live, howned.allocated, howned.nodup⟩ pl hpl
  exact congrArg (Option.bind · fun b => some (App.ok, b)) hlist

/-! ## The podcast menu is rebuilt -/

/-- The feed of a transfer that did not fail and whose body the parser accepts. -/
def successfulFeed (P : Platform) (url : Bytes) (t : Transfer) : Option Feed :=
  if t.Failed (isHttps url) then none else acceptedFeed P url t

/-- The successful feeds of an update, in the order of the feed file. Each is decided by its
own line and its own transfer. -/
def successfulFeeds (P : Platform) (feeds : List (Bytes × Transfer)) : List Feed :=
  feeds.filterMap fun feed => successfulFeed P feed.1 feed.2

/-- The state with the list `l` shown and its cursor at `index`. -/
def showingAt (a : App) (l : ListId) (index : ℕ) : App :=
  { a with
    menu := { a.menu with menuList := some l, currentList := some l }
    lists := Function.update a.lists l ((a.lists l).map fun ml => { ml with index := index }) }

/-- A frame in which the accept button is triggered and the cursor keys are not. -/
def PressesAccept (a : App) (f : Frame) : Prop :=
  triggered f.pressedButtons a.menu.acceptButton = true ∧
    triggered f.pressedButtons sceCtrlDown = false ∧ triggered f.pressedButtons sceCtrlUp = false

/-- The podcast menu of `b` is that of `feeds`, one element for each, in order: the podcasts,
the titles in `podcast_list`, the titles in the episode lists, and the list that each entry
enters. Nothing of the lists that `a` owned is left. -/
structure RebuiltFrom (P : Platform) (feeds : List Feed) (a b : App) : Prop where
  podcasts : b.podcasts = storedPodcasts feeds
  entries : ∃ pl, b.lists .podcastList = some pl ∧
    pl.entries.map MenuEntry.label = feeds.map Feed.title
  count : b.podcastEpisodesLists.length = feeds.length
  episodes : ∀ (i : ℕ) (feed : Feed), feeds[i]? = some feed →
    ∃ l ml, b.podcastEpisodesLists[i]? = some l ∧ b.lists l = some ml ∧
      ml.entries.map MenuEntry.label = feed.items.map Item.title
  accept : ∀ (i : ℕ) (l : ListId) (f : Frame), b.podcastEpisodesLists[i]? = some l →
    PressesAccept b f →
    ∃ c, step P (showingAt b .podcastList i) f = some c ∧
      c.menu.menuList = some l ∧ c.menu.currentList = some l
  old : ∀ l ∈ a.podcastEpisodesLists, l ∉ b.podcastEpisodesLists ∧ b.lists l = none

/-- The list built for a podcast has an entry with the name of each episode and nothing else. -/
theorem episodesOf_eq (p : Podcast) :
    episodesOf p =
      { entries := p.episodes.map fun e => { label := e.name, callback := none } } := by
  have hloop : ∀ (es : List Episode) (ml : MenuList),
      es.foldl (fun episodes e => episodes.append { label := e.name, callback := none }) ml =
        { ml with
          entries := ml.entries ++ es.map fun e => { label := e.name, callback := none } } := by
    intro es
    induction es with
    | nil => simp
    | cons e es ih =>
      intro ml
      rw [List.foldl_cons, ih]
      simp [MenuList.append]
  exact hloop p.episodes {}

/-- The lists are allocated in the order of the podcasts. -/
theorem newIds_getElem? (k n i : ℕ) (h : i < n) : (newIds k n)[i]? = some (.episodes (k + i)) := by
  simp [newIds, h]

/-- The `i`-th list holds the episodes of the `i`-th podcast. -/
theorem newLists_episodes (k : ℕ) (ps : List Podcast) (i : ℕ) :
    newLists k ps (.episodes (k + i)) = ps[i]?.map fun p => (episodesOf p).copy := by
  simp [newLists]

/-- The lists allocated are those with the next numbers. -/
theorem mem_newIds {k n : ℕ} {l : ListId} :
    l ∈ newIds k n ↔ ∃ i, i < n ∧ l = .episodes (k + i) := by
  simp only [newIds, List.mem_map, List.mem_range'_1]
  constructor
  · rintro ⟨m, ⟨hlo, hhi⟩, rfl⟩
    exact ⟨m - k, by omega, by rw [Nat.add_sub_cancel' hlo]⟩
  · rintro ⟨i, hi, rfl⟩
    exact ⟨k + i, ⟨by omega, by omega⟩, rfl⟩

/-- Accepting an entry of the rebuilt `podcast_list` enters the list allocated for it. -/
theorem rebuilt_accept (P : Platform) (a : App) (ps : List Podcast) (pl : MenuList) (i : ℕ)
    (hi : i < ps.length) (f : Frame) (hf : PressesAccept (rebuilt a ps pl) f) :
    ∃ c, step P (showingAt (rebuilt a ps pl) .podcastList i) f = some c ∧
      c.menu.menuList = some (.episodes (a.allocated + i)) ∧
      c.menu.currentList = some (.episodes (a.allocated + i)) := by
  obtain ⟨haccept, hdown, hup⟩ := hf
  set ml : MenuList := { pl with entries := newEntries a.allocated ps, index := i } with hmldef
  set b := showingAt (rebuilt a ps pl) .podcastList i with hb
  have hml : b.lists .podcastList = some ml := by simp [hb, showingAt, rebuilt, hmldef]
  have hcursor : cursorAfter f ml = i := by simp [cursorAfter, hdown, hup, hmldef]
  have hentry : (ml.atIndex i).callback = some (.goToList (.episodes (a.allocated + i))) := by
    simp [MenuList.atIndex, hmldef, newEntries, hi]
  have hselected : selected f b.menu ml i =
      some (.owner (.goToList (.episodes (a.allocated + i)))) := by
    have haccept' : triggered f.pressedButtons b.menu.acceptButton = true := haccept
    simp [selected, haccept', hentry]
  have hlist : ((b.atFrame f).setCursor .podcastList ml i).lists (.episodes (a.allocated + i)) =
      some (episodesOf ps[i]).copy := by
    simp [App.setCursor, App.atFrame, hb, showingAt, rebuilt, newLists_episodes, hi]
  set c := ((b.atFrame f).setCursor .podcastList ml i) with hc
  have hrun : runIfSet P f c (selected f b.menu ml i) =
      some (c.withScreen
        (c.toScreen.entered (.episodes (a.allocated + i)) (episodesOf ps[i]).copy)) := by
    rw [hselected]
    simp [runIfSet, runMenuCallback, runCallback, goToList_eq hlist, App.withScreen]
  refine ⟨_, step_of_run rfl hml (by rw [hcursor]; exact hrun) ?_, rfl, rfl⟩
  exact ⟨.episodes (a.allocated + i), _, rfl, Function.update_self ..⟩

/-- The state that an update rebuilds from the podcasts of `feeds` is the podcast menu of
`feeds`. -/
theorem rebuilt_rebuiltFrom (P : Platform) (feeds : List Feed) (a b : App) (pl : MenuList)
    (howned : a.Owned) (hlists : b.podcastEpisodesLists = a.podcastEpisodesLists)
    (halloc : b.allocated = a.allocated) (hpodcasts : b.podcasts = storedPodcasts feeds) :
    RebuiltFrom P feeds a (rebuilt b (storedPodcasts feeds) pl) where
  podcasts := hpodcasts
  entries := by
    refine ⟨_, rfl, ?_⟩
    simp [newEntries_labels, storedPodcasts, Podcast.copy, Podcast.ofFeed]
  count := by simp [rebuilt, newIds, storedPodcasts]
  episodes i feed hfeed := by
    obtain ⟨hi, rfl⟩ := List.getElem?_eq_some_iff.mp hfeed
    have hlength : i < (storedPodcasts feeds).length := by simpa [storedPodcasts] using hi
    refine ⟨.episodes (b.allocated + i), (episodesOf (storedPodcasts feeds)[i]).copy, ?_, ?_, ?_⟩
    · exact newIds_getElem? _ _ i hlength
    · simp [rebuilt, newLists_episodes, hlength]
    · simp [MenuList.copy, episodesOf_eq, storedPodcasts, Podcast.copy, Podcast.ofFeed,
        Podcast.episodeOf]
  accept i l f hl hf := by
    have hi : i < (storedPodcasts feeds).length := by
      have hi' := (List.getElem?_eq_some_iff.mp hl).1
      simpa [rebuilt, newIds] using hi'
    have hid := newIds_getElem? b.allocated (storedPodcasts feeds).length i hi
    obtain rfl : l = .episodes (b.allocated + i) := Option.some.inj (hl.symm.trans hid)
    exact rebuilt_accept P b (storedPodcasts feeds) pl i hi f hf
  old l hl := by
    obtain ⟨n, hn, rfl⟩ := howned.allocated l hl
    have hnew : newLists b.allocated (storedPodcasts feeds) (.episodes n) = none := by
      have hlt : ¬ a.allocated ≤ n := by omega
      simp [newLists, halloc, hlt]
    constructor
    · intro hmem
      obtain ⟨i, -, heq⟩ := mem_newIds.mp hmem
      have := ListId.episodes.inj heq
      omega
    · simp [rebuilt, hnew, hlists, hl]

/-- Two filters by functions that agree where the first is defined yield equally many
elements only if they agree everywhere. -/
theorem filterMap_length_eq {α β : Type} (f g : α → Option β) (l : List α)
    (hle : ∀ x, f x = none ∨ f x = g x)
    (hlength : (l.filterMap f).length = (l.filterMap g).length) :
    ∀ x ∈ l, f x = g x := by
  have hmono : ∀ l : List α, (l.filterMap f).length ≤ (l.filterMap g).length := by
    intro l
    induction l with
    | nil => simp
    | cons x rest ih =>
      rcases hle x with hx | hx
      · rw [List.filterMap_cons_none hx]
        cases hg : g x <;> simp [hg] <;> omega
      · cases hg : g x <;> simp [hx, hg, ih]
  induction l with
  | nil => simp
  | cons x rest ih =>
    have hrest := hmono rest
    have hx : f x = g x := by
      rcases hle x with hx | hx
      · cases hg : g x with
        | none => exact hx
        | some y =>
          simp only [List.filterMap_cons, hx, hg, List.length_cons] at hlength
          omega
      · exact hx
    have htail : (rest.filterMap f).length = (rest.filterMap g).length := by
      cases hg : g x <;> simpa [List.filterMap_cons, hx, hg] using hlength
    intro y hy
    rcases List.mem_cons.mp hy with rfl | hy
    · exact hx
    · exact ih htail y hy

/-- After an update that read a feed line, the podcast menu is that of the successful feeds
exactly when no transfer failed and left a body that the parser accepts. -/
theorem updateFromFeedFile_rebuilds_iff (P : Platform) (fd : IoRead) (net : ℕ → Transfer)
    (a : App) (hcopies : P.returnCopies = 0) (hshown : a.toScreen.Shown) (howned : a.Owned)
    (hlines : feedLines fd a ≠ []) :
    ∃ b, updateFromFeedFile P fd net a = some (App.ok, b) ∧
      (RebuiltFrom P (successfulFeeds P (outcomes net 0 (feedLines fd a))) a b ↔
        ∀ feed ∈ outcomes net 0 (feedLines fd a),
          ¬ (feed.2.Failed (isHttps feed.1) ∧ feed.2.received (isHttps feed.1) ≠ [] ∧
            P.feedpp (feed.2.received (isHttps feed.1)) ≠ none)) := by
  obtain ⟨pl, hpl⟩ := howned.podcastList
  obtain ⟨m, ps, hps, hupdate⟩ := updateFromFeedFile_eq P fd net a hshown howned pl hpl hlines
  refine ⟨_, hupdate, ?_⟩
  set feeds := outcomes net 0 (feedLines fd a) with hfeeds
  have hkept : ∀ feed : Bytes × Transfer,
      keptFeed P feed.1 feed.2 = acceptedFeed P feed.1 feed.2 := by
    intro feed
    simp [keptFeed, hcopies]
  have hsuccessful : ∀ feed : Bytes × Transfer, successfulFeed P feed.1 feed.2 = none ∨
      successfulFeed P feed.1 feed.2 = keptFeed P feed.1 feed.2 := by
    intro feed
    rw [hkept]
    unfold successfulFeed
    split <;> simp
  have hagree : ∀ feed : Bytes × Transfer,
      successfulFeed P feed.1 feed.2 = keptFeed P feed.1 feed.2 ↔
        ¬ (feed.2.Failed (isHttps feed.1) ∧ feed.2.received (isHttps feed.1) ≠ [] ∧
          P.feedpp (feed.2.received (isHttps feed.1)) ≠ none) := by
    intro feed
    rw [hkept]
    unfold successfulFeed acceptedFeed
    by_cases hfailed : feed.2.Failed (isHttps feed.1)
    · by_cases hempty : feed.2.received (isHttps feed.1) = []
      · simp [hempty]
      · simp only [hfailed, hempty, if_true, if_false, ne_eq, not_false_eq_true, true_and, not_not]
        exact eq_comm
    · simp [hfailed]
  constructor
  -- as many podcasts as successful feeds, so no other feed was kept
  · intro h feed hfeed
    have hlength : (successfulFeeds P feeds).length = (keptFeeds P feeds).length := by
      have hcount := congrArg List.length h.podcasts
      rw [show (rebuilt _ ps pl).podcasts = ps from rfl, hps] at hcount
      simpa [storedPodcasts] using hcount.symm
    rw [← hagree]
    exact filterMap_length_eq _ _ feeds hsuccessful hlength feed hfeed
  · intro h
    have heq : successfulFeeds P feeds = keptFeeds P feeds :=
      List.filterMap_congr fun feed hfeed => (hagree feed).mpr (h feed hfeed)
    rw [heq, hps]
    exact rebuilt_rebuiltFrom P _ a _ pl howned rfl rfl rfl

/-- The start over a feed file of one line. -/
def oneFeed : App := startOver (lit "u\n")

theorem oneFeed_shown : oneFeed.toScreen.Shown := startOver_shown _

theorem oneFeed_owned : oneFeed.Owned where
  podcastList := ⟨App.podcastListInit, rfl⟩
  live _ hl := absurd hl List.not_mem_nil
  allocated _ hl := absurd hl List.not_mem_nil
  nodup := List.nodup_nil

/-- A state that stores a podcast without episodes, over a feed file of three lines. -/
def stocked : App :=
  { startOver (lit "http://a\nhttp://b\nhttp://c\n") with
    lists := Function.update App.start.lists (.episodes 0) (some {})
    podcasts := [{ name := lit "Old" }]
    podcastEpisodesLists := [.episodes 0]
    allocated := 1 }

theorem stocked_shown : stocked.toScreen.Shown := ⟨.mainMenuList, _, rfl, rfl⟩

theorem stocked_owned : stocked.Owned where
  podcastList := ⟨App.podcastListInit, rfl⟩
  live l hl := by
    obtain rfl := List.mem_singleton.mp hl
    exact ⟨{}, rfl⟩
  allocated l hl := ⟨0, Nat.zero_lt_one, List.mem_singleton.mp hl⟩
  nodup := by decide

/-- The page of the first feed. -/
def firstPage : Bytes :=
  lit "<rss version=\"2.0\"><channel><title>A</title><item><title>A1</title></item>" ++
  lit "<item><title>A2</title></item></channel></rss>"

/-- The page of the third feed. -/
def thirdPage : Bytes :=
  lit "<rss version=\"2.0\"><channel><title>C</title><item><title>C1</title></item>" ++
  lit "</channel></rss>"

/-- The first feed, with two items. -/
def firstFeed : Feed :=
  { title := lit "A", items := [{ title := lit "A1" }, { title := lit "A2" }] }

/-- The third feed, with one. -/
def thirdFeed : Feed := { title := lit "C", items := [{ title := lit "C1" }] }

/-- A parser that knows these two pages. -/
def twoFeeds : Platform :=
  { feedpp := fun buffer =>
      if buffer = firstPage then some firstFeed
      else if buffer = thirdPage then some thirdFeed
      else none
    imeDialogButtonClose := 1
    imeDialogMaxTextLength := 512 }

/-- The second of three transfers fails before the first chunk. -/
def secondFails : ℕ → Transfer
  | 0 => { chunks := [firstPage], nonempty := by decide }
  | 1 => { chunks := [], ended := -1, nonempty := by decide }
  | _ => { chunks := [thirdPage], nonempty := by decide }

/-- Three feeds, the second of which fails, over a stored podcast: the other two are listed, and
nothing old is left. -/
theorem updateFromFeedFile_rebuilds_stocked :
    ∃ b, updateFromFeedFile twoFeeds 1 secondFails stocked = some (App.ok, b) ∧
      RebuiltFrom twoFeeds [firstFeed, thirdFeed] stocked b := by
  obtain ⟨b, hupdate, hrebuilt⟩ := updateFromFeedFile_rebuilds_iff twoFeeds 1 secondFails stocked
    rfl stocked_shown stocked_owned (by decide)
  have hfeeds : successfulFeeds twoFeeds (outcomes secondFails 0 (feedLines 1 stocked)) =
      [firstFeed, thirdFeed] := by decide
  rw [hfeeds] at hrebuilt
  exact ⟨b, hupdate, hrebuilt.mpr (by decide)⟩

/-- The podcast of a feed whose download was cut off is in the menu. -/
theorem not_updateFromFeedFile_rebuilds :
    ¬ (∀ (P : Platform) (fd : ℤ) (net : ℕ → Transfer) (a : App), P.returnCopies = 0 →
      a.toScreen.Shown → a.Owned → feedLines fd a ≠ [] →
      ∃ b, updateFromFeedFile P fd net a = some (App.ok, b) ∧
        RebuiltFrom P (successfulFeeds P (outcomes net 0 (feedLines fd a))) a b) := by
  intro h
  obtain ⟨b, hupdate, hrebuilt⟩ := h lenient 1 (fun _ => truncated) oneFeed rfl oneFeed_shown
    oneFeed_owned (by decide)
  have hone : (updateFromFeedFile lenient (1 : ℤ) (fun _ => truncated) oneFeed).map
      (fun r => r.2.podcasts.length) = some 1 := by decide
  have hnone : (successfulFeeds lenient
      (outcomes (fun _ => truncated) 0 (feedLines (1 : ℤ) oneFeed))).length = 0 := by decide
  rw [hupdate, Option.map_some, hrebuilt.podcasts, storedPodcasts, List.length_map, hnone] at hone
  exact absurd hone (by decide)

end Analysis

end PsCast
