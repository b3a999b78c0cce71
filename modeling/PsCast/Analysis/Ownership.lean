import PsCast.Analysis.Stored

/-!
# What the menu owns

The lists of episodes are allocated and deleted by hand. In every reachable state the menu
is that of the stored podcasts (`MenuOf`): one list for each of them, the one that its
entry enters, and no other list is left in memory (`run_menuOf`). So nothing leaks. The
destructor deletes these lists once each, and then its menu deletes a list that is gone
(`run_destroy`).
-/

set_option autoImplicit false

namespace PsCast

open App Library Library.History

/-- The entry of `podcast_list` for a podcast whose episodes are in `l`. -/
def App.entryFor (p : Podcast) (l : ListId) : MenuEntry :=
  { label := p.name, callback := some (.goToList l) }

/-- `podcast_list` and the episode lists are those of the stored podcasts, in order, and of the
lists that were allocated exactly these exist, each held once. -/
structure App.MenuOf (a : App) : Prop where
  count : a.podcastEpisodesLists.length = a.podcasts.length
  entries : a.toScreen.entriesOf .podcastList =
    some (List.zipWith entryFor a.podcasts a.podcastEpisodesLists)
  episodes : ∀ (i : ℕ) (p : Podcast) (l : ListId), a.podcasts[i]? = some p →
    a.podcastEpisodesLists[i]? = some l →
    a.toScreen.entriesOf l = some (p.episodes.map fun e => { label := e.name })
  allocated : ∀ n, (∃ ml, a.lists (.episodes n) = some ml) ↔ .episodes n ∈ a.podcastEpisodesLists
  nodup : a.podcastEpisodesLists.Nodup

namespace Analysis

/-! ## The menu of the podcasts -/

section Stepping

variable {P : Platform} {f : Frame} {a b : App} {t : Trail ListId}

/-- A list exists exactly if it has entries, perhaps none. -/
theorem exists_iff_entriesOf {s : Screen} {l : ListId} :
    (∃ ml, s.lists l = some ml) ↔ ∃ es, s.entriesOf l = some es := by
  unfold Screen.entriesOf
  cases s.lists l <;> simp

/-- Nothing but the entries, the podcasts and the vector of lists matters. -/
theorem menuOf_congr (h : a.MenuOf) (hentries : b.toScreen.entriesOf = a.toScreen.entriesOf)
    (hpodcasts : b.podcasts = a.podcasts)
    (hlists : b.podcastEpisodesLists = a.podcastEpisodesLists) : b.MenuOf where
  count := by rw [hlists, hpodcasts]; exact h.count
  entries := by rw [hentries, hlists, hpodcasts]; exact h.entries
  episodes := by rw [hentries, hlists, hpodcasts]; exact h.episodes
  allocated n := by
    rw [exists_iff_entriesOf, hentries, hlists, ← exists_iff_entriesOf]
    exact h.allocated n
  nodup := by rw [hlists]; exact h.nodup

/-- The entries of an update, one for each podcast and the list allocated for it. -/
theorem newEntries_eq_zipWith (k : ℕ) (ps : List Podcast) :
    newEntries k ps = List.zipWith entryFor ps (newIds k ps.length) := by
  induction ps generalizing k with
  | nil => rfl
  | cons p ps ih =>
    rw [newEntries_cons, List.length_cons, newIds_succ, List.zipWith_cons_cons, ih]
    rfl

/-- An update rebuilds the menu from the podcasts that it stored. -/
theorem rebuilt_menuOf (h : Furnished a) {ps : List Podcast} (hps : a.podcasts = ps)
    (pl : MenuList) : (rebuilt a ps pl).MenuOf where
  count := by
    show (newIds a.allocated ps.length).length = a.podcasts.length
    simp [newIds, hps]
  entries := by
    show some (newEntries a.allocated ps) =
      some (List.zipWith entryFor a.podcasts (newIds a.allocated ps.length))
    rw [newEntries_eq_zipWith, hps]
  episodes i p l hp hl := by
    have hi : i < ps.length := hps ▸ (List.getElem?_eq_some_iff.mp hp).1
    have hid := newIds_getElem? a.allocated ps.length i hi
    obtain rfl : l = .episodes (a.allocated + i) := Option.some.inj (hl.symm.trans hid)
    have hp' : ps[i]? = some p := hps ▸ hp
    rw [Screen.entriesOf, rebuilt_lists_episodes h, newLists_episodes, hp', Option.map_some,
      episodesOf_eq]
    rfl
  allocated n := by
    have hiff := (rebuilt_furnished h ps pl).exists_iff_known (.episodes n)
    rw [hiff]
    simp [Known]
  nodup := newIds_nodup a.allocated ps.length

/-- Each thing that a frame can do keeps the menu, as long as nothing but an update that read a
line replaces the podcasts. -/
theorem Outcome.menuOf {callback : Option MenuCallback} (h : Follows a t) (hmenu : a.MenuOf)
    (hpodcasts : ¬ (callback = some (.owner .updateFromFeedFile) ∧ feedLines f.fdRead a ≠ []) →
      b.podcasts = a.podcasts)
    (ho : Outcome P f t a callback b) : b.MenuOf := by
  have hquiet : Quiet a b → b.podcasts = a.podcasts → b.MenuOf := by
    rintro ⟨hlists, hepisodes, -, -⟩ hsame
    apply menuOf_congr hmenu _ hsame hepisodes
    funext l
    rw [Screen.entriesOf, hlists]
    rfl
  cases ho with
  | nothing => exact hmenu
  | entered l ml hml hl hplace => exact menuOf_congr hmenu (entriesOf_update _ hml rfl) rfl rfl
  | appended b hb => exact hquiet hb (hpodcasts fun h => by cases h.1)
  | unread b hb hlines => exact hquiet hb (hpodcasts fun h => h.2 hlines)
  | updated m pl hpl hpath hlines =>
    exact rebuilt_menuOf (read_follows h f _ m).toFurnished rfl pl
  | left parent rest ml hml hpath => exact menuOf_congr hmenu (entriesOf_update _ hml rfl) rfl rfl
  | idle hidle => exact hmenu

/-- A frame keeps the menu that of the stored podcasts. -/
theorem step_menuOf (h : Follows a t) (hmenu : a.MenuOf) (hstep : step P a f = some b) :
    b.MenuOf := by
  obtain ⟨shown, ml, hhead, hml, houtcome⟩ := outcome_of_step h hstep
  have hmoved : ((a.atFrame f).setCursor shown ml (cursorAfter f ml)).MenuOf :=
    menuOf_congr hmenu (entriesOf_update a.menu hml rfl) rfl rfl
  apply houtcome.menuOf (setCursor_follows h hml _) hmoved
  intro hnoupdate
  exact (step_stored h hstep).podcasts.trans (if_neg hnoupdate)

/-- At the start no podcast is stored and the podcasts list is empty. -/
theorem start_menuOf : App.start.MenuOf where
  count := rfl
  entries := rfl
  episodes i p l hp := by cases hp
  allocated n := by
    constructor
    · rintro ⟨ml, hml⟩
      cases hml
    · intro hmem
      cases hmem
  nodup := List.nodup_nil

/-- Every run leads to a state whose menu is that of its podcasts. -/
theorem run_exists_menuOf (P : Platform) (fs : List Frame) :
    ∃ a, run (step P) App.start fs = some a ∧ (∃ t, Follows a t) ∧ a.MenuOf := by
  refine run_invariant ?_ ⟨⟨_, start_follows⟩, start_menuOf⟩ fs
  rintro a f ⟨⟨t, ht⟩, hmenu⟩
  obtain ⟨b, hstep, hb⟩ := step_follows (P := P) ht f
  exact ⟨b, hstep, ⟨_, hb⟩, step_menuOf ht hmenu hstep⟩

/-- **The menu owns exactly its podcasts**: every run is defined, and in the state it ends in
`podcast_list` and the episode lists are those of the stored podcasts, with no list of
episodes left over in memory. -/
theorem run_menuOf (P : Platform) (fs : List Frame) :
    ∃ a, run (step P) App.start fs = some a ∧ a.MenuOf := by
  obtain ⟨a, hrun, -, hmenu⟩ := run_exists_menuOf P fs
  exact ⟨a, hrun, hmenu⟩

end Stepping

/-! ## Destruction -/

/-- After the body of `~App` the lists of episodes are gone; the others are there. -/
theorem destroy_body {a : App} (h : Furnished a) :
    ∃ b, a.podcastEpisodesLists.foldlM deleteList a = some b ∧ b.menu = a.menu ∧
      (∀ n, b.lists (.episodes n) = none) ∧
      ∀ l, (∀ n, l ≠ .episodes n) → b.lists l = a.lists l := by
  refine ⟨_, foldlM_deleteList _ a h.owned.live h.nodup, rfl, ?_, ?_⟩
  · intro n
    show (if .episodes n ∈ a.podcastEpisodesLists then none else a.lists (.episodes n)) = none
    split
    · rfl
    · rename_i hnot
      cases hml : a.lists (.episodes n) with
      | none => rfl
      | some ml => exact absurd (h.live n ml.entries (by simp [Screen.entriesOf, hml])) hnot
  · intro l hl
    have hnot : l ∉ a.podcastEpisodesLists := by
      intro hmem
      obtain ⟨n, -, rfl⟩ := h.allocated l hmem
      exact hl n rfl
    exact if_neg hnot

/-- **Destruction**: in every reachable state the body of `~App` deletes the episode lists, once
each, and leaves none; and the destructor of the menu then deletes a list that is gone
already, whatever the menu shows. -/
theorem run_destroy (P : Platform) (fs : List Frame) :
    ∃ a, run (step P) App.start fs = some a ∧
      (∃ b, a.podcastEpisodesLists.foldlM deleteList a = some b ∧
        ∀ n, b.lists (.episodes n) = none) ∧
      a.destroy = none := by
  obtain ⟨a, hrun, t, h⟩ := run_follows P fs
  obtain ⟨b, hbody, hmenu, hgone, -⟩ := destroy_body h.toFurnished
  refine ⟨a, hrun, ⟨b, hbody, hgone⟩, ?_⟩
  obtain ⟨shown, ml, hhead, -⟩ := h.exists_shown
  have hshown : b.menu.menuList = some shown := hmenu ▸ h.shown.trans hhead
  unfold App.destroy
  rw [hbody]
  cases shown <;>
    simp [destroyMember, destroyMenu, deleteList, hshown, hgone, Function.update]

end Analysis

end PsCast
