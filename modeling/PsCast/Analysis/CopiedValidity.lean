import PsCast.Analysis.UpdateRebuild

/-!
# Validity and the copies of a podcast

A podcast is tested by `isValid` on its way into `App::podcasts`, and the copy constructor
leaves the flag behind. How often it is copied before the test is up to the compiler, and
how often after it is up to the vector. Every podcast stored was copied at least once, so
none is valid (`not_isValid_of_mem_reallocated`), and validity survives an update exactly
if no feed of it is accepted (`updateFromFeedFile_valid_iff`).
-/

set_option autoImplicit false

namespace PsCast

/-- The podcasts of a vector that copied its `i`-th element `moves i` times more when it grew. -/
def reallocated (moves : ℕ → ℕ) (podcasts : List Podcast) : List Podcast :=
  podcasts.mapIdx fun i p => p.copies (moves i)

/-- The platform with a compiler that leaves `n` copies in `return podcast`. -/
def Platform.returning (P : Platform) (n : ℕ) : Platform := { P with returnCopies := n }

/-- The labels of the entries. -/
def MenuList.labels (ml : MenuList) : List Bytes := ml.entries.map MenuEntry.label

/-- What the menu shows of the podcasts: the titles in `podcast_list` and the names in the
episode lists. -/
def App.shownPodcasts (a : App) : Option (List Bytes) × List (Option (List Bytes)) :=
  ((a.lists .podcastList).map MenuList.labels,
    a.podcastEpisodesLists.map fun l => (a.lists l).map MenuList.labels)

/-- After an update that returns `OK` every podcast is valid, and which podcasts are kept and
shown does not depend on the number of copies made, on the return path or by the vector. -/
structure ValiditySurvives (P : Platform) (fd : IoRead) (net : ℕ → Transfer) (a : App) : Prop where
  valid : ∀ n moves b, a.updateFromFeedFile (P.returning n) fd net = some (App.ok, b) →
    ∀ p ∈ reallocated moves b.podcasts, p.isValid = true
  same : ∀ n n' moves moves' b b',
    a.updateFromFeedFile (P.returning n) fd net = some (App.ok, b) →
    a.updateFromFeedFile (P.returning n') fd net = some (App.ok, b') →
    reallocated moves b.podcasts = reallocated moves' b'.podcasts ∧
      b.shownPodcasts = b'.shownPodcasts

namespace Analysis

open App

/-- **No stored podcast is valid**: the vector holds copies. -/
theorem not_isValid_of_mem_reallocated {moves : ℕ → ℕ} {feeds : List Feed} {p : Podcast}
    (hp : p ∈ reallocated moves (storedPodcasts feeds)) : p.isValid = false := by
  obtain ⟨i, hi, hcopies⟩ := List.mem_mapIdx.mp hp
  have hstored : ((storedPodcasts feeds)[i]).isValid = false := by
    simp [storedPodcasts, Podcast.copy]
  rw [← hcopies, copies_isValid, hstored, Bool.and_false]

/-- Growing the vector keeps the number of podcasts. -/
theorem length_reallocated (moves : ℕ → ℕ) (ps : List Podcast) :
    (reallocated moves ps).length = ps.length := List.length_mapIdx

/-- An update that returns `OK` rebuilds the lists from the podcasts of its kept feeds. -/
theorem updateFromFeedFile_ok {P : Platform} {fd : IoRead} {net : ℕ → Transfer} {a b : App}
    (hshown : a.toScreen.Shown) (howned : a.Owned) {pl : MenuList}
    (hpl : a.lists .podcastList = some pl)
    (hupdate : a.updateFromFeedFile P fd net = some (App.ok, b)) :
    ∃ m ps, ps = storedPodcasts (keptFeeds P (outcomes net 0 (feedLines fd a))) ∧
      b = rebuilt ((withPodcasts (withFeedFile fd a) ps).withStatus m) ps pl := by
  by_cases hlines : feedLines fd a = []
  · rw [updateFromFeedFile_nil P fd net a hlines] at hupdate
    exact absurd (Prod.mk.inj (Option.some.inj hupdate)).1 (by decide)
  · obtain ⟨m, ps, hps, hresult⟩ := updateFromFeedFile_eq P fd net a hshown howned pl hpl hlines
    refine ⟨m, ps, hps, ?_⟩
    rw [hresult] at hupdate
    exact (Prod.mk.inj (Option.some.inj hupdate)).2.symm

/-- An update keeps no feed, however often its podcast is copied, if none is kept uncopied. -/
theorem keptFeeds_returning_eq_nil {P : Platform} {feeds : List (Bytes × Transfer)}
    (h : ∀ feed ∈ feeds, acceptedFeed P feed.1 feed.2 = none) (n : ℕ) :
    keptFeeds (P.returning n) feeds = [] := by
  apply List.filterMap_eq_nil_iff.mpr
  intro feed hfeed
  have haccepted : acceptedFeed (P.returning n) feed.1 feed.2 = none := h feed hfeed
  rw [keptFeed, haccepted, ite_self]

/-- A feed is not accepted if nothing is left of its body, or if the parser throws on it. -/
theorem acceptedFeed_eq_none_iff (P : Platform) (url : Bytes) (t : Transfer) :
    acceptedFeed P url t = none ↔
      t.received (isHttps url) = [] ∨ P.feedpp (t.received (isHttps url)) = none := by
  rw [acceptedFeed, ite_eq_left_iff]
  exact or_iff_not_imp_left.symm

/-- **Validity survives** an update exactly if no feed leaves a body that the parser accepts,
so that there is no podcast to store. -/
theorem updateFromFeedFile_valid_iff (P : Platform) (fd : IoRead) (net : ℕ → Transfer) (a : App)
    (hshown : a.toScreen.Shown) (howned : a.Owned) :
    ValiditySurvives P fd net a ↔
      ∀ feed ∈ outcomes net 0 (feedLines fd a), feed.2.received (isHttps feed.1) = [] ∨
        P.feedpp (feed.2.received (isHttps feed.1)) = none := by
  obtain ⟨pl, hpl⟩ := howned.podcastList
  simp only [← acceptedFeed_eq_none_iff]
  constructor
  · intro h feed hfeed
    by_contra haccepted
    have hlines : feedLines fd a ≠ [] := by
      intro hnil
      rw [hnil] at hfeed
      exact List.not_mem_nil hfeed
    obtain ⟨m, ps, hps, hupdate⟩ :=
      updateFromFeedFile_eq (P.returning 0) fd net a hshown howned pl hpl hlines
    -- without copies on the return path the feed is kept
    have hkept : keptFeeds (P.returning 0) (outcomes net 0 (feedLines fd a)) ≠ [] := by
      intro hnil
      exact haccepted (List.filterMap_eq_nil_iff.mp hnil feed hfeed)
    have hlength : 0 < (reallocated (fun _ => 0) ps).length := by
      rw [length_reallocated, hps, storedPodcasts, List.length_map]
      exact List.length_pos_iff.mpr hkept
    obtain ⟨p, hp⟩ := List.exists_mem_of_length_pos hlength
    have hvalid := h.valid 0 (fun _ => 0) _ hupdate p hp
    rw [hps] at hp
    exact Bool.noConfusion ((not_isValid_of_mem_reallocated hp).symm.trans hvalid)
  · intro h
    have hempty : ∀ n b, a.updateFromFeedFile (P.returning n) fd net = some (App.ok, b) →
        ∃ m, b = rebuilt ((withPodcasts (withFeedFile fd a) []).withStatus m) [] pl := by
      intro n b hupdate
      obtain ⟨m, ps, hps, hb⟩ := updateFromFeedFile_ok hshown howned hpl hupdate
      rw [keptFeeds_returning_eq_nil h] at hps
      exact ⟨m, by rw [hb, hps]; rfl⟩
    constructor
    · intro n moves b hupdate p hp
      obtain ⟨m, rfl⟩ := hempty n b hupdate
      exact absurd hp List.not_mem_nil
    · intro n n' moves moves' b b' hupdate hupdate'
      obtain ⟨m, rfl⟩ := hempty n b hupdate
      obtain ⟨m', rfl⟩ := hempty n' b' hupdate'
      exact ⟨rfl, rfl⟩

/-- One feed, and a parser that accepts nothing. -/
theorem updateFromFeedFile_valid_none :
    ValiditySurvives { lenient with feedpp := fun _ => none } 1 (fun _ => truncated) oneFeed ↔
      ∀ feed ∈ outcomes (fun _ => truncated) 0 (feedLines 1 oneFeed),
        feed.2.received (isHttps feed.1) = [] ∨ (none : Option Feed) = none :=
  updateFromFeedFile_valid_iff { lenient with feedpp := fun _ => none } 1 (fun _ => truncated)
    oneFeed oneFeed_shown oneFeed_owned

/-- One successful feed: its podcast is stored, and is not valid. -/
theorem not_updateFromFeedFile_valid :
    ¬ (∀ (P : Platform) (fd : ℤ) (net : ℕ → Transfer) (a : App), a.toScreen.Shown → a.Owned →
      ValiditySurvives P fd net a) := by
  intro h
  have hsurvives := h lenient 1 (fun _ => whole) oneFeed oneFeed_shown oneFeed_owned
  have hstored : (oneFeed.updateFromFeedFile (lenient.returning 0) (1 : ℤ) (fun _ => whole)).map
      (fun r => (r.1, r.2.podcasts)) = some (App.ok, [{}]) := by decide
  obtain ⟨⟨st, b⟩, hupdate, hparts⟩ := Option.map_eq_some_iff.mp hstored
  obtain ⟨rfl, hpodcasts⟩ := Prod.mk.inj hparts
  have hvalid := hsurvives.valid 0 (fun _ => 0) b hupdate {}
  rw [hpodcasts] at hvalid
  exact Bool.noConfusion (hvalid (List.mem_singleton_self _))

end Analysis

end PsCast
