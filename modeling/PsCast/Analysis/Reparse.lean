import PsCast.Analysis.FeedOutcome

/-!
# Parsing into a used object

`Podcast::parseFromXmlStream` overwrites the name, the author, the url and the description,
but it appends the episodes to those that the object has. So the object holds the feed alone
exactly if it had no episode before (`holdsAlone_iff`), which for an object that parsed other
texts before means that none of their feeds had an item (`parsedAll_episodes_eq_nil_iff`).
-/

set_option autoImplicit false

namespace PsCast

/-- The parse returned `OK` and left in the object what the feed says and nothing else. -/
structure Podcast.HoldsAlone (feed : Feed) (result : Option ℤ × Podcast) : Prop where
  status : result.1 = some Podcast.ok
  name : result.2.name = feed.title
  author : result.2.author = feed.dcCreator
  url : result.2.url = feed.link
  description : result.2.description = feed.description
  episodes : result.2.episodes = feed.items.map Podcast.episodeOf

/-- A new object after it has parsed each of these texts. -/
def Podcast.parsedAll (feedpp : Bytes → Option Feed) (xmls : List Bytes) : Podcast :=
  xmls.foldl (fun p xml => (p.parseFromXmlStream feedpp xml).2) {}

namespace Analysis

section Parsing

variable {feedpp : Bytes → Option Feed} {xml : Bytes} {feed : Feed}

/-- After the parse the podcast holds the feed alone exactly if it held no episode. -/
theorem holdsAlone_iff (h : feedpp xml = some feed) (p : Podcast) :
    Podcast.HoldsAlone feed (p.parseFromXmlStream feedpp xml) ↔ p.episodes = [] := by
  rw [parseFromXmlStream_eq h]
  constructor
  · intro halone
    exact List.append_left_eq_self.mp halone.episodes
  · intro hempty
    exact ⟨rfl, rfl, rfl, rfl, rfl, List.append_left_eq_self.mpr hempty⟩

/-- The second parse appends the items once more. -/
theorem parse_twice_iff (h : feedpp xml = some feed) (p : Podcast) :
    (p.parseFromXmlStream feedpp xml).2.parseFromXmlStream feedpp xml =
        p.parseFromXmlStream feedpp xml ↔ feed.items = [] := by
  rw [parseFromXmlStream_eq h, parseFromXmlStream_eq h]
  constructor
  · intro heq
    have hepisodes := congrArg (fun result => result.2.episodes) heq
    exact List.map_eq_nil_iff.mp (List.append_right_eq_self.mp hepisodes)
  · intro hempty
    rw [hempty, List.map_nil, List.append_nil, List.append_nil]

/-- Two podcasts are the same after the parse exactly if their episodes were. -/
theorem parse_agree_iff (h : feedpp xml = some feed) (p p' : Podcast) :
    p.parseFromXmlStream feedpp xml = p'.parseFromXmlStream feedpp xml ↔
      p.episodes = p'.episodes := by
  rw [parseFromXmlStream_eq h, parseFromXmlStream_eq h]
  constructor
  · intro heq
    have hepisodes := congrArg (fun result => result.2.episodes) heq
    exact List.append_cancel_right hepisodes
  · intro heq
    rw [heq]

/-! ## Objects that parsed before -/

/-- A parse that throws leaves the episodes as they are. -/
theorem parseFromXmlStream_episodes (p : Podcast) (xml : Bytes) :
    (p.parseFromXmlStream feedpp xml).2.episodes =
      p.episodes ++ (feedpp xml).toList.flatMap fun feed => feed.items.map Podcast.episodeOf := by
  cases hparse : feedpp xml with
  | none =>
    unfold Podcast.parseFromXmlStream
    simp [hparse]
  | some feed =>
    rw [parseFromXmlStream_eq hparse]
    simp

/-- Parsing one text after the other collects the episodes of all of them. -/
theorem foldl_parse_episodes (xmls : List Bytes) (p : Podcast) :
    (xmls.foldl (fun p xml => (p.parseFromXmlStream feedpp xml).2) p).episodes =
      p.episodes ++ xmls.flatMap fun xml =>
        (feedpp xml).toList.flatMap fun feed => feed.items.map Podcast.episodeOf := by
  induction xmls generalizing p with
  | nil => simp
  | cons xml rest ih =>
    rw [List.foldl_cons, ih, parseFromXmlStream_episodes, List.append_assoc, List.flatMap_cons]

/-- After such a sequence no episode is held exactly if no feed had an item. -/
theorem parsedAll_episodes_eq_nil_iff (feedpp : Bytes → Option Feed) (xmls : List Bytes) :
    (Podcast.parsedAll feedpp xmls).episodes = [] ↔
      ∀ xml ∈ xmls, ∀ feed, feedpp xml = some feed → feed.items = [] := by
  rw [Podcast.parsedAll, foldl_parse_episodes]
  simp

end Parsing

/-- **Parsing replaces** what the object held exactly if it held no episode; so an object that
parsed other texts before holds the feed alone exactly if their feeds had no item, a second
parse of the same text changes nothing exactly if its feed has no item, and of the state
before the parse exactly the episodes matter. -/
theorem parse_replaces_iff (feedpp : Bytes → Option Feed) (xml : Bytes) (feed : Feed)
    (h : feedpp xml = some feed) :
    (∀ p : Podcast, Podcast.HoldsAlone feed (p.parseFromXmlStream feedpp xml) ↔
      p.episodes = []) ∧
    (∀ xmls : List Bytes,
      Podcast.HoldsAlone feed ((Podcast.parsedAll feedpp xmls).parseFromXmlStream feedpp xml) ↔
        ∀ before ∈ xmls, ∀ feed', feedpp before = some feed' → feed'.items = []) ∧
    (∀ p : Podcast, (p.parseFromXmlStream feedpp xml).2.parseFromXmlStream feedpp xml =
      p.parseFromXmlStream feedpp xml ↔ feed.items = []) ∧
    (∀ p p' : Podcast, p.parseFromXmlStream feedpp xml = p'.parseFromXmlStream feedpp xml ↔
      p.episodes = p'.episodes) := by
  refine ⟨holdsAlone_iff h, ?_, parse_twice_iff h, parse_agree_iff h⟩
  intro xmls
  rw [holdsAlone_iff h, parsedAll_episodes_eq_nil_iff]

/-- A parser that finds a feed with one item in everything. -/
def oneItem : Bytes → Option Feed := fun _ => some { items := [{ title := lit "first" }] }

/-- A feed with one item. -/
theorem parse_replaces_oneItem :
    (∀ p : Podcast, Podcast.HoldsAlone { items := [{ title := lit "first" }] }
      (p.parseFromXmlStream oneItem []) ↔ p.episodes = []) ∧
    (∀ xmls : List Bytes,
      Podcast.HoldsAlone { items := [{ title := lit "first" }] }
        ((Podcast.parsedAll oneItem xmls).parseFromXmlStream oneItem []) ↔
        ∀ before ∈ xmls, ∀ feed', oneItem before = some feed' → feed'.items = []) ∧
    (∀ p : Podcast, (p.parseFromXmlStream oneItem []).2.parseFromXmlStream oneItem [] =
      p.parseFromXmlStream oneItem [] ↔ [({ title := lit "first" } : Item)] = []) ∧
    (∀ p p' : Podcast, p.parseFromXmlStream oneItem [] = p'.parseFromXmlStream oneItem [] ↔
      p.episodes = p'.episodes) :=
  parse_replaces_iff oneItem [] { items := [{ title := lit "first" }] } rfl

/-- An object that parses the same text twice has each of its episodes twice. -/
theorem not_parse_replaces :
    ¬ (∀ (feedpp : Bytes → Option Feed) (xml : Bytes) (feed : Feed) (p : Podcast),
      feedpp xml = some feed →
        Podcast.HoldsAlone feed (p.parseFromXmlStream feedpp xml) ∧
        (p.parseFromXmlStream feedpp xml).2.parseFromXmlStream feedpp xml =
          p.parseFromXmlStream feedpp xml ∧
        ∀ p' : Podcast, p.parseFromXmlStream feedpp xml = p'.parseFromXmlStream feedpp xml) := by
  intro h
  have hparsed := h oneItem [] { items := [{ title := lit "first" }] }
    (Podcast.parsedAll oneItem [[]]) rfl
  have hlength := congrArg List.length hparsed.1.episodes
  exact absurd hlength (by decide)

end Analysis

end PsCast
