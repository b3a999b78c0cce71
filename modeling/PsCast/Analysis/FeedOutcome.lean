import PsCast.Analysis.ScreenStep
import PsCast.Analysis.BodyAssembly

/-!
# The outcome of one feed

`App::downloadAndParseFeed` on every transfer, and the loop of `App::updateFromFeedFile`
over it. The status that `download` returns is overwritten before it is tested, so the
only thing that keeps a failed transfer out of the podcasts is the page it leaves: the
feed is dropped when that page is empty or the parser throws on it, and kept otherwise.
-/

set_option autoImplicit false

namespace PsCast

/-- The podcast that parsing a feed makes of a new object. -/
def Podcast.ofFeed (feed : Feed) : Podcast :=
  { isValid := true
    name := feed.title
    author := feed.dcCreator
    description := feed.description
    url := feed.link
    episodes := feed.items.map Podcast.episodeOf }

/-- The feed that the parser returns on what is left of the body, if there is any. -/
def acceptedFeed (P : Platform) (url : Bytes) (t : Transfer) : Option Feed :=
  if t.received (isHttps url) = [] then none else P.feedpp (t.received (isHttps url))

/-- The feed whose podcast `App::updateFromFeedFile` keeps. A copy made by `return` loses
the flag that the loop tests. -/
def keptFeed (P : Platform) (url : Bytes) (t : Transfer) : Option Feed :=
  if P.returnCopies = 0 then acceptedFeed P url t else none

/-- The feeds of an update, each with its transfer, from the `k`-th download on. -/
def outcomes (net : ℕ → Transfer) : ℕ → List Bytes → List (Bytes × Transfer)
  | _, [] => []
  | k, url :: rest => (url, net k) :: outcomes net (k + 1) rest

/-- The feeds that an update keeps, in their order. -/
def keptFeeds (P : Platform) (feeds : List (Bytes × Transfer)) : List Feed :=
  feeds.filterMap fun feed => keptFeed P feed.1 feed.2

/-- The podcasts that an update stores for its kept feeds. -/
def storedPodcasts (feeds : List Feed) : List Podcast :=
  feeds.map fun feed => (Podcast.ofFeed feed).copy

/-- The application with these podcasts. -/
def App.withPodcasts (a : App) (ps : List Podcast) : App := { a with podcasts := ps }

namespace Analysis

open App

/-! ## Podcasts -/

/-- A copy of a copy is no different from the copy. -/
theorem copy_copy (p : Podcast) : p.copy.copy = p.copy := rfl

/-- Only the object itself carries the flag; every copy of it is not valid. -/
theorem copies_isValid (n : ℕ) (p : Podcast) :
    (p.copies n).isValid = (decide (n = 0) && p.isValid) := by
  induction n generalizing p with
  | zero => simp [Podcast.copies]
  | succ n ih =>
    rw [Podcast.copies, ih]
    simp [Podcast.copy]

/-- The loop over the items appends an episode for each of them. -/
theorem foldl_episodes (items : List Item) (p : Podcast) :
    items.foldl (fun p item => { p with episodes := p.episodes ++ [Podcast.episodeOf item] }) p =
      { p with episodes := p.episodes ++ items.map Podcast.episodeOf } := by
  induction items generalizing p with
  | nil => simp
  | cons item rest ih =>
    rw [List.foldl_cons, ih]
    simp

/-- Parsing a feed overwrites every member but the episodes, to which it appends. -/
theorem parseFromXmlStream_eq {feedpp : Bytes → Option Feed} {xml : Bytes} {feed : Feed}
    (h : feedpp xml = some feed) (p : Podcast) :
    p.parseFromXmlStream feedpp xml = (some Podcast.ok,
      { Podcast.ofFeed feed with
        episodes := p.episodes ++ feed.items.map Podcast.episodeOf }) := by
  unfold Podcast.parseFromXmlStream
  simp only [h]
  rw [foldl_episodes]
  rfl

/-- A fresh podcast takes over the feed that the parser returns. -/
theorem parseFromXmlStream_some {feedpp : Bytes → Option Feed} {xml : Bytes} {feed : Feed}
    (h : feedpp xml = some feed) :
    Podcast.parseFromXmlStream feedpp {} xml = (some Podcast.ok, Podcast.ofFeed feed) := by
  rw [parseFromXmlStream_eq h]
  rfl

/-- Where the parser throws, a fresh podcast stays as it was. -/
theorem parseFromXmlStream_none {feedpp : Bytes → Option Feed} {xml : Bytes}
    (h : feedpp xml = none) :
    Podcast.parseFromXmlStream feedpp {} xml = (none, {}) := by
  unfold Podcast.parseFromXmlStream
  simp only [h]

/-! ## One feed -/

/-- **One feed**: the podcast returned is the one of the accepted feed, and a new one if
there is none; of the application only the status text changes. -/
theorem downloadAndParseFeed_eq (P : Platform) (t : Transfer) (url : Bytes) {a : App}
    (h : a.toScreen.Shown) :
    ∃ m, downloadAndParseFeed P t url a =
      some ((((acceptedFeed P url t).map Podcast.ofFeed).getD {}).copies P.returnCopies,
        a.withStatus m) := by
  unfold downloadAndParseFeed acceptedFeed
  simp only [sendHeaderMessage_eq h, download_page, Option.bind_eq_bind, Option.bind_some,
    sendHeaderMessage_eq (shown_withStatus h _), withStatus_withStatus]
  by_cases hempty : t.received (isHttps url) = []
  · refine ⟨lit "Error!", ?_⟩
    simp [hempty]
  · have hlength : ¬ (t.received (isHttps url)).length < 1 := by
      have := List.length_pos_iff.mpr hempty
      omega
    simp only [hempty, hlength, if_false]
    cases hparse : P.feedpp (t.received (isHttps url)) with
    | none =>
      refine ⟨lit "Error!", ?_⟩
      simp [parseFromXmlStream_none hparse]
    | some feed =>
      refine ⟨lit "Done!", ?_⟩
      simp [parseFromXmlStream_some hparse]

/-- The flag that the loop of `updateFromFeedFile` tests is set exactly for kept feeds. -/
theorem isValid_eq_isSome (P : Platform) (t : Transfer) (url : Bytes) :
    ((((acceptedFeed P url t).map Podcast.ofFeed).getD {}).copies P.returnCopies).isValid =
      (keptFeed P url t).isSome := by
  rw [copies_isValid]
  unfold keptFeed
  by_cases hcopies : P.returnCopies = 0
  · cases acceptedFeed P url t <;> simp [hcopies, Podcast.ofFeed]
  · simp [hcopies]

/-- **The loop**: the podcasts of the kept feeds are appended in order. -/
theorem downloadFeeds_eq (P : Platform) (net : ℕ → Transfer) (k : ℕ) (urls : List Bytes) (a : App)
    (h : a.toScreen.Shown) :
    ∃ m, downloadFeeds P net k urls a =
      some ((a.withPodcasts (a.podcasts ++
        storedPodcasts (keptFeeds P (outcomes net k urls)))).withStatus m) := by
  induction urls generalizing k a with
  | nil =>
    refine ⟨a.menu.statusMsg, ?_⟩
    simp [downloadFeeds, outcomes, keptFeeds, storedPodcasts, withPodcasts, withStatus]
  | cons url rest ih =>
    obtain ⟨m, hfeed⟩ := downloadAndParseFeed_eq P (net k) url h
    have hvalid := isValid_eq_isSome P (net k) url
    rw [downloadFeeds]
    simp only [hfeed, Option.bind_eq_bind, Option.bind_some, hvalid]
    cases hkept : keptFeed P url (net k) with
    | none =>
      obtain ⟨m', hrest⟩ := ih (k + 1) (a.withStatus m) (shown_withStatus h m)
      refine ⟨m', ?_⟩
      simp only [Option.isSome_none, Bool.false_eq_true, if_false]
      rw [hrest]
      simp [outcomes, keptFeeds, hkept, withPodcasts, withStatus]
    | some feed =>
      obtain ⟨hcopies, haccepted⟩ :
          P.returnCopies = 0 ∧ acceptedFeed P url (net k) = some feed := by
        unfold keptFeed at hkept
        split at hkept
        · exact ⟨‹_›, hkept⟩
        · cases hkept
      simp only [Option.isSome_some, if_true, hcopies, haccepted, Option.map_some,
        Option.getD_some, Podcast.copies]
      obtain ⟨m', hrest⟩ := ih (k + 1) ((a.withStatus m).withPodcasts
        (a.podcasts ++ [(Podcast.ofFeed feed).copy])) (shown_withStatus h m)
      refine ⟨m', ?_⟩
      refine Eq.trans hrest ?_
      simp [outcomes, keptFeeds, storedPodcasts, hkept, withPodcasts, withStatus]

/-! ## Failed downloads -/

/-- Nothing comes of a feed: the podcast returned is not valid, and an update that meets
the feed goes on as if it were not there. -/
structure Refused (P : Platform) (t : Transfer) (url : Bytes) (a : App) : Prop where
  invalid : ∃ p a', downloadAndParseFeed P t url a = some (p, a') ∧ p.isValid = false
  addsNothing : ∀ net k rest, net k = t →
    (downloadFeeds P net k (url :: rest) a).map App.podcasts =
      (downloadFeeds P net (k + 1) rest a).map App.podcasts

/-- A feed is refused exactly if it is not kept. -/
theorem refused_iff_keptFeed (P : Platform) (t : Transfer) (url : Bytes) {a : App}
    (ha : a.toScreen.Shown) : Refused P t url a ↔ keptFeed P url t = none := by
  obtain ⟨m, hfeed⟩ := downloadAndParseFeed_eq P t url ha
  have hvalid := isValid_eq_isSome P t url
  constructor
  · rintro ⟨⟨p, a', hp, hflag⟩, -⟩
    rw [hfeed] at hp
    obtain ⟨rfl, -⟩ := Prod.mk.inj (Option.some.inj hp)
    rw [hvalid] at hflag
    exact Option.not_isSome_iff_eq_none.mp (Bool.not_eq_true _ ▸ hflag)
  · intro hkept
    refine ⟨⟨_, _, hfeed, by rw [hvalid, hkept]; rfl⟩, ?_⟩
    intro net k rest hnet
    obtain ⟨m₁, hwith⟩ := downloadFeeds_eq P net k (url :: rest) a ha
    obtain ⟨m₂, hwithout⟩ := downloadFeeds_eq P net (k + 1) rest a ha
    rw [hwith, hwithout]
    simp [outcomes, keptFeeds, hnet, hkept, withPodcasts, withStatus]

/-- A failed transfer, at whatever point it broke, is refused exactly when it does not leave
a body that the parser accepts; a copied return value makes the loop drop every feed. -/
theorem failed_refused_iff (P : Platform) (t : Transfer) (url : Bytes) (a : App)
    (ha : a.toScreen.Shown) :
    (t.Failed (isHttps url) → Refused P t url a) ↔
      ¬ (t.Failed (isHttps url) ∧ P.returnCopies = 0 ∧ t.received (isHttps url) ≠ [] ∧
        P.feedpp (t.received (isHttps url)) ≠ none) := by
  have hkept : keptFeed P url t = none ↔
      ¬ (P.returnCopies = 0 ∧ t.received (isHttps url) ≠ [] ∧
        P.feedpp (t.received (isHttps url)) ≠ none) := by
    unfold keptFeed acceptedFeed
    by_cases hcopies : P.returnCopies = 0
    · by_cases hempty : t.received (isHttps url) = [] <;> simp [hcopies, hempty]
    · simp [hcopies]
  rw [refused_iff_keptFeed P t url ha, hkept]
  exact not_and.symm

/-- An RSS document whose channel is empty. -/
def emptyChannel : Bytes := lit "<rss version=\"2.0\"><channel/></rss>"

/-- That document without the end tag of its root, which a recovering parser supplies. -/
def cutChannel : Bytes := lit "<rss version=\"2.0\"><channel/>"

/-- A transfer that brings the document. -/
def whole : Transfer := { chunks := [emptyChannel], nonempty := by decide }

/-- A truncated body: one chunk arrives, then reading fails. -/
def truncated : Transfer := { chunks := [cutChannel], ended := -1, nonempty := by decide }

/-- A parser that knows these two buffers, and recovers the feed without title and items from
both of them. -/
def lenient : Platform :=
  { feedpp := fun buffer => if buffer = emptyChannel ∨ buffer = cutChannel then some {} else none
    imeDialogButtonClose := 1
    imeDialogMaxTextLength := 512 }

/-- A transfer that failed, and a parser that does not accept what it left. -/
theorem failed_refused_strict :
    (truncated.Failed (isHttps (lit "http://a")) →
      Refused { lenient with feedpp := fun _ => none } truncated (lit "http://a") App.start) ↔
    ¬ (truncated.Failed (isHttps (lit "http://a")) ∧ (0 : ℕ) = 0 ∧
      truncated.received (isHttps (lit "http://a")) ≠ [] ∧ (none : Option Feed) ≠ none) :=
  failed_refused_iff { lenient with feedpp := fun _ => none } truncated (lit "http://a") App.start
    start_shown

/-- The truncated body becomes a podcast when the parser accepts it. -/
theorem not_failed_refused :
    ¬ (∀ (P : Platform) (t : Transfer) (url : Bytes) (a : App), a.toScreen.Shown →
      t.Failed (isHttps url) → Refused P t url a) := by
  intro h
  have hrefused := h lenient truncated (lit "http://a") App.start start_shown (by decide)
  rw [refused_iff_keptFeed _ _ _ start_shown] at hrefused
  exact absurd hrefused (by decide)

end Analysis

end PsCast
