import PsCast.Analysis.Ownership
import PsCast.Analysis.Published

/-!
# From a published feed to the menu

With the vendored parser behind `Podcast::parseFromXmlStream` (`Parses`), a buffer becomes the
podcast of the feed that is read of it (`parseFromXmlStream_result`). An update to which the
transport delivers published feeds, each in a format of its own, shows them in the order of the
feed file, with their titles and those of their episodes (`run_update_published`), also if these
lines were typed before (`run_typed_update`). A compiler that copies the podcast that is
returned, which it need not, breaks this, so both take it that none is copied.
-/

set_option autoImplicit false

namespace PsCast

open App Feedpp Library Library.History Publishing

/-- The parser that the application calls is the vendored one, as long as that one stays inside
of its memory. All its calls find the same version in the member that is not written, which only
matters for a root of a name that the parser does not know. -/
def Parses (X : Tools) (feedpp : Bytes → Option Feed) : Prop :=
  ∀ buffer, match parseBuffer X buffer with
    | .ok f => feedpp buffer = some f.toFeed
    | .error (.exception _) => feedpp buffer = none
    | .error .undefined => True

/-- What is published at an address, and in which format. -/
abbrev Web := Bytes → Publication × Format

/-- The feed that can be read at an address. -/
def Web.feed (web : Web) (url : Bytes) : Feed := (web url).2.readable (web url).1.feed

/-- The transfer starts, and its chunks together are a document of what is published at the
address. By `https` it may bring one chunk only: the code keeps no more. -/
structure Delivers (X : Tools) (web : Web) (t : Transfer) (url : Bytes) : Prop where
  started : t.init = .ok
  handle : isHttps url = true → t.easyInit = true
  single : isHttps url = true → t.chunks.length ≤ 1
  arrived : t.chunks ≠ []
  document : ∃ doc, X.readMemory t.chunks.flatten = some doc ∧
    Publishes X (web url).1 (web url).2 doc

namespace Analysis

variable {X : Tools} {feedpp : Bytes → Option Feed}

/-! ## One buffer -/

/-- Where the vendored parser returns a feed, that is what the application gets of it. -/
theorem Parses.ok (hP : Parses X feedpp) {buffer : Bytes} {feed : Feed}
    (hresult : (parseBuffer X buffer).map Feedpp.Feed.toFeed = .ok feed) :
    feedpp buffer = some feed := by
  have hbuffer := hP buffer
  cases hparse : parseBuffer X buffer with
  | ok f =>
    rw [hparse] at hbuffer hresult
    rw [← Except.ok.inj hresult]
    exact hbuffer
  | error failure =>
    rw [hparse] at hresult
    cases hresult

/-- Where it throws, the application gets an exception. -/
theorem Parses.exception (hP : Parses X feedpp) {buffer message : Bytes}
    (hresult : (parseBuffer X buffer).map Feedpp.Feed.toFeed = .error (.exception message)) :
    feedpp buffer = none := by
  have hbuffer := hP buffer
  rw [map_eq_error_iff.mp hresult] at hbuffer
  exact hbuffer

/-- The vendored parser, which gives up where it leaves its memory. -/
def vendored (X : Tools) (buffer : Bytes) : Option Feed :=
  match parseBuffer X buffer with
  | .ok f => some f.toFeed
  | .error _ => none

/-- What is given up where the parser leaves its memory does not matter. -/
theorem parses_vendored (X : Tools) : Parses X (vendored X) := by
  intro buffer
  unfold vendored
  cases parseBuffer X buffer with
  | ok f => rfl
  | error failure => cases failure <;> trivial

/-- **What becomes of a podcast** that is filled from a buffer. -/
theorem parseFromXmlStream_result (hP : Parses X feedpp) (p : Podcast) (buffer : Bytes) :
    (∀ feed, documentResult X (X.readMemory buffer) = .ok feed →
      p.parseFromXmlStream feedpp buffer = (some Podcast.ok,
        { Podcast.ofFeed feed with
          episodes := p.episodes ++ feed.items.map Podcast.episodeOf })) ∧
    ∀ message, documentResult X (X.readMemory buffer) = .error (.exception message) →
      p.parseFromXmlStream feedpp buffer = (none, { p with isValid := false }) := by
  constructor
  · intro feed hfeed
    rw [← parseBuffer_result] at hfeed
    exact parseFromXmlStream_eq (Parses.ok hP hfeed) p
  · intro message hmessage
    rw [← parseBuffer_result] at hmessage
    unfold Podcast.parseFromXmlStream
    simp only [Parses.exception hP hmessage]

/-- A fresh podcast and a feed in Atom. -/
theorem parseFromXmlStream_result_news :
    ({} : Podcast).parseFromXmlStream (vendored (treeTools readNews)) newsAtom =
      (some Podcast.ok, Podcast.ofFeed news.feed) := by
  have hread : documentResult (treeTools readNews) ((treeTools readNews).readMemory newsAtom) =
      .ok news.feed := by
    rw [readNews_newsAtom]
    exact documentResult_document (documented_treeTools readNews) news .atom
  exact (parseFromXmlStream_result (parses_vendored (treeTools readNews)) {} newsAtom).1 _ hread

/-! ## Feeds -/

/-- A feed that is delivered is accepted as it was published. -/
theorem acceptedFeed_delivers (hX : Documented X) {P : Platform} (hP : Parses X P.feedpp)
    {web : Web} {t : Transfer} {url : Bytes} (h : Delivers X web t url) :
    acceptedFeed P url t = some (web.feed url) := by
  have hwhole : t.received (isHttps url) = t.chunks.flatten :=
    received_eq_flatten h.started h.handle h.single
  have hbody : t.chunks.flatten ≠ [] := by
    obtain ⟨chunk, hchunk⟩ := List.exists_mem_of_ne_nil _ h.arrived
    exact fun hnil => t.nonempty chunk hchunk (List.flatten_eq_nil_iff.mp hnil chunk hchunk)
  obtain ⟨doc, hread, hdoc⟩ := h.document
  unfold acceptedFeed
  rw [hwhole, if_neg hbody]
  exact Parses.ok hP (parseBuffer_publishes hX hread hdoc)

/-- Of the feeds that are delivered each is kept, in their order. -/
theorem keptFeeds_delivers (hX : Documented X) {P : Platform} (hP : Parses X P.feedpp)
    (hcopies : P.returnCopies = 0) {web : Web} {net : ℕ → Transfer} (urls : List Bytes) (k : ℕ)
    (hnet : ∀ i url, urls[i]? = some url → Delivers X web (net (k + i)) url) :
    keptFeeds P (outcomes net k urls) = urls.map web.feed := by
  induction urls generalizing k with
  | nil => rfl
  | cons url rest ih =>
    have hkept : keptFeed P url (net k) = some (web.feed url) := by
      unfold keptFeed
      rw [if_pos hcopies]
      exact acceptedFeed_delivers hX hP (hnet 0 url rfl)
    have hrest := ih (k + 1) (by
      intro i url' hurl'
      have hdelivers := hnet (i + 1) url' hurl'
      rwa [Nat.add_comm i, ← Nat.add_assoc] at hdelivers)
    unfold keptFeeds at hrest ⊢
    simp only [List.map_cons, outcomes, List.filterMap_cons, hkept, hrest]

/-! ## An update -/

section Updates

variable {P : Platform} {a b : App} {f : Frame} {t : History.Trail ListId} {web : Web}

/-- An update of published feeds. -/
theorem step_update_published (hX : Documented X) (hP : Parses X P.feedpp)
    (hcopies : P.returnCopies = 0) (h : Follows a t) (hmenu : a.MenuOf)
    (hstep : step P a f = some b) (hchosen : a.chosen f = some (.owner .updateFromFeedFile))
    {urls : List Bytes} (hsome : urls ≠ [])
    (hlines : (Utils.getLinesFromFile f.fdRead f.feedFile).1 = urls)
    (hnet : ∀ i url, urls[i]? = some url → Delivers X web (f.net i) url) :
    b.podcasts = storedPodcasts (urls.map web.feed) ∧ b.MenuOf := by
  have hpodcasts := (step_stored h hstep).podcasts
  rw [if_pos ⟨hchosen, hlines ▸ hsome⟩, podcastsOf, hlines,
    keptFeeds_delivers hX hP hcopies urls 0 (by simpa using hnet)] at hpodcasts
  exact ⟨hpodcasts, step_menuOf h hmenu hstep⟩

end Updates

/-- The same feed at two addresses, in two formats. -/
def newsWeb : Web := fun url => (news, if url = lit "https://a" then .atom else .rss20)

/-- What the second address sends first. -/
def newsHead : Bytes :=
  lit "<rss version=\"2.0\"> <channel><ttl>60</ttl><title>News</title><link>http://news/</link>"

/-- What it sends then. -/
def newsTail : Bytes :=
  lit "<description>Daily</description><item><title>One</title>" ++
  lit "<link>http://news/1.mp3</link><description>First</description></item></channel></rss>"

/-- The document of both, with a blank and an element that psCast does not know. -/
def newsSpaced : XmlDoc :=
  { root := some (element (lit "rss") none [attr (lit "version") (lit "2.0")]
      [text (lit " "), element (lit "channel") none []
        (field (lit "ttl") none [] (lit "60") ::
          [field (lit "title") none [] news.feed.title, field (lit "link") none [] news.feed.link,
            field (lit "description") none [] news.feed.description] ++
          news.feed.items.map (Format.rssItem none))])
    encoding := some (lit "UTF-8") }

/-- What these two buffers are read as. -/
def readPages (buffer : Bytes) : Option XmlDoc :=
  if buffer = newsAtom then some (Format.atom.document news.feed)
  else if buffer = newsHead ++ newsTail then some newsSpaced
  else none

/-- The first address answers by `https` in one chunk, the second one by `http` in two. -/
def bringsNews : ℕ → Transfer
  | 0 => { chunks := [newsAtom], nonempty := by decide }
  | _ => { chunks := [newsHead, newsTail], nonempty := by decide }

/-- Both addresses are delivered. -/
theorem bringsNews_delivers (i : ℕ) (url : Bytes)
    (hurl : [lit "https://a", lit "http://b"][i]? = some url) :
    Delivers (treeTools readPages) newsWeb (bringsNews i) url := by
  have hlt : i < 2 := (List.getElem?_eq_some_iff.mp hurl).1
  have hcases : i = 0 ∨ i = 1 := by omega
  rcases hcases with rfl | rfl
  · obtain rfl := Option.some.inj hurl
    have hread : (treeTools readPages).readMemory [newsAtom].flatten =
        some (Format.atom.document news.feed) := by
      have hbody : [newsAtom].flatten = newsAtom := List.append_nil _
      rw [treeTools_readMemory, readPages, hbody, if_pos rfl]
    exact ⟨rfl, fun _ => rfl, fun _ => le_rfl, List.cons_ne_nil _ _, _, hread, rfl⟩
  · obtain rfl := Option.some.inj hurl
    have hhttp : isHttps (lit "http://b") = false := by decide
    have hread : (treeTools readPages).readMemory [newsHead, newsTail].flatten =
        some newsSpaced := by
      have hbody : [newsHead, newsTail].flatten = newsHead ++ newsTail := by simp
      have hne : newsHead ++ newsTail ≠ newsAtom := by decide +kernel
      rw [treeTools_readMemory, readPages, hbody, if_neg hne, if_pos rfl]
    refine ⟨rfl, fun _ => rfl, ?_, List.cons_ne_nil _ _, _, hread, rfl⟩
    intro hhttps
    exact absurd (hhttp.symm.trans hhttps) Bool.false_ne_true

/-- The vendored parser, over these buffers. -/
def newsPlatform : Platform :=
  { feedpp := vendored (treeTools readPages), imeDialogButtonClose := 1,
    imeDialogMaxTextLength := 512 }

/-- Accept, over a feed file with these two lines. -/
def acceptNews : Frame :=
  { pressedButtons := sceCtrlCircle
    feedFile := some (Records.joined newline [lit "https://a", lit "http://b"])
    net := bringsNews }

theorem startWith_menuOf (file : FeedFile) : (startWith file).MenuOf :=
  menuOf_congr start_menuOf rfl rfl rfl

/-- On a device with a feed file every run leads to a state whose menu is that of its podcasts. -/
theorem run_exists_menuOn (P : Platform) (file : FeedFile) (fs : List Frame) :
    ∃ a, run (stepOn P) (startWith file) fs = some a ∧ (∃ t, Follows a t) ∧ a.MenuOf := by
  refine run_invariant ?_ ⟨⟨_, startWith_follows file⟩, startWith_menuOf file⟩ fs
  rintro a f ⟨⟨t, ht⟩, hmenu⟩
  obtain ⟨b, hstep, hb⟩ := step_follows (P := P) ht { f with feedFile := a.feedFile }
  exact ⟨b, hstep, ⟨_, hb⟩, step_menuOf ht hmenu hstep⟩

/-- **What was typed is what is shown**: on a device with a feed file that ends with a line, after
every run that writes completely what it adds, the file consists of its lines and behind them of
those that the adding frames typed. An update that reads it completely, and to which the transport
delivers what is published at these lines, stores those feeds, in that order, and rebuilds the
menu from them. -/
theorem run_typed_update (hX : Documented X) {P : Platform} (hP : Parses X P.feedpp)
    (hcopies : P.returnCopies = 0) (web : Web) (file : FeedFile)
    (hterminated : Records.remainder newline (file.getD []) = []) (fs : List Frame)
    (hwritten : ∀ g ∈ addingFrames P file fs, g.fdAppend.Completes (typed P g ++ [newline]))
    (f : Frame) (hread : f.fdRead.Complete) :
    ∃ (a b : App) (urls : List Bytes),
      run (stepOn P) (startWith file) fs = some a ∧ stepOn P a f = some b ∧
      urls = Records.records newline (file.getD []) ++
        ((addingFrames P file fs).flatMap fun g => (typed P g).splitOn newline) ∧
      a.content = Records.joined newline urls ∧
      (urls ≠ [] → a.chosen { f with feedFile := a.feedFile } = some (.owner .updateFromFeedFile) →
        (∀ i url, urls[i]? = some url → Delivers X web (f.net i) url) →
          b.podcasts = storedPodcasts (urls.map web.feed) ∧ b.MenuOf) := by
  obtain ⟨a, hrun, ⟨t, h⟩, hmenu⟩ := run_exists_menuOn P file fs
  obtain ⟨b, hstep, -⟩ := step_follows (P := P) h { f with feedFile := a.feedFile }
  have hcontent := run_content hrun
  rw [flatten_written hwritten] at hcontent
  obtain ⟨hend, hrecords⟩ :=
    records_joined_append hterminated ((addingFrames P file fs).map (typed P))
  rw [← hcontent] at hend hrecords
  rw [List.flatMap_map] at hrecords
  refine ⟨a, b, _, hrun, hstep, rfl, ?_, ?_⟩
  · have hfile := Records.joined_append_remainder newline a.content
    rw [hend, List.append_nil] at hfile
    rw [← hrecords, hfile]
  · intro hsome hchosen hnet
    exact step_update_published hX hP hcopies h hmenu hstep hchosen hsome
      ((feedLines_complete hread a).trans hrecords) hnet

/-- Accept, with the second address in the dialog. -/
def enterNews : Frame :=
  { press sceCtrlCircle with
    ime :=
      { button := 2
        text := fun i => ((lit "http://b")[i]?.map UInt8.toUInt16).getD 0
        stack := [] } }

/-- The second address is typed, and then both are downloaded. -/
theorem run_typed_update_news :
    ∃ a b, run (stepOn newsPlatform) (startWith (some (lit "https://a\n")))
        [press sceCtrlDown, enterNews, press sceCtrlDown] = some a ∧
      stepOn newsPlatform a acceptNews = some b ∧
      a.content = lit "https://a\nhttp://b\n" ∧
      b.podcasts.map Podcast.name = [lit "News", lit "News"] ∧ b.MenuOf := by
  have hadding : ((addingFrames newsPlatform (some (lit "https://a\n"))
      [press sceCtrlDown, enterNews, press sceCtrlDown]).flatMap fun g =>
        (typed newsPlatform g).splitOn newline) = [lit "http://b"] := by decide +kernel
  have hwritten : ∀ g ∈ addingFrames newsPlatform (some (lit "https://a\n"))
      [press sceCtrlDown, enterNews, press sceCtrlDown],
        g.fdAppend.Completes (typed newsPlatform g ++ [newline]) := by
    intro g hg
    have hmem := (picked_sublist _ _ _).subset hg
    simp only [List.mem_cons, List.not_mem_nil, or_false] at hmem
    rcases hmem with rfl | rfl | rfl
    · exact IoWrite.completes_coe 1 _
    · exact IoWrite.completes_coe 1 _
    · exact IoWrite.completes_coe 1 _
  obtain ⟨a, b, urls, hrun, hstep, rfl, hcontent, hresult⟩ :=
    run_typed_update (documented_treeTools readPages) (P := newsPlatform)
      (parses_vendored (treeTools readPages)) rfl newsWeb (some (lit "https://a\n")) (by decide)
      [press sceCtrlDown, enterNews, press sceCtrlDown] hwritten acceptNews
      ⟨by decide, fun _ => rfl⟩
  have hurls : Records.records newline ((some (lit "https://a\n")).getD []) ++ [lit "http://b"] =
      [lit "https://a", lit "http://b"] := by decide
  have hchosen : (run (stepOn newsPlatform) (startWith (some (lit "https://a\n")))
      [press sceCtrlDown, enterNews, press sceCtrlDown]).bind (fun a =>
        a.chosen { acceptNews with feedFile := a.feedFile }) =
          some (.owner .updateFromFeedFile) := by decide +kernel
  rw [hrun] at hchosen
  rw [hadding, hurls] at hcontent hresult
  obtain ⟨hpodcasts, hmenu⟩ := hresult (by decide) hchosen bringsNews_delivers
  refine ⟨a, b, hrun, hstep, ?_, ?_, hmenu⟩
  · rw [hcontent]
    decide
  · rw [hpodcasts]
    rfl

end Analysis

end PsCast
