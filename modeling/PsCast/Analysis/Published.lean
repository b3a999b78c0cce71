import PsCast.Analysis.Ignored

/-!
# Published feeds are read back

A feed that is published in one of the formats is read back as it was written, up to the
creator, which only RSS 1.0 has (`parseBuffer_document`), also from a document with other nodes
in it and in any encoding (`parseBuffer_publishes`). So the same feed in two formats makes the
same podcast.
-/

set_option autoImplicit false

namespace PsCast

open Feedpp Library Publishing

/-- A document that holds what the document of the publication holds, and perhaps nodes that
psCast does not look at: white space, comments, other elements. -/
def Publishing.Publishes (X : Tools) (p : Publication) (format : Format) (doc : XmlDoc) : Prop :=
  doc.root.map (stripRoot X) = (format.document p.feed).root.map (stripRoot X)

namespace Analysis

variable {X : Tools}

/-! ## Elements -/

/-- An element is the one looked for if both its name and its namespace are. -/
theorem nodeIs_element (name other : Bytes) (ns uri : Option Bytes) (attributes : List XmlAttr)
    (children : List XmlNode) :
    nodeIs (element name ns attributes children) other uri = decide (name = other ∧ ns = uri) := by
  unfold nodeIs element
  by_cases hname : name = other
  · cases ns <;> cases uri <;> simp [hname]
  · simp [hname]

/-- The content of a field is the one that was written. -/
theorem getContent_field (hX : Documented X) (name : Bytes) (ns : Option Bytes)
    (attributes : List XmlAttr) (content : Bytes) :
    getContent X (field name ns attributes content) = content :=
  hX.content name ns attributes content

/-- An element has no other name. -/
theorem name_element {name other : Bytes} (hne : name ≠ other) (ns : Option Bytes)
    (attributes : List XmlAttr) (children : List XmlNode) :
    (element name ns attributes children).name ≠ some other := by
  intro heq
  exact hne (Option.some.inj heq)

/-- The text of a field behind which no node has its name. -/
theorem textOf_field (hX : Documented X) (name : Bytes) (ns : Option Bytes)
    (attributes : List XmlAttr) (content : Bytes) (front : List XmlNode) {rest : List XmlNode}
    (hrest : ∀ node ∈ rest, node.name ≠ some name) :
    textOf X name ns (front ++ field name ns attributes content :: rest) = content := by
  have hfield : ofNode name ns (getContent X) (field name ns attributes content) =
      some content := by
    unfold ofNode
    rw [getContent_field hX, field, nodeIs_element, decide_eq_true ⟨rfl, rfl⟩, if_pos rfl]
  have hnone : ∀ node ∈ rest, ofNode name ns (getContent X) node = none :=
    fun node hnode => ofNode_of_other _ node (hrest node hnode)
  unfold textOf
  rw [lastOf_append_cons hfield hnone]
  rfl

/-! ## RSS -/

/-- The three fields that a channel and an item begin with. -/
theorem itemOf_fields (hX : Documented X) (ns : Option Bytes) (item : PsCast.Item)
    (rest : List XmlNode) (hrest : ∀ node ∈ rest, ∀ name ∈ [lit "title", lit "link",
      lit "description"], node.name ≠ some name) :
    itemOf X ns ([field (lit "title") ns [] item.title, field (lit "link") ns [] item.link,
      field (lit "description") ns [] item.description] ++ rest) = item := by
  have htitle : textOf X (lit "title") ns ([field (lit "title") ns [] item.title,
      field (lit "link") ns [] item.link, field (lit "description") ns [] item.description] ++
        rest) = item.title := by
    apply textOf_field hX (lit "title") ns [] item.title []
    refine List.forall_mem_cons.mpr ⟨name_element (by decide) _ _ _, ?_⟩
    refine List.forall_mem_cons.mpr ⟨name_element (by decide) _ _ _, ?_⟩
    intro node hnode
    exact hrest node hnode _ (by decide)
  have hlink : textOf X (lit "link") ns ([field (lit "title") ns [] item.title,
      field (lit "link") ns [] item.link, field (lit "description") ns [] item.description] ++
        rest) = item.link := by
    apply textOf_field hX (lit "link") ns [] item.link [field (lit "title") ns [] item.title]
    refine List.forall_mem_cons.mpr ⟨name_element (by decide) _ _ _, ?_⟩
    intro node hnode
    exact hrest node hnode _ (by decide)
  have hdescription : textOf X (lit "description") ns ([field (lit "title") ns [] item.title,
      field (lit "link") ns [] item.link, field (lit "description") ns [] item.description] ++
        rest) = item.description := by
    apply textOf_field hX (lit "description") ns [] item.description
      [field (lit "title") ns [] item.title, field (lit "link") ns [] item.link]
    intro node hnode
    exact hrest node hnode _ (by decide)
  unfold itemOf
  rw [htitle, hlink, hdescription]

/-- The items have no other name. -/
theorem name_of_mem_rssItems {ns : Option Bytes} {items : List PsCast.Item} {name : Bytes}
    (hne : lit "item" ≠ name) : ∀ node ∈ items.map (Format.rssItem ns), node.name ≠ some name := by
  intro node hnode
  obtain ⟨item, -, rfl⟩ := List.mem_map.mp hnode
  exact name_element hne _ _ _

/-- An item is read back. -/
theorem itemOf_rssItem (hX : Documented X) (ns : Option Bytes) (item : PsCast.Item) :
    itemOf X ns (Format.rssItem ns item).children = item := by
  have hfields := itemOf_fields hX ns item [] fun _ h => absurd h List.not_mem_nil
  rwa [List.append_nil] at hfields

/-- The items among nodes of which the first ones are none. -/
theorem itemsOf_append (hX : Documented X) (ns : Option Bytes) (front : List XmlNode)
    (hfront : ∀ node ∈ front, node.name ≠ some (lit "item")) (items : List PsCast.Item) :
    itemsOf X ns (front ++ items.map (Format.rssItem ns)) = items := by
  have hnone : front.filter (fun node => nodeIs node (lit "item") ns) = [] := by
    rw [List.filter_eq_nil_iff]
    intro node hnode
    exact Bool.eq_false_iff.mp (nodeIs_of_other (hfront node hnode))
  have hall : (items.map (Format.rssItem ns)).filter (fun node => nodeIs node (lit "item") ns) =
      items.map (Format.rssItem ns) := by
    rw [List.filter_eq_self]
    intro node hnode
    obtain ⟨item, -, rfl⟩ := List.mem_map.mp hnode
    rw [Format.rssItem, nodeIs_element]
    exact decide_eq_true ⟨rfl, rfl⟩
  unfold itemsOf
  rw [List.filter_append, hnone, hall, List.nil_append, List.map_map]
  conv_rhs => rw [← List.map_id items]
  exact List.map_congr_left fun item _ => itemOf_rssItem hX ns item

/-- No published item has an author. -/
theorem not_badItem_rssItem (ns : Option Bytes) (item : PsCast.Item) :
    ¬ BadItem X ns (Format.rssItem ns item) := by
  rintro ⟨-, child, hchild, hauthor, -⟩
  have hname := name_of_nodeIs hauthor
  simp only [Format.rssItem, element, List.mem_cons, List.not_mem_nil, or_false] at hchild
  rcases hchild with rfl | rfl | rfl
  · exact absurd hname (name_element (by decide) _ _ _)
  · exact absurd hname (name_element (by decide) _ _ _)
  · exact absurd hname (name_element (by decide) _ _ _)

/-- A node of another name is no item. -/
theorem not_badItem_of_name {ns : Option Bytes} {node : XmlNode}
    (h : node.name ≠ some (lit "item")) : ¬ BadItem X ns node :=
  fun hbad => h (name_of_nodeIs hbad.1)

/-- The names of the three fields. -/
theorem name_of_mem_fields {ns : Option Bytes} {feed : PsCast.Feed} {name : Bytes}
    (hname : name ∉ [lit "title", lit "link", lit "description"]) :
    ∀ node ∈ [field (lit "title") ns [] feed.title, field (lit "link") ns [] feed.link,
      field (lit "description") ns [] feed.description], node.name ≠ some name := by
  intro node hnode heq
  simp only [List.mem_cons, List.not_mem_nil, or_false] at hnode
  apply hname
  rcases hnode with rfl | rfl | rfl
  · exact Option.some.inj heq ▸ List.mem_cons_self
  · exact Option.some.inj heq ▸ List.mem_cons_of_mem _ List.mem_cons_self
  · exact Option.some.inj heq ▸ List.mem_cons_of_mem _ (List.mem_cons_of_mem _ List.mem_cons_self)

/-- A channel is read back, but for its creator. -/
theorem channelFeed_published (hX : Documented X) (ns : Option Bytes) (feed : PsCast.Feed) :
    channelFeed X ns ([field (lit "title") ns [] feed.title, field (lit "link") ns [] feed.link,
      field (lit "description") ns [] feed.description] ++ feed.items.map (Format.rssItem ns)) =
      { feed with dcCreator := [] } := by
  have hheading := itemOf_fields hX ns
    { title := feed.title, link := feed.link, description := feed.description }
    (feed.items.map (Format.rssItem ns)) (by
      intro node hnode name hname
      apply name_of_mem_rssItems _ node hnode
      rintro rfl
      exact absurd hname (by decide))
  unfold itemOf at hheading
  obtain ⟨htitle, hlink, hdescription⟩ := PsCast.Item.mk.inj hheading
  unfold channelFeed
  rw [htitle, hlink, hdescription, itemsOf_append hX ns _ (name_of_mem_fields (by decide))]

/-- A document of RSS 0.9x or 2.0 is read back, but for its creator. -/
theorem channelResult_published (hX : Documented X) (ns : Option Bytes) (version : Bytes)
    (feed : PsCast.Feed) :
    channelResult X ns (Format.rssRoot version ns feed).children =
      .ok { feed with dcCreator := [] } := by
  have hgood : ¬ ∃ node ∈ [field (lit "title") ns [] feed.title,
      field (lit "link") ns [] feed.link, field (lit "description") ns [] feed.description] ++
        feed.items.map (Format.rssItem ns), BadItem X ns node := by
    rintro ⟨node, hnode, hbad⟩
    rcases List.mem_append.mp hnode with hfield | hitem
    · exact not_badItem_of_name (name_of_mem_fields (by decide) node hfield) hbad
    · obtain ⟨item, -, rfl⟩ := List.mem_map.mp hitem
      exact not_badItem_rssItem ns item hbad
  rw [← channelFeed_published hX ns feed]
  exact if_neg (not_or.mpr ⟨Option.some_ne_none _, hgood⟩)

/-- The version that the root element names. -/
theorem getProp_rssRoot (hX : Documented X) (version : Bytes) (ns : Option Bytes)
    (feed : PsCast.Feed) :
    X.getProp (Format.rssRoot version ns feed) (lit "version") = some version := by
  rw [hX.getProp]
  rfl

/-! ## RSS 1.0 -/

/-- The nodes of the one channel. -/
theorem channelNodes_published (feed : PsCast.Feed) :
    channelNodes (Format.rdfRoot feed).children =
      [field (lit "title") (some rss10Ns) [] feed.title,
        field (lit "link") (some rss10Ns) [] feed.link,
        field (lit "description") (some rss10Ns) [] feed.description] ++
        [field (lit "creator") (some dcUri) [] feed.dcCreator] := by
  have hitems : channelNodes (feed.items.map (Format.rssItem (some rss10Ns))) = [] := by
    unfold channelNodes
    rw [List.flatMap_eq_nil_iff]
    intro node hnode
    exact if_neg (Bool.eq_false_iff.mp
      (nodeIs_of_other (name_of_mem_rssItems (by decide) node hnode)))
  unfold channelNodes at hitems ⊢
  rw [Format.rdfRoot, element, List.flatMap_cons, hitems, List.append_nil, nodeIs_element,
    decide_eq_true ⟨rfl, rfl⟩, if_pos rfl]
  rfl

/-- A document of RSS 1.0 is read back. -/
theorem rdfFeed_published (hX : Documented X) (feed : PsCast.Feed) :
    rdfFeed X (Format.rdfRoot feed).children = feed := by
  have hheading := itemOf_fields hX (some rss10Ns)
    { title := feed.title, link := feed.link, description := feed.description }
    [field (lit "creator") (some dcUri) [] feed.dcCreator] (by
      intro node hnode name hname
      obtain rfl := List.mem_singleton.mp hnode
      apply name_element
      rintro rfl
      exact absurd hname (by decide))
  have hcreator := textOf_field hX (lit "creator") (some dcUri) [] feed.dcCreator
    [field (lit "title") (some rss10Ns) [] feed.title,
      field (lit "link") (some rss10Ns) [] feed.link,
      field (lit "description") (some rss10Ns) [] feed.description]
    (fun node (h : node ∈ []) => absurd h List.not_mem_nil)
  have hitems : itemsOf X (some rss10Ns) (Format.rdfRoot feed).children = feed.items := by
    apply itemsOf_append hX (some rss10Ns) [_]
    intro node hnode
    obtain rfl := List.mem_singleton.mp hnode
    exact name_element (by decide) _ _ _
  unfold itemOf at hheading
  obtain ⟨htitle, hlink, hdescription⟩ := PsCast.Item.mk.inj hheading
  unfold rdfFeed
  rw [hitems, channelNodes_published, htitle, hlink, hdescription, hcreator]

/-! ## Atom -/

/-- The value of an attribute without a namespace. -/
theorem getProp_element (hX : Documented X) (name : Bytes) (ns : Option Bytes)
    (attributes : List XmlAttr) (children : List XmlNode) (prop : Bytes) :
    getProp X (element name ns attributes children) prop none =
      ((attributes.find? fun a => a.name = prop ∧ a.ns = none).map XmlAttr.value).getD [] :=
  congrArg (fun value => value.getD []) (hX.getNsProp _ prop)

/-- An absolute address is not resolved. -/
theorem absoluteUrl_published (hX : Documented X) {link : Bytes} (hlink : Absolute link)
    (base : Bytes) : absoluteUrl X base link = link := by
  unfold absoluteUrl
  cases huri : X.buildURI link base with
  | none => rfl
  | some uri => exact hX.buildURI link base hlink uri huri

/-- The links have no other name. -/
theorem name_of_mem_atomLink {link name : Bytes} (hne : lit "link" ≠ name) :
    ∀ node ∈ Format.atomLink link, node.name ≠ some name := by
  intro node hnode
  unfold Format.atomLink at hnode
  split at hnode
  · cases hnode
  · obtain rfl := List.mem_singleton.mp hnode
    exact name_element hne _ _ _

/-- The only link is taken. -/
theorem linkOf_published (hX : Documented X) {isLink : XmlNode → Bool}
    (hname : ∀ node, node.name ≠ some (lit "link") → isLink node = false) (base : Bytes)
    {link : Bytes} (hlink : link = [] ∨ Absolute link)
    (hpublished : ∀ node ∈ Format.atomLink link, isLink node = true)
    (front rest : List XmlNode) (hfront : ∀ node ∈ front, node.name ≠ some (lit "link"))
    (hrest : ∀ node ∈ rest, node.name ≠ some (lit "link")) :
    linkOf X isLink base (front ++ (Format.atomLink link ++ rest)) = link := by
  have hnone : ∀ node, node.name ≠ some (lit "link") → hrefOf X isLink base node = none :=
    hrefOf_of_other hname base
  by_cases hnil : link = []
  · have hall : ∀ node ∈ front ++ (Format.atomLink link ++ rest),
        hrefOf X isLink base node = none := by
      intro node hnode
      apply hnone
      rw [hnil] at hnode
      exact (List.mem_append.mp hnode).elim (hfront node) (hrest node)
    unfold linkOf
    rw [lastOf_eq_none hall, hnil]
    rfl
  · have hsingle : Format.atomLink link = [element (lit "link") (some atom10Uri)
        [attr (lit "rel") (lit "alternate"), attr (lit "href") link] []] := if_neg hnil
    rw [hsingle] at hpublished ⊢
    have htaken : hrefOf X isLink base (element (lit "link") (some atom10Uri)
        [attr (lit "rel") (lit "alternate"), attr (lit "href") link] []) = some link := by
      have hhref : getProp X (element (lit "link") (some atom10Uri)
          [attr (lit "rel") (lit "alternate"), attr (lit "href") link] []) (lit "href") none =
          link := by
        rw [getProp_element hX]
        rfl
      unfold hrefOf
      rw [hpublished _ List.mem_cons_self, hhref,
        absoluteUrl_published hX (hlink.resolve_left hnil), if_pos rfl]
    unfold linkOf
    rw [List.singleton_append,
      lastOf_append_cons htaken (fun node hnode => hnone node (hrest node hnode))]
    rfl

/-- A link that is written is the alternate one. -/
theorem rel_of_mem_atomLink (hX : Documented X) {link : Bytes} :
    ∀ node ∈ Format.atomLink link, nodeIs node (lit "link") (some atom10Uri) = true ∧
      getProp X node (lit "rel") none = lit "alternate" := by
  intro node hnode
  unfold Format.atomLink at hnode
  split at hnode
  · cases hnode
  · obtain rfl := List.mem_singleton.mp hnode
    rw [nodeIs_element, getProp_element hX]
    exact ⟨decide_eq_true ⟨rfl, rfl⟩, rfl⟩

/-- A content of the type `text` is read as its text. -/
theorem atomText_published (hX : Documented X) (content : Bytes) :
    atomText X (field (lit "content") (some atom10Uri) [attr (lit "type") (lit "text")] content) =
      some content := by
  have hmode : getProp X (field (lit "content") (some atom10Uri)
      [attr (lit "type") (lit "text")] content) (lit "mode") none = [] := by
    rw [field, getProp_element hX]
    rfl
  have htype : getProp X (field (lit "content") (some atom10Uri)
      [attr (lit "type") (lit "text")] content) (lit "type") none = lit "text" := by
    rw [field, getProp_element hX]
    rfl
  unfold atomText
  dsimp only
  rw [hmode, htype, if_pos (.inr rfl), if_pos (.inr rfl), getContent_field hX]

/-- An entry is read back. -/
theorem entryOf_published (hX : Documented X) (globalbase : Bytes) (item : PsCast.Item)
    (hlink : item.link = [] ∨ Absolute item.link) :
    entryOf X (some atom10Uri) globalbase (Format.atomEntry item) = item := by
  have htitle : textOf X (lit "title") (some atom10Uri) (Format.atomEntry item).children =
      item.title := by
    apply textOf_field hX (lit "title") (some atom10Uri) [] item.title []
    intro node hnode
    rcases List.mem_append.mp hnode with hnode | hnode
    · exact name_of_mem_atomLink (by decide) node hnode
    · obtain rfl := List.mem_singleton.mp hnode
      exact name_element (by decide) _ _ _
  have hhref : linkOf X (isEntryLink X (some atom10Uri))
      (entryBase X globalbase (Format.atomEntry item)) (Format.atomEntry item).children =
      item.link := by
    refine linkOf_published hX isEntryLink_of_other _ hlink ?_ [_] _ ?_ ?_
    · intro node hnode
      obtain ⟨hname, hrel⟩ := rel_of_mem_atomLink hX node hnode
      unfold isEntryLink
      rw [hname, hrel, Bool.true_and]
      exact decide_eq_true (.inr rfl)
    · intro node hnode
      obtain rfl := List.mem_singleton.mp hnode
      exact name_element (by decide) _ _ _
    · intro node hnode
      obtain rfl := List.mem_singleton.mp hnode
      exact name_element (by decide) _ _ _
  have hcontent : atomTextOf X (lit "content") (some atom10Uri) (Format.atomEntry item).children =
      item.description := by
    have htext : atomTextIn X (lit "content") (some atom10Uri)
        (field (lit "content") (some atom10Uri) [attr (lit "type") (lit "text")]
          item.description) = some item.description := by
      unfold atomTextIn
      rw [atomText_published hX, field, nodeIs_element, decide_eq_true ⟨rfl, rfl⟩, if_pos rfl]
    have hlast := lastOf_append_cons htext (fun node (h : node ∈ []) => absurd h List.not_mem_nil)
      (field (lit "title") (some atom10Uri) [] item.title :: Format.atomLink item.link)
    exact congrArg (fun content => content.getD []) hlast
  have hsummary : atomTextOf X (lit "summary") (some atom10Uri) (Format.atomEntry item).children =
      [] := by
    have hnone : ∀ node ∈ (Format.atomEntry item).children,
        atomTextIn X (lit "summary") (some atom10Uri) node = none := by
      intro node hnode
      refine if_neg (Bool.eq_false_iff.mp (nodeIs_of_other ?_))
      rcases List.mem_cons.mp hnode with rfl | hnode
      · exact name_element (by decide) _ _ _
      · rcases List.mem_append.mp hnode with hnode | hnode
        · exact name_of_mem_atomLink (by decide) node hnode
        · obtain rfl := List.mem_singleton.mp hnode
          exact name_element (by decide) _ _ _
    unfold atomTextOf
    rw [lastOf_eq_none hnone]
    rfl
  unfold entryOf
  rw [htitle, hhref, hcontent, hsummary]
  by_cases hnil : item.description = []
  · rw [if_pos hnil, ← hnil]
  · rw [if_neg hnil]

/-- The entries have no other name. -/
theorem name_of_mem_atomEntries {items : List PsCast.Item} {name : Bytes}
    (hne : lit "entry" ≠ name) : ∀ node ∈ items.map Format.atomEntry, node.name ≠ some name := by
  intro node hnode
  obtain ⟨item, -, rfl⟩ := List.mem_map.mp hnode
  exact name_element hne _ _ _

/-- The entries are read back, in their order. -/
theorem entries_published (hX : Documented X) (globalbase : Bytes) (p : Publication) :
    ((p.feed.items.map Format.atomEntry).filter fun node =>
      nodeIs node (lit "entry") (some atom10Uri)).map (entryOf X (some atom10Uri) globalbase) =
      p.feed.items := by
  have hall : (p.feed.items.map Format.atomEntry).filter
      (fun node => nodeIs node (lit "entry") (some atom10Uri)) =
        p.feed.items.map Format.atomEntry := by
    rw [List.filter_eq_self]
    intro node hnode
    obtain ⟨item, -, rfl⟩ := List.mem_map.mp hnode
    rw [Format.atomEntry, nodeIs_element]
    exact decide_eq_true ⟨rfl, rfl⟩
  rw [hall, List.map_map]
  conv_rhs => rw [← List.map_id p.feed.items]
  apply List.map_congr_left
  intro item hitem
  apply entryOf_published hX
  exact p.absolute _ (List.mem_cons_of_mem _ (List.mem_map_of_mem hitem))

/-- An Atom document is read back, but for its creator. -/
theorem atomFeed_published (hX : Documented X) (p : Publication) :
    atomFeed X (some atom10Uri) (Format.atomRoot p.feed) = { p.feed with dcCreator := [] } := by
  have hother : ∀ name, lit "link" ≠ name → lit "entry" ≠ name →
      ∀ node ∈ Format.atomLink p.feed.link ++ p.feed.items.map Format.atomEntry,
        node.name ≠ some name := by
    intro name hlink hentry node hnode
    exact (List.mem_append.mp hnode).elim (name_of_mem_atomLink hlink node)
      (name_of_mem_atomEntries hentry node)
  have hchildren : (Format.atomRoot p.feed).children =
      [field (lit "title") (some atom10Uri) [] p.feed.title,
        field (lit "subtitle") (some atom10Uri) [] p.feed.description] ++
        (Format.atomLink p.feed.link ++ p.feed.items.map Format.atomEntry) :=
    List.append_assoc _ _ _
  have htitle : textOf X (lit "title") (some atom10Uri) (Format.atomRoot p.feed).children =
      p.feed.title := by
    rw [hchildren]
    apply textOf_field hX (lit "title") (some atom10Uri) [] p.feed.title []
    exact List.forall_mem_cons.mpr ⟨name_element (by decide) _ _ _,
      hother _ (by decide) (by decide)⟩
  have hdescription : textOf X (lit "subtitle") (some atom10Uri)
      (Format.atomRoot p.feed).children = p.feed.description := by
    rw [hchildren]
    exact textOf_field hX (lit "subtitle") (some atom10Uri) [] p.feed.description
      [field (lit "title") (some atom10Uri) [] p.feed.title]
      (hother _ (by decide) (by decide))
  have hlink : ∀ base, linkOf X (isAlternate X (some atom10Uri)) base
      (Format.atomRoot p.feed).children = p.feed.link := by
    intro base
    rw [hchildren]
    refine linkOf_published hX isAlternate_of_other base (p.absolute _ List.mem_cons_self) ?_ _ _
      ?_ (name_of_mem_atomEntries (by decide))
    · intro node hnode
      obtain ⟨hname, hrel⟩ := rel_of_mem_atomLink hX node hnode
      unfold isAlternate
      rw [hname, hrel, Bool.true_and]
      exact decide_eq_true rfl
    · exact List.forall_mem_cons.mpr ⟨name_element (by decide) _ _ _,
        List.forall_mem_cons.mpr ⟨name_element (by decide) _ _ _,
          fun _ h => absurd h List.not_mem_nil⟩⟩
  have hitems : ∀ base, ((Format.atomRoot p.feed).children.filter fun node =>
      nodeIs node (lit "entry") (some atom10Uri)).map (entryOf X (some atom10Uri) base) =
        p.feed.items := by
    intro base
    have hnone : ([field (lit "title") (some atom10Uri) [] p.feed.title,
        field (lit "subtitle") (some atom10Uri) [] p.feed.description] ++
          Format.atomLink p.feed.link).filter
            (fun node => nodeIs node (lit "entry") (some atom10Uri)) = [] := by
      rw [List.filter_eq_nil_iff]
      intro node hnode
      refine Bool.eq_false_iff.mp (nodeIs_of_other ?_)
      rcases List.mem_append.mp hnode with hnode | hnode
      · simp only [List.mem_cons, List.not_mem_nil, or_false] at hnode
        rcases hnode with rfl | rfl
        · exact name_element (by decide) _ _ _
        · exact name_element (by decide) _ _ _
      · exact name_of_mem_atomLink (by decide) node hnode
    rw [Format.atomRoot, element, List.filter_append, hnone, List.nil_append]
    exact entries_published hX base p
  unfold atomFeed
  dsimp only
  rw [htitle, hdescription, hlink, hitems]

/-! ## Documents -/

/-- A root element of a known version is parsed under that version. -/
theorem versionOf_rssRoot (hX : Documented X) (version : Bytes) (ns : Option Bytes)
    (feed : PsCast.Feed) {v : Version} (hversion :
      (if version = lit "0.91" then .ok .rss091
      else if version = lit "0.92" then .ok .rss092
      else if version = lit "0.94" then .ok .rss094
      else if version = lit "2.0" ∨ version = lit "2" then .ok .rss20
      else if version = lit "1.0" then .ok .rss091
      else throw (.exception (lit "invalid RSS version"))) = (.ok v : Result Version)) :
    versionOf X (Format.rssRoot version ns feed) = .ok v := by
  have hrss : versionOf X (Format.rssRoot version ns feed) =
      rssVersionOf X (Format.rssRoot version ns feed) := if_pos rfl
  rw [hrss]
  unfold rssVersionOf
  rw [getProp_rssRoot hX]
  exact hversion

/-- What the document of a feed is read as. -/
theorem rootResult_document (hX : Documented X) (p : Publication) (format : Format) :
    ∃ root, (format.document p.feed).root = some root ∧ root.name ≠ none ∧
      root.type = .element ∧ (versionOf X root).bind (rootResult X root) =
        .ok (format.readable p.feed) := by
  cases format with
  | rss091 =>
    refine ⟨_, rfl, Option.some_ne_none _, rfl, ?_⟩
    rw [versionOf_rssRoot hX (lit "0.91") none p.feed rfl]
    exact channelResult_published hX none (lit "0.91") p.feed
  | rss092 =>
    refine ⟨_, rfl, Option.some_ne_none _, rfl, ?_⟩
    rw [versionOf_rssRoot hX (lit "0.92") none p.feed rfl]
    exact channelResult_published hX none (lit "0.92") p.feed
  | rss094 =>
    refine ⟨_, rfl, Option.some_ne_none _, rfl, ?_⟩
    rw [versionOf_rssRoot hX (lit "0.94") none p.feed rfl]
    exact channelResult_published hX none (lit "0.94") p.feed
  | rss20 =>
    refine ⟨_, rfl, Option.some_ne_none _, rfl, ?_⟩
    rw [versionOf_rssRoot hX (lit "2.0") none p.feed rfl]
    exact channelResult_published hX none (lit "2.0") p.feed
  | userland =>
    refine ⟨_, rfl, Option.some_ne_none _, rfl, ?_⟩
    rw [versionOf_rssRoot hX (lit "2.0") (some rss20UserlandUri) p.feed rfl]
    exact channelResult_published hX (some rss20UserlandUri) (lit "2.0") p.feed
  | rdf =>
    refine ⟨_, rfl, Option.some_ne_none _, rfl, ?_⟩
    have hversion : versionOf X (Format.rdfRoot p.feed) = .ok .rss10 := rfl
    rw [hversion]
    exact congrArg Except.ok (rdfFeed_published hX p.feed)
  | atom =>
    refine ⟨_, rfl, Option.some_ne_none _, rfl, ?_⟩
    have hversion : versionOf X (Format.atomRoot p.feed) = .ok .atom10 := rfl
    rw [hversion]
    exact congrArg Except.ok (atomFeed_published hX p)

/-- The document of a feed is read back, in every format. -/
theorem documentResult_document (hX : Documented X) (p : Publication) (format : Format) :
    documentResult X (some (format.document p.feed)) = .ok (format.readable p.feed) := by
  obtain ⟨root, hroot, hname, htype, hresult⟩ := rootResult_document hX p format
  unfold documentResult
  simp only [hroot]
  rw [if_pos ⟨hname, htype⟩, hresult]

/-- What a document with other nodes in it is read as. -/
theorem parseBuffer_publishes (hX : Documented X) {p : Publication} {format : Format}
    {buffer : Bytes} {doc : XmlDoc} (hread : X.readMemory buffer = some doc)
    (h : Publishes X p format doc) :
    (parseBuffer X buffer).map Feedpp.Feed.toFeed = .ok (format.readable p.feed) := by
  rw [parseBuffer_result, hread, documentResult_congr hX h]
  exact documentResult_document hX p format

/-- **A published feed is read back**, in every format. -/
theorem parseBuffer_document (hX : Documented X) (p : Publication) (format : Format)
    (buffer : Bytes) (hread : X.readMemory buffer = some (format.document p.feed)) :
    (parseBuffer X buffer).map Feedpp.Feed.toFeed = .ok (format.readable p.feed) := by
  rw [parseBuffer_result, hread]
  exact documentResult_document hX p format

/-- A feed with one item. -/
def news : Publication where
  feed :=
    { title := lit "News"
      description := lit "Daily"
      link := lit "http://news/"
      items :=
        [{ title := lit "One", link := lit "http://news/1.mp3", description := lit "First" }] }
  absolute := by decide

/-- The feed in Atom. -/
def newsAtom : Bytes :=
  lit "<feed xmlns=\"http://www.w3.org/2005/Atom\"><title>News</title>" ++
  lit "<subtitle>Daily</subtitle><link rel=\"alternate\" href=\"http://news/\"/>" ++
  lit "<entry><title>One</title><link rel=\"alternate\" href=\"http://news/1.mp3\"/>" ++
  lit "<content type=\"text\">First</content></entry></feed>"

/-- The feed in RSS 2.0. -/
def newsRss : Bytes :=
  lit "<rss version=\"2.0\"><channel><title>News</title><link>http://news/</link>" ++
  lit "<description>Daily</description><item><title>One</title>" ++
  lit "<link>http://news/1.mp3</link><description>First</description></item></channel></rss>"

/-- What these two buffers are read as. -/
def readNews (buffer : Bytes) : Option XmlDoc :=
  if buffer = newsAtom then some (Format.atom.document news.feed)
  else if buffer = newsRss then some (Format.rss20.document news.feed)
  else none

theorem readNews_newsAtom :
    (treeTools readNews).readMemory newsAtom = some (Format.atom.document news.feed) := by
  rw [treeTools_readMemory, readNews, if_pos rfl]

theorem readNews_newsRss :
    (treeTools readNews).readMemory newsRss = some (Format.rss20.document news.feed) := by
  have hne : newsRss ≠ newsAtom := by decide +kernel
  rw [treeTools_readMemory, readNews, if_neg hne, if_pos rfl]

/-- It is the same feed in Atom and in RSS 2.0. -/
theorem parseBuffer_document_news :
    (parseBuffer (treeTools readNews) newsAtom).map Feedpp.Feed.toFeed = .ok news.feed ∧
    (parseBuffer (treeTools readNews) newsRss).map Feedpp.Feed.toFeed = .ok news.feed :=
  ⟨parseBuffer_document (documented_treeTools readNews) news .atom newsAtom readNews_newsAtom,
    parseBuffer_document (documented_treeTools readNews) news .rss20 newsRss readNews_newsRss⟩

end Analysis

end PsCast
