import PsCast.Analysis.RssDocument

/-!
# What is read of an Atom document

The link of a feed must say that it is the alternate one, the link of an entry may also say
nothing; both are resolved against the base that is nearest. The text of an entry is its
content, and its summary where the content is missing or empty. No document is refused
(`atomParseFeed_toFeed`).
-/

set_option autoImplicit false

namespace PsCast

open Feedpp Library

namespace Feedpp

/-- Whether a link of a feed is taken. -/
def isAlternate (X : Tools) (ns : Option Bytes) (node : XmlNode) : Bool :=
  nodeIs node (lit "link") ns && decide (getProp X node (lit "rel") none = lit "alternate")

/-- Whether a link of an entry is taken. -/
def isEntryLink (X : Tools) (ns : Option Bytes) (node : XmlNode) : Bool :=
  nodeIs node (lit "link") ns && decide (getProp X node (lit "rel") none = [] ∨
    getProp X node (lit "rel") none = lit "alternate")

/-- The address of a link that is taken. -/
def hrefOf (X : Tools) (isLink : XmlNode → Bool) (base : Bytes) (node : XmlNode) : Option Bytes :=
  if isLink node then some (absoluteUrl X base (getProp X node (lit "href") none)) else none

/-- The address of the last link, resolved against the base. -/
def linkOf (X : Tools) (isLink : XmlNode → Bool) (base : Bytes) (nodes : List XmlNode) : Bytes :=
  (lastOf (hrefOf X isLink base) nodes).getD []

/-- The text of an element of a name, if it has one. -/
def atomTextIn (X : Tools) (name : Bytes) (ns : Option Bytes) (node : XmlNode) : Option Bytes :=
  if nodeIs node name ns then atomText X node else none

/-- The last text that elements of this name have. -/
def atomTextOf (X : Tools) (name : Bytes) (ns : Option Bytes) (nodes : List XmlNode) : Bytes :=
  (lastOf (atomTextIn X name ns) nodes).getD []

/-- The base of an entry is its own or the one of the document. -/
def entryBase (X : Tools) (globalbase : Bytes) (node : XmlNode) : Bytes :=
  if getProp X node (lit "base") (some xmlUri) = [] then globalbase
  else getProp X node (lit "base") (some xmlUri)

/-- What psCast reads of an entry. -/
def entryOf (X : Tools) (ns : Option Bytes) (globalbase : Bytes) (node : XmlNode) : PsCast.Item :=
  { title := textOf X (lit "title") ns node.children
    link := linkOf X (isEntryLink X ns) (entryBase X globalbase node) node.children
    description :=
      if atomTextOf X (lit "content") ns node.children = [] then
        atomTextOf X (lit "summary") ns node.children
      else atomTextOf X (lit "content") ns node.children }

/-- What psCast reads of a `feed` element. -/
def atomFeed (X : Tools) (ns : Option Bytes) (root : XmlNode) : PsCast.Feed :=
  let globalbase := getProp X root (lit "base") (some xmlUri)
  { title := textOf X (lit "title") ns root.children
    description := textOf X (lit "subtitle") ns root.children
    link := linkOf X (isAlternate X ns) globalbase root.children
    items := (root.children.filter fun node => nodeIs node (lit "entry") ns).map
      (entryOf X ns globalbase) }

end Feedpp

namespace Analysis

variable {X : Tools} {ns : Option Bytes} {base : Bytes} {node : XmlNode}

/-! ## Entries -/

/-- The authors of an entry are nothing that psCast reads. -/
theorem atomAuthorNode_toItem (it : Feedpp.Item) (node : XmlNode) :
    (atomAuthorNode X ns it node).toItem = it.toItem := by
  unfold atomAuthorNode
  split <;> rfl

/-- The texts that `parse_entry` has at hand. -/
structure EntryTexts where
  title : Bytes := []
  link : Bytes := []
  content : Bytes := []
  summary : Bytes := []

/-- The texts that an entry has so far. -/
def entryTexts (s : EntryState) : EntryTexts :=
  { title := s.it.title, link := s.it.link, content := s.it.description, summary := s.summary }

/-- These texts after a node. -/
def stepEntry (X : Tools) (ns : Option Bytes) (base : Bytes) (t : EntryTexts) (node : XmlNode) :
    EntryTexts :=
  { title := (ofNode (lit "title") ns (getContent X) node).getD t.title
    link := (hrefOf X (isEntryLink X ns) base node).getD t.link
    content := (atomTextIn X (lit "content") ns node).getD t.content
    summary := (atomTextIn X (lit "summary") ns node).getD t.summary }

/-- A node with another name leaves these texts. -/
theorem stepEntry_other {name : Bytes} (h : nodeIs node name ns = true)
    (hname : name ∉ [lit "title", lit "link", lit "content", lit "summary"]) (t : EntryTexts) :
    stepEntry X ns base t node = t := by
  have hother : ∀ other ∈ [lit "title", lit "link", lit "content", lit "summary"],
      nodeIs node other ns = false := by
    intro other hmem
    apply nodeIs_of_ne h
    rintro rfl
    exact hname hmem
  unfold stepEntry ofNode hrefOf atomTextIn isEntryLink
  rw [hother (lit "title") (by decide), hother (lit "link") (by decide),
    hother (lit "content") (by decide), hother (lit "summary") (by decide)]
  rfl

/-- A title replaces the one before. -/
theorem stepEntry_title (h : nodeIs node (lit "title") ns = true) (t : EntryTexts) :
    stepEntry X ns base t node = { t with title := getContent X node } := by
  unfold stepEntry ofNode hrefOf atomTextIn isEntryLink
  rw [h, nodeIs_of_ne h (by decide : lit "title" ≠ lit "link"),
    nodeIs_of_ne h (by decide : lit "title" ≠ lit "content"),
    nodeIs_of_ne h (by decide : lit "title" ≠ lit "summary")]
  rfl

/-- A link is taken if it has no relation or is the alternate one. -/
theorem stepEntry_link (h : nodeIs node (lit "link") ns = true) (t : EntryTexts) :
    stepEntry X ns base t node =
      if getProp X node (lit "rel") none = [] ∨ getProp X node (lit "rel") none = lit "alternate"
      then { t with link := absoluteUrl X base (getProp X node (lit "href") none) }
      else t := by
  unfold stepEntry ofNode hrefOf atomTextIn isEntryLink
  rw [h, nodeIs_of_ne h (by decide : lit "link" ≠ lit "title"),
    nodeIs_of_ne h (by decide : lit "link" ≠ lit "content"),
    nodeIs_of_ne h (by decide : lit "link" ≠ lit "summary"), Bool.true_and]
  by_cases hrel : getProp X node (lit "rel") none = [] ∨
      getProp X node (lit "rel") none = lit "alternate"
  · rw [if_pos hrel, decide_eq_true hrel]
    rfl
  · rw [if_neg hrel, decide_eq_false hrel]
    rfl

/-- A content that can be read replaces the one before. -/
theorem stepEntry_content (h : nodeIs node (lit "content") ns = true) (t : EntryTexts) :
    stepEntry X ns base t node = { t with content := (atomText X node).getD t.content } := by
  unfold stepEntry ofNode hrefOf atomTextIn isEntryLink
  rw [h, nodeIs_of_ne h (by decide : lit "content" ≠ lit "title"),
    nodeIs_of_ne h (by decide : lit "content" ≠ lit "link"),
    nodeIs_of_ne h (by decide : lit "content" ≠ lit "summary")]
  rfl

/-- A summary that can be read replaces the one before. -/
theorem stepEntry_summary (h : nodeIs node (lit "summary") ns = true) (t : EntryTexts) :
    stepEntry X ns base t node = { t with summary := (atomText X node).getD t.summary } := by
  unfold stepEntry ofNode hrefOf atomTextIn isEntryLink
  rw [h, nodeIs_of_ne h (by decide : lit "summary" ≠ lit "title"),
    nodeIs_of_ne h (by decide : lit "summary" ≠ lit "link"),
    nodeIs_of_ne h (by decide : lit "summary" ≠ lit "content")]
  rfl

/-- A node with none of these names leaves these texts. -/
theorem stepEntry_none (htitle : ¬ nodeIs node (lit "title") ns = true)
    (hlink : ¬ nodeIs node (lit "link") ns = true)
    (hcontent : ¬ nodeIs node (lit "content") ns = true)
    (hsummary : ¬ nodeIs node (lit "summary") ns = true) (t : EntryTexts) :
    stepEntry X ns base t node = t := by
  unfold stepEntry ofNode hrefOf atomTextIn isEntryLink
  rw [if_neg htitle, if_neg hcontent, if_neg hsummary, eq_false_of_ne_true hlink]
  rfl

/-- A round of the loop over an entry, as far as its texts go. -/
theorem atomEntryNode_texts (s : EntryState) (node : XmlNode) :
    entryTexts (atomEntryNode X ns base s node) = stepEntry X ns base (entryTexts s) node := by
  unfold atomEntryNode
  by_cases hauthor : nodeIs node (lit "author") ns = true
  · have hkeep : (node.children.foldl (atomAuthorNode X ns) s.it).toItem = s.it.toItem :=
      foldl_keep Feedpp.Item.toItem atomAuthorNode_toItem node.children s.it
    rw [if_pos hauthor, stepEntry_other hauthor (by decide)]
    exact congrArg (fun item : PsCast.Item => ({ title := item.title
                                                 link := item.link
                                                 content := item.description
                                                 summary := s.summary } : EntryTexts)) hkeep
  rw [if_neg hauthor]
  by_cases htitle : nodeIs node (lit "title") ns = true
  · rw [if_pos htitle, stepEntry_title htitle]
    rfl
  rw [if_neg htitle]
  by_cases hcontent : nodeIs node (lit "content") ns = true
  · rw [if_pos hcontent, stepEntry_content hcontent]
    rfl
  rw [if_neg hcontent]
  by_cases hid : nodeIs node (lit "id") ns = true
  · rw [if_pos hid, stepEntry_other hid (by decide)]
    rfl
  rw [if_neg hid]
  by_cases hpublished : nodeIs node (lit "published") ns = true
  · rw [if_pos hpublished, stepEntry_other hpublished (by decide)]
    rfl
  rw [if_neg hpublished]
  by_cases hupdated : nodeIs node (lit "updated") ns = true
  · rw [if_pos hupdated, stepEntry_other hupdated (by decide)]
    rfl
  rw [if_neg hupdated]
  by_cases hlink : nodeIs node (lit "link") ns = true
  · rw [if_pos hlink, stepEntry_link hlink]
    by_cases hrel : getProp X node (lit "rel") none = [] ∨
        getProp X node (lit "rel") none = lit "alternate"
    · rw [if_pos hrel]
      dsimp only
      rw [if_pos hrel]
      rfl
    · rw [if_neg hrel]
      dsimp only
      rw [if_neg hrel]
      -- an enclosure is not among these texts
      split <;> rfl
  rw [if_neg hlink]
  by_cases hsummary : nodeIs node (lit "summary") ns = true
  · rw [if_pos hsummary, stepEntry_summary hsummary]
    rfl
  rw [if_neg hsummary, stepEntry_none htitle hlink hcontent hsummary]
  split <;> rfl

/-- The summary stands in for a content that is missing or empty. -/
theorem atomParseEntry_texts (X : Tools) (ns : Option Bytes) (globalbase : Bytes)
    (node : XmlNode) :
    (atomParseEntry X ns globalbase node).toItem =
      let t := entryTexts (node.children.foldl
        (atomEntryNode X ns (entryBase X globalbase node)) {})
      { title := t.title
        link := t.link
        description := if t.content = [] then t.summary else t.content } := by
  unfold atomParseEntry entryBase entryTexts
  dsimp only
  generalize node.children.foldl (atomEntryNode X ns
    (if getProp X node (lit "base") (some xmlUri) = [] then globalbase
    else getProp X node (lit "base") (some xmlUri))) {} = s
  by_cases hcontent : s.it.description = []
  · simp only [if_pos hcontent]
    split <;> rfl
  · simp only [if_neg hcontent]
    split <;> rfl

/-- **An entry.** -/
theorem atomParseEntry_toItem (X : Tools) (ns : Option Bytes) (globalbase : Bytes)
    (entry : XmlNode) :
    (atomParseEntry X ns globalbase entry).toItem = entryOf X ns globalbase entry := by
  have hstep : ∀ s node, entryTexts (atomEntryNode X ns (entryBase X globalbase entry) s node) =
      stepEntry X ns (entryBase X globalbase entry) (entryTexts s) node := atomEntryNode_texts
  have htitle := foldl_last (fun s => (entryTexts s).title) _
    (fun s node => congrArg EntryTexts.title (hstep s node)) entry.children {}
  have hlink := foldl_last (fun s => (entryTexts s).link) _
    (fun s node => congrArg EntryTexts.link (hstep s node)) entry.children {}
  have hcontent := foldl_last (fun s => (entryTexts s).content) _
    (fun s node => congrArg EntryTexts.content (hstep s node)) entry.children {}
  have hsummary := foldl_last (fun s => (entryTexts s).summary) _
    (fun s node => congrArg EntryTexts.summary (hstep s node)) entry.children {}
  rw [atomParseEntry_texts]
  dsimp only
  rw [htitle, hlink, hcontent, hsummary]
  rfl

/-! ## Documents -/

/-- What a node of a document adds, and what it overwrites. -/
def stepAtom (X : Tools) (ns : Option Bytes) (globalbase : Bytes) (f : PsCast.Feed)
    (node : XmlNode) : PsCast.Feed :=
  { f with
    title := (ofNode (lit "title") ns (getContent X) node).getD f.title
    description := (ofNode (lit "subtitle") ns (getContent X) node).getD f.description
    link := (hrefOf X (isAlternate X ns) globalbase node).getD f.link
    items := f.items ++ (ofNode (lit "entry") ns (entryOf X ns globalbase) node).toList }

/-- A title replaces the one before. -/
theorem stepAtom_title (h : nodeIs node (lit "title") ns = true) (f : PsCast.Feed) :
    stepAtom X ns base f node = { f with title := getContent X node } := by
  unfold stepAtom ofNode hrefOf isAlternate
  rw [h, nodeIs_of_ne h (by decide : lit "title" ≠ lit "subtitle"),
    nodeIs_of_ne h (by decide : lit "title" ≠ lit "link"),
    nodeIs_of_ne h (by decide : lit "title" ≠ lit "entry")]
  simp

/-- A subtitle is the description. -/
theorem stepAtom_subtitle (h : nodeIs node (lit "subtitle") ns = true) (f : PsCast.Feed) :
    stepAtom X ns base f node = { f with description := getContent X node } := by
  unfold stepAtom ofNode hrefOf isAlternate
  rw [h, nodeIs_of_ne h (by decide : lit "subtitle" ≠ lit "title"),
    nodeIs_of_ne h (by decide : lit "subtitle" ≠ lit "link"),
    nodeIs_of_ne h (by decide : lit "subtitle" ≠ lit "entry")]
  simp

/-- Of the links of a feed only the alternate one is taken. -/
theorem stepAtom_link (h : nodeIs node (lit "link") ns = true) (f : PsCast.Feed) :
    stepAtom X ns base f node =
      if getProp X node (lit "rel") none = lit "alternate"
      then { f with link := absoluteUrl X base (getProp X node (lit "href") none) }
      else f := by
  unfold stepAtom ofNode hrefOf isAlternate
  rw [h, nodeIs_of_ne h (by decide : lit "link" ≠ lit "title"),
    nodeIs_of_ne h (by decide : lit "link" ≠ lit "subtitle"),
    nodeIs_of_ne h (by decide : lit "link" ≠ lit "entry"), Bool.true_and]
  by_cases hrel : getProp X node (lit "rel") none = lit "alternate"
  · rw [if_pos hrel, decide_eq_true hrel]
    simp
  · rw [if_neg hrel, decide_eq_false hrel]
    simp

/-- An entry is appended. -/
theorem stepAtom_entry (h : nodeIs node (lit "entry") ns = true) (f : PsCast.Feed) :
    stepAtom X ns base f node = { f with items := f.items ++ [entryOf X ns base node] } := by
  unfold stepAtom ofNode hrefOf isAlternate
  rw [h, nodeIs_of_ne h (by decide : lit "entry" ≠ lit "title"),
    nodeIs_of_ne h (by decide : lit "entry" ≠ lit "subtitle"),
    nodeIs_of_ne h (by decide : lit "entry" ≠ lit "link")]
  rfl

/-- A child with another name changes nothing. -/
theorem stepAtom_none (htitle : ¬ nodeIs node (lit "title") ns = true)
    (hsubtitle : ¬ nodeIs node (lit "subtitle") ns = true)
    (hlink : ¬ nodeIs node (lit "link") ns = true)
    (hentry : ¬ nodeIs node (lit "entry") ns = true) (f : PsCast.Feed) :
    stepAtom X ns base f node = f := by
  unfold stepAtom ofNode hrefOf isAlternate
  rw [if_neg htitle, if_neg hsubtitle, if_neg hentry, eq_false_of_ne_true hlink]
  simp

/-- A round of the loop over a feed, as far as psCast reads it. -/
theorem atomNode_toFeed (f : Feedpp.Feed) (node : XmlNode) :
    (atomNode X ns base f node).toFeed = stepAtom X ns base f.toFeed node := by
  unfold atomNode
  by_cases htitle : nodeIs node (lit "title") ns = true
  · rw [if_pos htitle, stepAtom_title htitle]
    rfl
  rw [if_neg htitle]
  by_cases hsubtitle : nodeIs node (lit "subtitle") ns = true
  · rw [if_pos hsubtitle, stepAtom_subtitle hsubtitle]
    rfl
  rw [if_neg hsubtitle]
  by_cases hlink : nodeIs node (lit "link") ns = true
  · rw [if_pos hlink, stepAtom_link hlink]
    split <;> rfl
  rw [if_neg hlink]
  by_cases hupdated : nodeIs node (lit "updated") ns = true
  · have hentry : ¬ nodeIs node (lit "entry") ns = true := by
      rw [nodeIs_of_ne hupdated (by decide)]
      exact Bool.false_ne_true
    rw [if_pos hupdated, stepAtom_none htitle hsubtitle hlink hentry]
    rfl
  rw [if_neg hupdated]
  by_cases hentry : nodeIs node (lit "entry") ns = true
  · rw [if_pos hentry, stepAtom_entry hentry, ← atomParseEntry_toItem]
    unfold Feedpp.Feed.toFeed
    rw [List.map_append]
    rfl
  · rw [if_neg hentry, stepAtom_none htitle hsubtitle hlink hentry]

/-- What the loop over the children of a feed comes to. -/
theorem foldl_stepAtom (nodes : List XmlNode) :
    nodes.foldl (stepAtom X ns base) {} =
      { title := textOf X (lit "title") ns nodes
        description := textOf X (lit "subtitle") ns nodes
        link := linkOf X (isAlternate X ns) base nodes
        items := (nodes.filter fun node => nodeIs node (lit "entry") ns).map
          (entryOf X ns base) } := by
  have htitle : (nodes.foldl (stepAtom X ns base) {}).title = textOf X (lit "title") ns nodes :=
    foldl_last PsCast.Feed.title _ (fun _ _ => rfl) nodes {}
  have hdescription : (nodes.foldl (stepAtom X ns base) {}).description =
      textOf X (lit "subtitle") ns nodes :=
    foldl_last PsCast.Feed.description _ (fun _ _ => rfl) nodes {}
  have hlink : (nodes.foldl (stepAtom X ns base) {}).link =
      linkOf X (isAlternate X ns) base nodes :=
    foldl_last PsCast.Feed.link _ (fun _ _ => rfl) nodes {}
  have hcreator : (nodes.foldl (stepAtom X ns base) {}).dcCreator = [] :=
    foldl_keep PsCast.Feed.dcCreator
      (fun f node => (rfl : (stepAtom X ns base f node).dcCreator = f.dcCreator)) nodes {}
  have hitems : (nodes.foldl (stepAtom X ns base) {}).items =
      (nodes.filter fun node => nodeIs node (lit "entry") ns).map (entryOf X ns base) := by
    rw [← filterMap_ofNode]
    exact foldl_collect PsCast.Feed.items _ nodes (fun _ _ _ => rfl) {}
  cases hend : nodes.foldl (stepAtom X ns base) {} with
  | mk title description link dcCreator items =>
    rw [hend] at htitle hdescription hlink hcreator hitems
    dsimp only at htitle hdescription hlink hcreator hitems
    rw [htitle, hdescription, hlink, hcreator, hitems]

/-- **Atom.** -/
theorem atomParseFeed_toFeed (X : Tools) (root : XmlNode) (version : Version) :
    (atomParseFeed X { rssVersion := version } root).toFeed =
      atomFeed X (atomNs version) root := by
  have hhom : (atomParseFeed X { rssVersion := version } root).toFeed =
      root.children.foldl (stepAtom X (atomNs version) (getProp X root (lit "base") (some xmlUri)))
        {} :=
    (List.foldl_hom Feedpp.Feed.toFeed fun f node => (atomNode_toFeed f node).symm).symm
  rw [hhom, foldl_stepAtom]
  rfl

end Analysis

end PsCast
