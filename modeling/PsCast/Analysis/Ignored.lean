import PsCast.Analysis.Documents
import PsCast.Interface.Document

/-!
# What the parser does not look at

Documents hold more than psCast reads: other elements, elements of other namespaces, comments,
and the white space between all of these. `strip` takes out of a root element every node whose
name psCast does not know at its place, and the feed that is read stays the same, and so does
every failure (`parseBuffer_strip`).
-/

set_option autoImplicit false

namespace PsCast

open Feedpp Library Publishing

namespace Feedpp

/-! ## Taking nodes out -/

/-- The nodes with one of these names. -/
def keepNamed (names : List Bytes) (nodes : List XmlNode) : List XmlNode :=
  nodes.filter fun node => decide (∃ name ∈ names, node.name = some name)

/-- The nodes of a name lose some of their children. -/
def reduceNamed (name : Bytes) (reduce : List XmlNode → List XmlNode) (nodes : List XmlNode) :
    List XmlNode :=
  nodes.map fun node =>
    if node.name = some name then { node with children := reduce node.children } else node

/-- Of a channel its heading and its items stay, and of an item its three texts and its author. -/
def stripChannel (nodes : List XmlNode) : List XmlNode :=
  reduceNamed (lit "item")
    (keepNamed [lit "title", lit "link", lit "description", lit "author"])
    (keepNamed [lit "title", lit "link", lit "description", lit "item"] nodes)

/-- A node without a name stays: before the channel it is a failure. -/
def stripRss (nodes : List XmlNode) : List XmlNode :=
  reduceNamed (lit "channel") stripChannel (nodes.filter isChannel)

/-- Of an RSS 1.0 document the channels and the items stay, with the texts that are read of them. -/
def stripRdf (nodes : List XmlNode) : List XmlNode :=
  reduceNamed (lit "channel")
    (keepNamed [lit "title", lit "link", lit "description", lit "creator"])
    (reduceNamed (lit "item") (keepNamed [lit "title", lit "link", lit "description"])
      (keepNamed [lit "channel", lit "item"] nodes))

/-- Of an entry the elements stay that are read of it. -/
def stripEntry (nodes : List XmlNode) : List XmlNode :=
  keepNamed [lit "title", lit "link", lit "content", lit "summary"] nodes

/-- Of an Atom document the heading and the entries stay. -/
def stripAtom (nodes : List XmlNode) : List XmlNode :=
  reduceNamed (lit "entry") stripEntry
    (keepNamed [lit "title", lit "subtitle", lit "link", lit "entry"] nodes)

/-- The root element with only what psCast looks at. -/
def strip (root : XmlNode) : Version → XmlNode
  | .rss091 | .rss092 | .rss094 | .rss20 => { root with children := stripRss root.children }
  | .rss10 => { root with children := stripRdf root.children }
  | .atom03 | .atom10 | .atom03Nons => { root with children := stripAtom root.children }
  | _ => root

/-- The root element with only what psCast looks at, where its version is known. -/
def stripRoot (X : Tools) (root : XmlNode) : XmlNode :=
  match versionOf X root with
  | .ok version => strip root version
  | .error _ => root

end Feedpp

namespace Analysis

variable {X : Tools} {ns : Option Bytes} {names : List Bytes} {name other : Bytes}
  {reduce : List XmlNode → List XmlNode}

/-! ## Scans -/

/-- A scan that looks at one name sees the same nodes. -/
theorem filterMap_keepNamed {β : Type} (hname : name ∈ names) {value : XmlNode → Option β}
    (hvalue : ∀ node, node.name ≠ some name → value node = none) (nodes : List XmlNode) :
    (keepNamed names nodes).filterMap value = nodes.filterMap value := by
  unfold keepNamed
  rw [List.filterMap_filter]
  apply List.filterMap_congr
  intro node _
  by_cases hkept : ∃ name ∈ names, node.name = some name
  · simp only [hkept, decide_true, if_true]
  · have hnone : value node = none := by
      apply hvalue
      intro heq
      exact hkept ⟨name, hname, heq⟩
    simp [hkept, hnone]

/-- A scan that does not look at the children that are lost sees the same nodes. -/
theorem filterMap_reduceNamed {β : Type} {value : XmlNode → Option β}
    (hvalue : ∀ node, node.name = some name →
      value { node with children := reduce node.children } = value node) (nodes : List XmlNode) :
    (reduceNamed name reduce nodes).filterMap value = nodes.filterMap value := by
  unfold reduceNamed
  rw [List.filterMap_map]
  apply List.filterMap_congr
  intro node _
  show value (if node.name = some name then _ else node) = value node
  split
  · rename_i h
    exact hvalue node h
  · rfl

/-- A scan for another name sees the same nodes. -/
theorem filterMap_reduceNamed_other {β : Type} (hne : other ≠ name) {value : XmlNode → Option β}
    (hvalue : ∀ node, node.name ≠ some name → value node = none) (nodes : List XmlNode) :
    (reduceNamed other reduce nodes).filterMap value = nodes.filterMap value := by
  apply filterMap_reduceNamed
  intro node hother
  have hnot : node.name ≠ some name := by
    rw [hother]
    exact fun heq => hne (Option.some.inj heq)
  rw [hvalue node hnot]
  exact hvalue _ hnot

/-- A node of another name is not the one looked for. -/
theorem nodeIs_of_other {uri : Option Bytes} {node : XmlNode} (h : node.name ≠ some name) :
    nodeIs node name uri = false := if_neg h

/-- Nothing is read of a node of another name. -/
theorem ofNode_of_other {β : Type} {uri : Option Bytes} (value : XmlNode → β) (node : XmlNode)
    (h : node.name ≠ some name) : ofNode name uri value node = none := by
  unfold ofNode
  rw [nodeIs_of_other h]
  rfl

/-- The text of an element is the same if the nodes of its name are kept. -/
theorem textOf_keepNamed (hname : name ∈ names) (nodes : List XmlNode) :
    textOf X name ns (keepNamed names nodes) = textOf X name ns nodes := by
  unfold textOf lastOf
  rw [filterMap_keepNamed hname (ofNode_of_other _)]

/-- The text of an element is the same if nodes of another name lose children. -/
theorem textOf_reduceNamed (hne : other ≠ name) (nodes : List XmlNode) :
    textOf X name ns (reduceNamed other reduce nodes) = textOf X name ns nodes := by
  unfold textOf lastOf
  rw [filterMap_reduceNamed_other hne (ofNode_of_other _)]

/-- A check that looks at some names fails on the same nodes. -/
theorem exists_keepNamed {p : XmlNode → Prop}
    (hp : ∀ node, p node → ∃ name ∈ names, node.name = some name) (nodes : List XmlNode) :
    (∃ node ∈ keepNamed names nodes, p node) ↔ ∃ node ∈ nodes, p node := by
  constructor
  · rintro ⟨node, hnode, h⟩
    exact ⟨node, (List.mem_filter.mp hnode).1, h⟩
  · rintro ⟨node, hnode, h⟩
    exact ⟨node, List.mem_filter.mpr ⟨hnode, decide_eq_true (hp node h)⟩, h⟩

/-- A check that does not look at the children that are lost fails on the same nodes. -/
theorem exists_reduceNamed {p : XmlNode → Prop}
    (hp : ∀ node, node.name = some name →
      (p { node with children := reduce node.children } ↔ p node)) (nodes : List XmlNode) :
    (∃ node ∈ reduceNamed name reduce nodes, p node) ↔ ∃ node ∈ nodes, p node := by
  have hnode : ∀ node : XmlNode, p (if node.name = some name then
      { node with children := reduce node.children } else node) ↔ p node := by
    intro node
    split
    · rename_i h
      exact hp node h
    · exact Iff.rfl
  unfold reduceNamed
  constructor
  · rintro ⟨_, hmem, h⟩
    obtain ⟨node, hold, rfl⟩ := List.mem_map.mp hmem
    exact ⟨node, hold, (hnode node).mp h⟩
  · rintro ⟨node, hold, h⟩
    exact ⟨_, List.mem_map.mpr ⟨node, hold, rfl⟩, (hnode node).mpr h⟩

/-! ## Items -/

/-- An item keeps its texts if the nodes of their names are kept. -/
theorem itemOf_keepNamed (htitle : lit "title" ∈ names) (hlink : lit "link" ∈ names)
    (hdescription : lit "description" ∈ names) (nodes : List XmlNode) :
    itemOf X ns (keepNamed names nodes) = itemOf X ns nodes := by
  unfold itemOf
  rw [textOf_keepNamed htitle, textOf_keepNamed hlink, textOf_keepNamed hdescription]

/-- The items stay in their order. -/
theorem itemsOf_eq_filterMap (nodes : List XmlNode) :
    itemsOf X ns nodes =
      nodes.filterMap (ofNode (lit "item") ns fun node => itemOf X ns node.children) :=
  (filterMap_ofNode _ _ _ nodes).symm

/-- The items are the same if the nodes of their name are kept. -/
theorem itemsOf_keepNamed (hitem : lit "item" ∈ names) (nodes : List XmlNode) :
    itemsOf X ns (keepNamed names nodes) = itemsOf X ns nodes := by
  rw [itemsOf_eq_filterMap, filterMap_keepNamed hitem (ofNode_of_other _), itemsOf_eq_filterMap]

/-- The items are the same if they lose only children that are not looked at. -/
theorem itemsOf_reduceNamed (hreduce : ∀ nodes, itemOf X ns (reduce nodes) = itemOf X ns nodes)
    (nodes : List XmlNode) :
    itemsOf X ns (reduceNamed (lit "item") reduce nodes) = itemsOf X ns nodes := by
  rw [itemsOf_eq_filterMap, filterMap_reduceNamed, itemsOf_eq_filterMap]
  intro node _
  unfold ofNode
  dsimp only
  rw [hreduce]
  rfl

/-- The items are the same if nodes of another name lose children. -/
theorem itemsOf_reduceNamed_other (hne : other ≠ lit "item") (nodes : List XmlNode) :
    itemsOf X ns (reduceNamed other reduce nodes) = itemsOf X ns nodes := by
  rw [itemsOf_eq_filterMap, filterMap_reduceNamed_other hne (ofNode_of_other _),
    itemsOf_eq_filterMap]

/-! ## RSS -/

/-- The heading and the items of a channel stay. -/
theorem channelFeed_stripChannel (nodes : List XmlNode) :
    channelFeed X ns (stripChannel nodes) = channelFeed X ns nodes := by
  unfold channelFeed stripChannel
  rw [textOf_reduceNamed (by decide), textOf_reduceNamed (by decide),
    textOf_reduceNamed (by decide), textOf_keepNamed (by simp), textOf_keepNamed (by simp),
    textOf_keepNamed (by simp), itemsOf_reduceNamed, itemsOf_keepNamed (by simp)]
  exact itemOf_keepNamed (by simp) (by simp) (by simp)

/-- The items on which the parser leaves its memory stay. -/
theorem badItem_stripChannel (nodes : List XmlNode) :
    (∃ node ∈ stripChannel nodes, BadItem X ns node) ↔ ∃ node ∈ nodes, BadItem X ns node := by
  unfold stripChannel
  rw [exists_reduceNamed, exists_keepNamed]
  · rintro node ⟨hitem, -⟩
    exact ⟨_, by simp, name_of_nodeIs hitem⟩
  · intro node _
    apply and_congr_right
    intro _
    apply exists_keepNamed
    rintro child ⟨hauthor, -⟩
    exact ⟨_, by simp, name_of_nodeIs hauthor⟩

/-- A document of RSS 0.9x or 2.0 is read as before. -/
theorem channelResult_stripRss (nodes : List XmlNode) :
    channelResult X ns (stripRss nodes) = channelResult X ns nodes := by
  have hkeep : (isChannel ∘ fun node : XmlNode => if node.name = some (lit "channel") then
      { node with children := stripChannel node.children } else node) = isChannel := by
    funext node
    show isChannel (if node.name = some (lit "channel") then _ else node) = isChannel node
    split <;> rfl
  have htwice : (fun node => decide (isChannel node = true ∧ isChannel node = true)) =
      isChannel := by
    funext node
    simp
  unfold channelResult stripRss reduceNamed
  rw [List.find?_map, hkeep, List.find?_filter, htwice]
  cases hfind : nodes.find? isChannel with
  | none => rfl
  | some channel =>
    dsimp only [Option.map_some]
    by_cases hname : channel.name = none
    · simp only [hname, reduceCtorEq, if_false, true_or, if_true]
    · have hend : isChannel channel = true := List.find?_some hfind
      have hchannel := (of_decide_eq_true hend).resolve_left hname
      simp only [hchannel, if_true, badItem_stripChannel, channelFeed_stripChannel]

/-! ## RSS 1.0 -/

/-- The nodes of all channels, as a scan. -/
theorem channelNodes_eq (nodes : List XmlNode) :
    channelNodes nodes =
      (nodes.filterMap (ofNode (lit "channel") (some rss10Ns) XmlNode.children)).flatten := by
  unfold channelNodes
  induction nodes with
  | nil => rfl
  | cons node nodes ih =>
    rw [List.flatMap_cons, ih]
    unfold ofNode
    cases h : nodeIs node (lit "channel") (some rss10Ns) <;> simp [h]

/-- The channels lose the nodes that all of them together lose. -/
theorem channelNodes_stripRdf (nodes : List XmlNode) :
    channelNodes (stripRdf nodes) =
      keepNamed [lit "title", lit "link", lit "description", lit "creator"]
        (channelNodes nodes) := by
  have hreduce : ∀ nodes : List XmlNode, channelNodes (reduceNamed (lit "channel")
      (keepNamed [lit "title", lit "link", lit "description", lit "creator"]) nodes) =
      keepNamed [lit "title", lit "link", lit "description", lit "creator"]
        (channelNodes nodes) := by
    intro nodes
    unfold channelNodes reduceNamed
    rw [List.flatMap_map]
    unfold keepNamed
    rw [List.filter_flatMap]
    congr 1
    funext node
    by_cases hname : node.name = some (lit "channel")
    · rw [if_pos hname]
      show (if nodeIs node (lit "channel") (some rss10Ns) then _ else []) = _
      split <;> rfl
    · rw [if_neg hname, nodeIs_of_other hname]
      rfl
  unfold stripRdf
  rw [hreduce, channelNodes_eq, filterMap_reduceNamed_other (by decide) (ofNode_of_other _),
    filterMap_keepNamed (by simp) (ofNode_of_other _), ← channelNodes_eq]

/-- A document of RSS 1.0 is read as before. -/
theorem rdfFeed_stripRdf (nodes : List XmlNode) : rdfFeed X (stripRdf nodes) = rdfFeed X nodes := by
  have hitems : itemsOf X (some rss10Ns) (stripRdf nodes) = itemsOf X (some rss10Ns) nodes := by
    unfold stripRdf
    rw [itemsOf_reduceNamed_other (by decide), itemsOf_reduceNamed, itemsOf_keepNamed (by simp)]
    exact itemOf_keepNamed (by simp) (by simp) (by simp)
  unfold rdfFeed
  rw [channelNodes_stripRdf, hitems, textOf_keepNamed (by simp), textOf_keepNamed (by simp),
    textOf_keepNamed (by simp), textOf_keepNamed (by simp)]

/-! ## Atom -/

/-- A node of another name has no address to take. -/
theorem hrefOf_of_other {isLink : XmlNode → Bool}
    (hlink : ∀ node : XmlNode, node.name ≠ some (lit "link") → isLink node = false) (base : Bytes)
    (node : XmlNode) (h : node.name ≠ some (lit "link")) : hrefOf X isLink base node = none := by
  unfold hrefOf
  rw [hlink node h]
  rfl

/-- A node of another name is not the link of an entry. -/
theorem isEntryLink_of_other (node : XmlNode) (h : node.name ≠ some (lit "link")) :
    isEntryLink X ns node = false := by
  unfold isEntryLink
  rw [nodeIs_of_other h, Bool.false_and]

/-- A node of another name is not the link of a feed. -/
theorem isAlternate_of_other (node : XmlNode) (h : node.name ≠ some (lit "link")) :
    isAlternate X ns node = false := by
  unfold isAlternate
  rw [nodeIs_of_other h, Bool.false_and]

/-- The text of an Atom element is the same if the nodes of its name are kept. -/
theorem atomTextOf_keepNamed (hname : name ∈ names) (nodes : List XmlNode) :
    atomTextOf X name ns (keepNamed names nodes) = atomTextOf X name ns nodes := by
  unfold atomTextOf lastOf
  rw [filterMap_keepNamed hname]
  intro node h
  unfold atomTextIn
  rw [nodeIs_of_other h]
  rfl

/-- The attributes of a node do not depend on its children. -/
theorem getProp_children (hX : Documented X) (node : XmlNode) (children : List XmlNode)
    (prop : Bytes) (uri : Option Bytes) :
    getProp X { node with children := children } prop uri = getProp X node prop uri := by
  unfold getProp
  cases uri with
  | none =>
    dsimp only
    rw [hX.getNsProp, hX.getNsProp]
  | some uri =>
    dsimp only
    rw [hX.getProp, hX.getProp]

/-- An entry is read as before. -/
theorem entryOf_stripEntry (hX : Documented X) (globalbase : Bytes) (node : XmlNode) :
    entryOf X ns globalbase { node with children := stripEntry node.children } =
      entryOf X ns globalbase node := by
  have hbase : ∀ children, entryBase X globalbase { node with children := children } =
      entryBase X globalbase node := by
    intro children
    unfold entryBase
    rw [getProp_children hX]
  have hlink : ∀ base, linkOf X (isEntryLink X ns) base (stripEntry node.children) =
      linkOf X (isEntryLink X ns) base node.children := by
    intro base
    unfold linkOf lastOf stripEntry
    rw [filterMap_keepNamed (by simp) (hrefOf_of_other isEntryLink_of_other base)]
  unfold entryOf
  rw [hbase, hlink]
  unfold stripEntry
  rw [textOf_keepNamed (by simp), atomTextOf_keepNamed (by simp), atomTextOf_keepNamed (by simp)]

/-- An Atom document is read as before. -/
theorem atomFeed_stripAtom (hX : Documented X) (root : XmlNode) :
    atomFeed X ns { root with children := stripAtom root.children } = atomFeed X ns root := by
  have hentries : ∀ base, ((stripAtom root.children).filter fun node =>
      nodeIs node (lit "entry") ns).map (entryOf X ns base) =
      (root.children.filter fun node => nodeIs node (lit "entry") ns).map
        (entryOf X ns base) := by
    intro base
    unfold stripAtom
    rw [← filterMap_ofNode, ← filterMap_ofNode, filterMap_reduceNamed,
      filterMap_keepNamed (by simp) (ofNode_of_other _)]
    intro node _
    unfold ofNode
    rw [entryOf_stripEntry hX]
    rfl
  have hlink : ∀ base, linkOf X (isAlternate X ns) base (stripAtom root.children) =
      linkOf X (isAlternate X ns) base root.children := by
    intro base
    have hother : ∀ node : XmlNode, node.name ≠ some (lit "link") →
        hrefOf X (isAlternate X ns) base node = none := hrefOf_of_other isAlternate_of_other base
    unfold linkOf lastOf stripAtom
    rw [filterMap_reduceNamed_other (by decide) hother, filterMap_keepNamed (by simp) hother]
  unfold atomFeed
  dsimp only
  rw [getProp_children hX, hentries, hlink]
  unfold stripAtom
  rw [textOf_reduceNamed (by decide), textOf_reduceNamed (by decide), textOf_keepNamed (by simp),
    textOf_keepNamed (by simp)]

/-! ## Documents -/

/-- In every format the root element is read as before. -/
theorem rootResult_strip (hX : Documented X) (root : XmlNode) (version : Version) :
    rootResult X (strip root version) version = rootResult X root version := by
  cases version with
  | rss091 => exact channelResult_stripRss root.children
  | rss092 => exact channelResult_stripRss root.children
  | rss094 => exact channelResult_stripRss root.children
  | rss20 => exact channelResult_stripRss root.children
  | rss10 => exact congrArg Except.ok (rdfFeed_stripRdf root.children)
  | atom03 => exact congrArg Except.ok (atomFeed_stripAtom hX root)
  | atom10 => exact congrArg Except.ok (atomFeed_stripAtom hX root)
  | atom03Nons => exact congrArg Except.ok (atomFeed_stripAtom hX root)
  | unknown => rfl
  | ttrssJson => rfl
  | newsblurJson => rfl

/-- Only the children of the root element change. -/
theorem strip_eq (root : XmlNode) (version : Version) :
    strip root version = { root with children := (strip root version).children } := by
  cases root
  cases version <;> rfl

theorem strip_name (root : XmlNode) (version : Version) :
    (strip root version).name = root.name := by
  rw [strip_eq]

theorem strip_type (root : XmlNode) (version : Version) :
    (strip root version).type = root.type := by
  rw [strip_eq]

/-- The version does not depend on the children. -/
theorem versionOf_strip (hX : Documented X) (root : XmlNode) (version : Version) :
    versionOf X (strip root version) = versionOf X root := by
  rw [strip_eq]
  unfold versionOf rssVersionOf atomVersionOf
  dsimp only
  rw [hX.getProp, hX.getProp]

/-- A document is read as before, whatever encoding it names. -/
theorem documentResult_stripRoot (hX : Documented X) (root : Option XmlNode)
    (encoding encoding' : Option Bytes) :
    documentResult X (some { root := root.map (stripRoot X), encoding := encoding }) =
      documentResult X (some { root := root, encoding := encoding' }) := by
  cases root with
  | none => rfl
  | some root =>
    unfold documentResult stripRoot
    dsimp only [Option.map_some]
    cases hversion : versionOf X root with
    | error failure =>
      dsimp only
      rw [hversion]
    | ok version =>
      simp only [strip_name, strip_type, versionOf_strip hX, hversion]
      show (if _ then rootResult X _ version else _) = if _ then rootResult X root version else _
      rw [rootResult_strip hX]

/-- Documents that differ only in nodes with other names, and in the encoding, are read as the
same. -/
theorem documentResult_congr (hX : Documented X) {doc doc' : XmlDoc}
    (hsame : doc.root.map (stripRoot X) = doc'.root.map (stripRoot X)) :
    documentResult X (some doc) = documentResult X (some doc') :=
  calc documentResult X (some doc)
      = documentResult X (some { root := doc.root.map (stripRoot X), encoding := none }) :=
        (documentResult_stripRoot hX doc.root none doc.encoding).symm
    _ = documentResult X (some { root := doc'.root.map (stripRoot X), encoding := none }) := by
        rw [hsame]
    _ = documentResult X (some doc') := documentResult_stripRoot hX doc'.root none doc'.encoding

/-- **The parser reads only the names that it knows**: two buffers whose documents differ only
in other nodes give the same feed, or fail in the same way. -/
theorem parseBuffer_strip (hX : Documented X) {buffer buffer' : Bytes} {doc doc' : XmlDoc}
    (hread : X.readMemory buffer = some doc) (hread' : X.readMemory buffer' = some doc')
    (hsame : doc.root.map (stripRoot X) = doc'.root.map (stripRoot X)) :
    (parseBuffer X buffer).map Feedpp.Feed.toFeed =
      (parseBuffer X buffer').map Feedpp.Feed.toFeed := by
  rw [parseBuffer_result, parseBuffer_result, hread, hread']
  exact documentResult_congr hX hsame

/-- A document with nothing but a title. -/
def bare : Bytes := lit "<rss version=\"2.0\"><channel><title>News</title></channel></rss>"

/-- This document with white space and an element that psCast does not know. -/
def filled : Bytes :=
  lit "<rss version=\"2.0\"> <channel><title>News</title><ttl>60</ttl> </channel></rss>"

/-- The tree of the first one. -/
def bareDocument : XmlDoc :=
  { root := some (element (lit "rss") none [attr (lit "version") (lit "2.0")]
      [element (lit "channel") none [] [field (lit "title") none [] (lit "News")]]) }

/-- The tree of the second one. -/
def filledDocument : XmlDoc :=
  { root := some (element (lit "rss") none [attr (lit "version") (lit "2.0")]
      [text (lit " "), element (lit "channel") none []
        [field (lit "title") none [] (lit "News"), field (lit "ttl") none [] (lit "60"),
          text (lit " ")]]) }

/-- What these two buffers are read as. -/
def readChannel (buffer : Bytes) : Option XmlDoc :=
  if buffer = bare then some bareDocument
  else if buffer = filled then some filledDocument
  else none

theorem readChannel_bare :
    (treeTools readChannel).readMemory bare = some bareDocument := by
  rw [treeTools_readMemory, readChannel, if_pos rfl]

theorem readChannel_filled :
    (treeTools readChannel).readMemory filled = some filledDocument := by
  have hne : filled ≠ bare := by decide +kernel
  rw [treeTools_readMemory, readChannel, if_neg hne, if_pos rfl]

/-- The two give the same feed. -/
theorem parseBuffer_strip_channel :
    (parseBuffer (treeTools readChannel) filled).map Feedpp.Feed.toFeed =
      (parseBuffer (treeTools readChannel) bare).map Feedpp.Feed.toFeed :=
  parseBuffer_strip (documented_treeTools readChannel) readChannel_filled readChannel_bare rfl

end Analysis

end PsCast
