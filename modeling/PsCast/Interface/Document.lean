import PsCast.Model.Feedpp

/-!
# Published feeds

The documents in which a publisher writes a feed, one for each format that the parser knows
(`Format.document`), and what of the feed can be read back from them (`Format.readable`): of a
creator only RSS 1.0 speaks. `Documented` is what libxml2 promises of its accessors on such
trees; `treeTools` looks at the trees itself.
-/

set_option autoImplicit false

namespace PsCast.Publishing

open Feedpp

/-! ## Trees -/

/-- An attribute without a namespace. -/
def attr (name value : Bytes) : XmlAttr := { name := name, value := value }

/-- A text node, as libxml2 names it. -/
def text (content : Bytes) : XmlNode :=
  { type := .text, name := some (lit "text"), content := some content }

/-- An element with the namespace of this address, if one is given. -/
def element (name : Bytes) (ns : Option Bytes) (attributes : List XmlAttr)
    (children : List XmlNode) : XmlNode :=
  { name := some name
    ns := ns.map fun uri => { href := some uri }
    attributes := attributes
    children := children }

/-- An element with a text. -/
def field (name : Bytes) (ns : Option Bytes) (attributes : List XmlAttr) (content : Bytes) :
    XmlNode :=
  element name ns attributes (if content = [] then [] else [text content])

/-- An address with a scheme. -/
def Absolute (link : Bytes) : Prop := lit "http://" <+: link ∨ lit "https://" <+: link

instance (link : Bytes) : Decidable (Absolute link) := inferInstanceAs (Decidable (_ ∨ _))

/-- The accessors of libxml2 on trees of a document without a document type. `xmlBuildURI`
leaves an address with a scheme as it is, and fails on one that it cannot parse. -/
structure Documented (X : Tools) : Prop where
  content : ∀ name ns attributes content,
    (X.nodeGetContent (field name ns attributes content)).getD [] = content
  getProp : ∀ node name,
    X.getProp node name = (node.attributes.find? (·.name = name)).map XmlAttr.value
  getNsProp : ∀ node name, X.getNsProp node name none =
    (node.attributes.find? fun a => a.name = name ∧ a.ns = none).map XmlAttr.value
  buildURI : ∀ link base, Absolute link → ∀ uri ∈ X.buildURI link base, uri = link

/-! ## Formats -/

/-- A feed whose addresses are absolute. -/
structure Publication where
  feed : PsCast.Feed
  absolute : ∀ link ∈ feed.link :: feed.items.map PsCast.Item.link, link = [] ∨ Absolute link

/-- The formats. `userland` is RSS 2.0 in the namespace of Userland. -/
inductive Format where
  | rss091
  | rss092
  | rss094
  | rss20
  | userland
  | rdf
  | atom
  deriving DecidableEq, Repr

namespace Format

/-! ### RSS 0.9x and 2.0 -/

/-- An item of RSS, with the three texts that psCast reads of it. -/
def rssItem (ns : Option Bytes) (item : PsCast.Item) : XmlNode :=
  element (lit "item") ns []
    [field (lit "title") ns [] item.title, field (lit "link") ns [] item.link,
      field (lit "description") ns [] item.description]

/-- The root element of RSS 0.9x and 2.0. -/
def rssRoot (version : Bytes) (ns : Option Bytes) (feed : PsCast.Feed) : XmlNode :=
  element (lit "rss") ns [attr (lit "version") version]
    [element (lit "channel") ns []
      ([field (lit "title") ns [] feed.title, field (lit "link") ns [] feed.link,
        field (lit "description") ns [] feed.description] ++ feed.items.map (rssItem ns))]

/-! ### RSS 1.0 -/

/-- The items stand beside the channel. -/
def rdfRoot (feed : PsCast.Feed) : XmlNode :=
  element (lit "RDF") (some rdfUri) []
    (element (lit "channel") (some rss10Ns) []
      [field (lit "title") (some rss10Ns) [] feed.title,
        field (lit "link") (some rss10Ns) [] feed.link,
        field (lit "description") (some rss10Ns) [] feed.description,
        field (lit "creator") (some dcUri) [] feed.dcCreator] ::
      feed.items.map (rssItem (some rss10Ns)))

/-! ### Atom -/

/-- A link stands in an attribute; where there is none the element is left out. -/
def atomLink (link : Bytes) : List XmlNode :=
  if link = [] then []
  else [element (lit "link") (some atom10Uri)
    [attr (lit "rel") (lit "alternate"), attr (lit "href") link] []]

/-- An entry of Atom; its content is a text. -/
def atomEntry (item : PsCast.Item) : XmlNode :=
  element (lit "entry") (some atom10Uri) []
    (field (lit "title") (some atom10Uri) [] item.title ::
      (atomLink item.link ++
        [field (lit "content") (some atom10Uri) [attr (lit "type") (lit "text")]
          item.description]))

/-- The root element of Atom. -/
def atomRoot (feed : PsCast.Feed) : XmlNode :=
  element (lit "feed") (some atom10Uri) []
    ([field (lit "title") (some atom10Uri) [] feed.title,
      field (lit "subtitle") (some atom10Uri) [] feed.description] ++
      atomLink feed.link ++ feed.items.map atomEntry)

/-- The document of a feed. -/
def document (feed : PsCast.Feed) : Format → XmlDoc
  | rss091 => { root := some (rssRoot (lit "0.91") none feed) }
  | rss092 => { root := some (rssRoot (lit "0.92") none feed) }
  | rss094 => { root := some (rssRoot (lit "0.94") none feed) }
  | rss20 => { root := some (rssRoot (lit "2.0") none feed) }
  | userland => { root := some (rssRoot (lit "2.0") (some rss20UserlandUri) feed) }
  | rdf => { root := some (rdfRoot feed) }
  | atom => { root := some (atomRoot feed) }

/-- What can be read back. -/
def readable (feed : PsCast.Feed) : Format → PsCast.Feed
  | rdf => feed
  | _ => { feed with dcCreator := [] }

end Format

/-! ## A reader of trees -/

mutual

/-- The text of the text nodes and the CDATA sections of a tree. -/
def contentOf : XmlNode → Bytes
  | ⟨.element, _, _, _, _, children⟩ => contentOfAll children
  | ⟨.text, _, _, _, content, _⟩ => content.getD []
  | ⟨.cdataSection, _, _, _, content, _⟩ => content.getD []
  | _ => []

/-- The texts of these trees, one behind the other. -/
def contentOfAll : List XmlNode → Bytes
  | [] => []
  | node :: rest => contentOf node ++ contentOfAll rest

end

/-- The accessors as functions on trees. Nothing is dumped, and no address is resolved. -/
def treeTools (readMemory : Bytes → Option XmlDoc) : Tools where
  readMemory := readMemory
  nodeGetContent node := some (contentOf node)
  getProp node name := (node.attributes.find? (·.name = name)).map XmlAttr.value
  getNsProp node name uri := (node.attributes.find? fun a =>
    a.name = name ∧ a.ns = uri.map fun uri => { href := some uri }).map XmlAttr.value
  nodeDump _ := none
  buildURI _ _ := none
  formatDate date := date
  uninitialised := .unknown

theorem treeTools_readMemory (readMemory : Bytes → Option XmlDoc) (buffer : Bytes) :
    (treeTools readMemory).readMemory buffer = readMemory buffer := rfl

/-- The text of a field is the one that was written. -/
theorem contentOf_field (name : Bytes) (ns : Option Bytes) (attributes : List XmlAttr)
    (content : Bytes) : contentOf (field name ns attributes content) = content := by
  unfold field element
  split
  · rename_i h
    rw [h]
    rfl
  · show contentOf (text content) ++ [] = content
    rw [List.append_nil]
    rfl

/-- The reader of trees behaves as libxml2 is documented to. -/
theorem documented_treeTools (readMemory : Bytes → Option XmlDoc) :
    Documented (treeTools readMemory) where
  content := contentOf_field
  getProp _ _ := rfl
  getNsProp _ _ := rfl
  buildURI := by
    intro link base _ uri huri
    cases huri

end PsCast.Publishing
