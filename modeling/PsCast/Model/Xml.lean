import PsCast.Model.MenuList

/-!
# XML trees

The trees of libxml2 as far as the feed parser looks at them. The library itself is a
parameter (`Libxml`): what it reads a buffer as, and what its accessors return on a node.
A C string is the list of its bytes, and a null pointer is `none`.
-/

set_option autoImplicit false

namespace PsCast

/-- The types of nodes that can be children of an element. -/
inductive XmlElementType where
  | element
  | text
  | cdataSection
  | entityRef
  | pi
  | comment
  deriving DecidableEq, Repr

/-- A namespace, by its address. -/
structure XmlNs where
  href : Option Bytes
  deriving DecidableEq, Repr

/-- An attribute, its namespace, and its value. -/
structure XmlAttr where
  name : Bytes
  ns : Option XmlNs := none
  value : Bytes
  deriving DecidableEq, Repr

/-- A node. CDATA sections have no name, text nodes have the name `text`, and a processing
instruction has its target for a name. -/
structure XmlNode where
  type : XmlElementType := .element
  name : Option Bytes
  ns : Option XmlNs := none
  attributes : List XmlAttr := []
  content : Option Bytes := none
  children : List XmlNode := []

/-- A document: its root node, if there is one, and its encoding, if it names one. -/
structure XmlDoc where
  root : Option XmlNode
  encoding : Option Bytes := none

/-- What the parser calls of libxml2. `readMemory` is `xmlReadMemory` with the options that the
parser gives it, and then `xmlDocGetRootElement`; `nodeDump` is `none` where `xmlNodeDump` fails
and writes nothing. -/
structure Libxml where
  readMemory : Bytes → Option XmlDoc
  nodeGetContent : XmlNode → Option Bytes
  getProp : XmlNode → Bytes → Option Bytes
  getNsProp : XmlNode → Bytes → Option Bytes → Option Bytes
  nodeDump : XmlNode → Option Bytes
  buildURI : Bytes → Bytes → Option Bytes

/-- `xmlChildElementCount`. -/
def XmlNode.childElementCount (node : XmlNode) : ℕ :=
  node.children.countP fun child => child.type = .element

end PsCast
