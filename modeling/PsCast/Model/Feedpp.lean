import PsCast.Model.Xml
import PsCast.Model.Podcast

/-!
# The feed parser

The vendored library feedpp: `parser::parse_buffer`, the parsers of RSS 0.9x, 2.0 and 1.0 and of
Atom, and the parts of `utils` that they use. Its functions throw (`Failure.exception`), and
where they read through a null pointer or outside of a string the outcome is
`Failure.undefined`. `Tools` are the things outside of it: libxml2, `date::format`, which works
on the locale, and what lies in the memory of an uninitialised `feed`.
-/

set_option autoImplicit false

namespace PsCast.Feedpp

/-! ## Data -/

/-- SOURCE: libraries/feedpp/rsspp.h:17-29 -/
inductive Version where
  | unknown
  | rss091
  | rss092
  | rss10
  | rss20
  | atom03
  | atom10
  | rss094
  | atom03Nons
  | ttrssJson
  | newsblurJson
  deriving DecidableEq, Repr

/-- `none` is a member that no code has written. Nothing writes `pubDate_ts`.
SOURCE: libraries/feedpp/rsspp.h:45-71 -/
structure Item where
  title : Bytes := []
  titleType : Bytes := []
  link : Bytes := []
  description : Bytes := []
  descriptionType : Bytes := []
  author : Bytes := []
  authorEmail : Bytes := []
  pubDate : Bytes := []
  guid : Bytes := []
  guidIsPermaLink : Option Bool := none
  enclosureUrl : Bytes := []
  enclosureType : Bytes := []
  contentEncoded : Bytes := []
  itunesSummary : Bytes := []
  base : Bytes := []
  labels : List Bytes := []
  deriving DecidableEq, Repr

/-- SOURCE: libraries/feedpp/rsspp.h:73-86 -/
structure Feed where
  encoding : Bytes := []
  rssVersion : Version
  title : Bytes := []
  titleType : Bytes := []
  description : Bytes := []
  link : Bytes := []
  language : Bytes := []
  managingEditor : Bytes := []
  dcCreator : Bytes := []
  pubDate : Bytes := []
  items : List Item := []
  deriving DecidableEq, Repr

/-- How a call of the parser fails: with an exception and its message, or by leaving its memory. -/
inductive Failure where
  | exception (message : Bytes)
  | undefined
  deriving DecidableEq, Repr

/-- What a call of the parser comes to. -/
abbrev Result (α : Type) := Except Failure α

/-- What the parser takes from elsewhere: libxml2, the conversion of dates, and the version that
one call of the parser finds in the member that it has not written. Two calls may find different
ones. -/
structure Tools extends Libxml where
  formatDate : Bytes → Bytes
  uninitialised : Version

/-! ## Namespaces -/

/-- SOURCE: libraries/feedpp/rsspp_internal.h:14-22, libraries/feedpp/rss_10_parser.cpp:12 -/
def contentUri : Bytes := lit "http://purl.org/rss/1.0/modules/content/"
def itunesUri : Bytes := lit "http://www.itunes.com/dtds/podcast-1.0.dtd"
def dcUri : Bytes := lit "http://purl.org/dc/elements/1.1/"
def rdfUri : Bytes := lit "http://www.w3.org/1999/02/22-rdf-syntax-ns#"
def atom03Uri : Bytes := lit "http://purl.org/atom/ns#"
def atom10Uri : Bytes := lit "http://www.w3.org/2005/Atom"
def mediaRssUri : Bytes := lit "http://search.yahoo.com/mrss/"
def xmlUri : Bytes := lit "http://www.w3.org/XML/1998/namespace"
def rss20UserlandUri : Bytes := lit "http://backend.userland.com/rss2"
def rss10Ns : Bytes := lit "http://purl.org/rss/1.0/"

/-! ## Strings -/

/-- `find_first_not_of` and `find_first_of`, from the position `start` on, which may be `npos`. -/
def findFirst (isMatch : UInt8 → Bool) (str : Bytes) : (start : Option ℕ) → Option ℕ
  | none => none
  | some start => ((str.drop start).findIdx? isMatch).map (start + ·)

/-- `find_first_not_of`. -/
def findFirstNotOf (delimiters str : Bytes) (start : Option ℕ) : Option ℕ :=
  findFirst (fun c => !delimiters.contains c) str start

/-- `find_first_of`. -/
def findFirstOf (delimiters str : Bytes) (start : Option ℕ) : Option ℕ :=
  findFirst (fun c => delimiters.contains c) str start

/-- The loop of `tokenize`. Each round moves `last_pos` on, so `fuel` rounds with
`fuel = str.size() + 1` are never used up; `substr` at `npos` throws.
SOURCE: libraries/feedpp/utils.cpp:157-161 -/
def tokenizeLoop (str delimiters : Bytes) :
    (fuel : ℕ) → (last_pos pos : Option ℕ) → (tokens : List Bytes) → Result (List Bytes)
  | 0, _, _, _ => throw .undefined
  | fuel + 1, last_pos, pos, tokens =>
    if pos ≠ none ∨ last_pos ≠ none then
      match last_pos with
      | none => throw (.exception (lit "basic_string::substr"))
      | some start =>
        let token := match pos with
          | none => str.drop start
          | some pos => (str.drop start).take (pos - start)
        let last_pos := findFirstNotOf delimiters str pos
        tokenizeLoop str delimiters fuel last_pos (findFirstOf delimiters str last_pos)
          (tokens ++ [token])
    else return tokens

/-- SOURCE: libraries/feedpp/utils.cpp:149-163 -/
def tokenize (str delimiters : Bytes) : Result (List Bytes) :=
  let last_pos := findFirstNotOf delimiters str (some 0)
  tokenizeLoop str delimiters (str.length + 1) last_pos (findFirstOf delimiters str last_pos) []

/-- SOURCE: libraries/feedpp/utils.cpp:234-247 -/
def absoluteUrl (X : Tools) (url link : Bytes) : Bytes := (X.buildURI link url).getD link

/-! ## Nodes -/

/-- SOURCE: libraries/feedpp/rss_parser.cpp:18-31 -/
def getContent (X : Tools) (node : XmlNode) : Bytes := (X.nodeGetContent node).getD []

/- SOURCE: libraries/feedpp/rss_parser.cpp:33-40 -/
mutual

/-- A node and what is below it without their namespaces. -/
def cleanupNamespaces : XmlNode → XmlNode
  | ⟨type, name, _, attributes, content, children⟩ =>
    ⟨type, name, none, attributes, content, cleanupAll children⟩

/-- These nodes and what is below them without their namespaces. -/
def cleanupAll : List XmlNode → List XmlNode
  | [] => []
  | node :: rest => cleanupNamespaces node :: cleanupAll rest

end

/-- SOURCE: libraries/feedpp/rss_parser.cpp:42-69 -/
def getXmlContent (X : Tools) (node : XmlNode) : Bytes :=
  let node := cleanupNamespaces node
  match node.children with
  | [] => getContent X node
  | children => children.flatMap fun child => (X.nodeDump child).getD (getContent X child)

/-- The namespace decides which function looks up the attribute, and neither gets it: with one,
`xmlGetProp` takes the attribute of that name in any namespace, and without one, `xmlGetNsProp`
gets the null pointer.
SOURCE: libraries/feedpp/rss_parser.cpp:71-87 -/
def getProp (X : Tools) (node : XmlNode) (prop : Bytes) (ns : Option Bytes) : Bytes :=
  match ns with
  | some _ => (X.getProp node prop).getD []
  | none => (X.getNsProp node prop none).getD []

/-- SOURCE: libraries/feedpp/rss_parser.cpp:89-102 -/
def nodeIs (node : XmlNode) (name : Bytes) (ns_uri : Option Bytes) : Bool :=
  if node.name = some name then
    match ns_uri, node.ns with
    | none, none => true
    | some uri, some ns => decide (ns.href = some uri)
    | _, _ => false
  else false

/-! ## RSS 0.9x and 2.0 -/

/-- The scan `for (start = end; start > 0 && authorfield[start] != '('; start--)`.
SOURCE: libraries/feedpp/rss_09x_parser.cpp:126 -/
def authorStart (authorfield : Bytes) : (start : ℕ) → ℕ
  | 0 => 0
  | start + 1 =>
    if authorfield[start + 1]? ≠ some 40 then authorStart authorfield start else start + 1

/-- The e-mail address and the name. The last byte of an empty string lies outside of it, and
so does the one before the last of a string of one byte.
SOURCE: libraries/feedpp/rss_09x_parser.cpp:118-134 -/
def parseAuthor (authorfield : Bytes) : Result (Bytes × Bytes) :=
  match authorfield.getLast? with
  | none => throw .undefined
  | some last =>
    if last = 41 then do
      let tokens ← tokenize authorfield (lit " ")
      match tokens with
      | [] => throw .undefined
      | author_email :: _ =>
        if authorfield.length < 2 then throw .undefined
        let «end» := authorfield.length - 2
        let start := authorStart authorfield «end»
        return (author_email, (authorfield.drop (start + 1)).take («end» - start))
    else return (authorfield, authorfield)

/-- The local variables of `parse_item`. -/
structure ItemState where
  it : Item := {}
  author : Bytes := []
  dc_date : Bytes := []

/-- The type of a description: `text` for an element without children whose text has no `<`. -/
def descriptionType (node : XmlNode) (description : Bytes) : Bytes :=
  if node.childElementCount = 0 then
    if description.contains 60 then lit "html" else lit "text"
  else lit "html"

/-- The address and the type of an enclosure. -/
def withEnclosure (X : Tools) (it : Item) (node : XmlNode) : Item :=
  { it with
    enclosureUrl := getProp X node (lit "url") none
    enclosureType := getProp X node (lit "type") none }

/-- One round of the loop over the children of a `group`. -/
def groupNode (X : Tools) (it : Item) (mnode : XmlNode) : Item :=
  if nodeIs mnode (lit "content") (some mediaRssUri) then withEnclosure X it mnode else it

/-- One round of the loop of `parse_item`.
SOURCE: libraries/feedpp/rss_09x_parser.cpp:70-160 -/
def parseItemNode (X : Tools) (ns : Option Bytes) (s : ItemState) (node : XmlNode) :
    Result ItemState :=
  if nodeIs node (lit "title") ns then
    return { s with it := { s.it with title := getContent X node, titleType := lit "text" } }
  else if nodeIs node (lit "link") ns then
    return { s with it := { s.it with link := getContent X node } }
  else if nodeIs node (lit "description") ns then
    return { s with it := { s.it with
      description := getContent X node
      descriptionType := descriptionType node (getContent X node) } }
  else if nodeIs node (lit "encoded") (some contentUri) then
    return { s with it := { s.it with contentEncoded := getContent X node } }
  else if nodeIs node (lit "summary") (some itunesUri) then
    return { s with it := { s.it with itunesSummary := getContent X node } }
  else if nodeIs node (lit "guid") ns then
    return { s with it := { s.it with
      guid := getContent X node
      guidIsPermaLink := some (getProp X node (lit "isPermaLink") none ≠ lit "false") } }
  else if nodeIs node (lit "pubDate") ns then
    return { s with it := { s.it with pubDate := X.formatDate (getContent X node) } }
  else if nodeIs node (lit "date") (some dcUri) then
    return { s with dc_date := X.formatDate (getContent X node) }
  else if nodeIs node (lit "author") ns then do
    let (author_email, author) ← parseAuthor (getContent X node)
    return { s with it := { s.it with authorEmail := author_email, author := author } }
  else if nodeIs node (lit "creator") (some dcUri) then
    return { s with author := getContent X node }
  else if nodeIs node (lit "enclosure") ns then
    return { s with it := withEnclosure X s.it node }
  else if nodeIs node (lit "content") (some mediaRssUri) then
    return { s with it := withEnclosure X s.it node }
  else if nodeIs node (lit "group") (some mediaRssUri) then
    return { s with it := node.children.foldl (groupNode X) s.it }
  else return s

/-- SOURCE: libraries/feedpp/rss_09x_parser.cpp:64-173 -/
def parseItem (X : Tools) (ns : Option Bytes) (itemNode : XmlNode) : Result Item := do
  let s ← itemNode.children.foldlM (parseItemNode X ns) {}
  let it := if s.it.author = [] then { s.it with author := s.author } else s.it
  return if it.pubDate = [] then { it with pubDate := s.dc_date } else it

/-- The channel: the first child of that name. A node before it that has no name is undefined.
SOURCE: libraries/feedpp/rss_09x_parser.cpp:39-41 -/
def findChannel : List XmlNode → Result (Option XmlNode)
  | [] => return none
  | channel :: next =>
    match channel.name with
    | none => throw .undefined
    | some name => if name ≠ lit "channel" then findChannel next else return some channel

/-- SOURCE: libraries/feedpp/rss_09x_parser.cpp:46-61 -/
def parseChannelNode (X : Tools) (ns : Option Bytes) (f : Feed) (node : XmlNode) : Result Feed :=
  if nodeIs node (lit "title") ns then
    return { f with title := getContent X node, titleType := lit "text" }
  else if nodeIs node (lit "link") ns then return { f with link := getContent X node }
  else if nodeIs node (lit "description") ns then
    return { f with description := getContent X node }
  else if nodeIs node (lit "language") ns then return { f with language := getContent X node }
  else if nodeIs node (lit "managingEditor") ns then
    return { f with managingEditor := getContent X node }
  else if nodeIs node (lit "item") ns then do
    let it ← parseItem X ns node
    return { f with items := f.items ++ [it] }
  else return f

/-- SOURCE: libraries/feedpp/rss_09x_parser.cpp:35-62 -/
def rss09xParseFeed (X : Tools) (ns : Option Bytes) (f : Feed) (rootNode : XmlNode) :
    Result Feed := do
  match ← findChannel rootNode.children with
  | none => throw (.exception (lit "no RSS channel found"))
  | some channel => channel.children.foldlM (parseChannelNode X ns) f

/-- The namespace of the elements is the one of Userland or none.
SOURCE: libraries/feedpp/rss_09x_parser.cpp:19-33 -/
def rss20Ns (rootNode : XmlNode) : Option Bytes :=
  match rootNode.ns.bind XmlNs.href with
  | some ns => if ns = rss20UserlandUri then some ns else none
  | none => none

/-- The parser of RSS 2.0 is that of 0.9x, with a namespace. -/
def rss20ParseFeed (X : Tools) (f : Feed) (rootNode : XmlNode) : Result Feed :=
  rss09xParseFeed X (rss20Ns rootNode) f rootNode

/-! ## RSS 1.0 -/

/-- SOURCE: libraries/feedpp/rss_10_parser.cpp:25-47 -/
def rss10ChannelNode (X : Tools) (f : Feed) (cnode : XmlNode) : Feed :=
  if nodeIs cnode (lit "title") (some rss10Ns) then
    { f with title := getContent X cnode, titleType := lit "text" }
  else if nodeIs cnode (lit "link") (some rss10Ns) then { f with link := getContent X cnode }
  else if nodeIs cnode (lit "description") (some rss10Ns) then
    { f with description := getContent X cnode }
  else if nodeIs cnode (lit "date") (some dcUri) then
    { f with pubDate := X.formatDate (getContent X cnode) }
  else if nodeIs cnode (lit "creator") (some dcUri) then { f with dcCreator := getContent X cnode }
  else f

/-- SOURCE: libraries/feedpp/rss_10_parser.cpp:53-90 -/
def rss10ItemNode (X : Tools) (it : Item) (itnode : XmlNode) : Item :=
  if nodeIs itnode (lit "title") (some rss10Ns) then
    { it with title := getContent X itnode, titleType := lit "text" }
  else if nodeIs itnode (lit "link") (some rss10Ns) then { it with link := getContent X itnode }
  else if nodeIs itnode (lit "description") (some rss10Ns) then
    { it with
      description := getContent X itnode
      descriptionType := descriptionType itnode (getContent X itnode) }
  else if nodeIs itnode (lit "date") (some dcUri) then
    { it with pubDate := X.formatDate (getContent X itnode) }
  else if nodeIs itnode (lit "encoded") (some contentUri) then
    { it with contentEncoded := getContent X itnode }
  else if nodeIs itnode (lit "summary") (some itunesUri) then
    { it with itunesSummary := getContent X itnode }
  else it

/-- One child of the root element: the channel, or an item. -/
def rss10Node (X : Tools) (f : Feed) (node : XmlNode) : Feed :=
  if nodeIs node (lit "channel") (some rss10Ns) then
    node.children.foldl (rss10ChannelNode X) f
  else if nodeIs node (lit "item") (some rss10Ns) then
    let it : Item := { guid := getProp X node (lit "about") (some rdfUri) }
    { f with items := f.items ++ [node.children.foldl (rss10ItemNode X) it] }
  else f

/-- SOURCE: libraries/feedpp/rss_10_parser.cpp:16-94 -/
def rss10ParseFeed (X : Tools) (f : Feed) (rootNode : XmlNode) : Feed :=
  rootNode.children.foldl (rss10Node X) f

/-! ## Atom -/

/-- The text of a `content` or a `summary`, by its `mode` and its `type`; `none` where neither
branch assigns one.
SOURCE: libraries/feedpp/atom_parser.cpp:84-94, libraries/feedpp/atom_parser.cpp:114-124 -/
def atomText (X : Tools) (node : XmlNode) : Option Bytes :=
  let mode := getProp X node (lit "mode") none
  let type := getProp X node (lit "type") none
  if mode = lit "xml" ∨ mode = [] then
    if type = lit "html" ∨ type = lit "text" then some (getContent X node)
    else some (getXmlContent X node)
  else if mode = lit "escaped" then some (getContent X node)
  else none

/-- The type of an Atom text, `text` if there is none. -/
def typeOrText (X : Tools) (node : XmlNode) : Bytes :=
  if getProp X node (lit "type") none = [] then lit "text" else getProp X node (lit "type") none

/-- The local variables of `parse_entry`. -/
structure EntryState where
  it : Item := {}
  summary : Bytes := []
  summary_type : Bytes := []
  updated : Bytes := []

/-- One round of the loop over the children of an `author`. -/
def atomAuthorNode (X : Tools) (ns : Option Bytes) (it : Item) (authornode : XmlNode) : Item :=
  if nodeIs authornode (lit "name") ns then { it with author := getContent X authornode } else it

/-- One round of the loop of `parse_entry`.
SOURCE: libraries/feedpp/atom_parser.cpp:70-130 -/
def atomEntryNode (X : Tools) (ns : Option Bytes) (base : Bytes) (s : EntryState)
    (node : XmlNode) : EntryState :=
  if nodeIs node (lit "author") ns then
    { s with it := node.children.foldl (atomAuthorNode X ns) s.it }
  else if nodeIs node (lit "title") ns then
    { s with it := { s.it with title := getContent X node, titleType := typeOrText X node } }
  else if nodeIs node (lit "content") ns then
    { s with it := { s.it with
      description := (atomText X node).getD s.it.description
      descriptionType := typeOrText X node
      base := getProp X node (lit "base") (some xmlUri) } }
  else if nodeIs node (lit "id") ns then
    { s with it := { s.it with guid := getContent X node, guidIsPermaLink := some false } }
  else if nodeIs node (lit "published") ns then
    { s with it := { s.it with pubDate := X.formatDate (getContent X node) } }
  else if nodeIs node (lit "updated") ns then
    { s with updated := X.formatDate (getContent X node) }
  else if nodeIs node (lit "link") ns then
    let rel := getProp X node (lit "rel") none
    if rel = [] ∨ rel = lit "alternate" then
      { s with it := { s.it with link := absoluteUrl X base (getProp X node (lit "href") none) } }
    else if rel = lit "enclosure" then
      { s with it := { s.it with
        enclosureUrl := getProp X node (lit "href") none
        enclosureType := getProp X node (lit "type") none } }
    else s
  else if nodeIs node (lit "summary") ns then
    { s with summary := (atomText X node).getD s.summary, summary_type := typeOrText X node }
  else if nodeIs node (lit "category") ns ∧
      getProp X node (lit "scheme") none = lit "http://www.google.com/reader/" then
    { s with it := { s.it with labels := s.it.labels ++ [getProp X node (lit "label") none] } }
  else s

/-- SOURCE: libraries/feedpp/atom_parser.cpp:60-142 -/
def atomParseEntry (X : Tools) (ns : Option Bytes) (globalbase : Bytes) (entryNode : XmlNode) :
    Item :=
  let base := getProp X entryNode (lit "base") (some xmlUri)
  let base := if base = [] then globalbase else base
  let s := entryNode.children.foldl (atomEntryNode X ns base) {}
  let it := if s.it.description = [] then
      { s.it with description := s.summary, descriptionType := s.summary_type }
    else s.it
  if it.pubDate = [] then { it with pubDate := s.updated } else it

/-- SOURCE: libraries/feedpp/atom_parser.cpp:38-56 -/
def atomNode (X : Tools) (ns : Option Bytes) (globalbase : Bytes) (f : Feed) (node : XmlNode) :
    Feed :=
  if nodeIs node (lit "title") ns then
    { f with title := getContent X node, titleType := typeOrText X node }
  else if nodeIs node (lit "subtitle") ns then { f with description := getContent X node }
  else if nodeIs node (lit "link") ns then
    if getProp X node (lit "rel") none = lit "alternate" then
      { f with link := absoluteUrl X globalbase (getProp X node (lit "href") none) }
    else f
  else if nodeIs node (lit "updated") ns then
    { f with pubDate := X.formatDate (getContent X node) }
  else if nodeIs node (lit "entry") ns then
    { f with items := f.items ++ [atomParseEntry X ns globalbase node] }
  else f

/-- SOURCE: libraries/feedpp/atom_parser.cpp:20-33 -/
def atomNs : Version → Option Bytes
  | .atom03 => some atom03Uri
  | .atom10 => some atom10Uri
  | _ => none

/-- SOURCE: libraries/feedpp/atom_parser.cpp:16-58 -/
def atomParseFeed (X : Tools) (f : Feed) (rootNode : XmlNode) : Feed :=
  let f := { f with language := getProp X rootNode (lit "lang") none }
  let globalbase := getProp X rootNode (lit "base") (some xmlUri)
  rootNode.children.foldl (atomNode X (atomNs f.rssVersion) globalbase) f

/-! ## Documents -/

/-- The parser that `factory::get_object` makes, and its `parse_feed`.
SOURCE: libraries/feedpp/parser_factory.cpp:6-26 -/
def parseFeed (X : Tools) (f : Feed) (rootNode : XmlNode) : Result Feed :=
  match f.rssVersion with
  | .rss091 | .rss092 | .rss094 => rss09xParseFeed X none f rootNode
  | .rss20 => rss20ParseFeed X f rootNode
  | .rss10 => return rss10ParseFeed X f rootNode
  | .atom03 | .atom03Nons | .atom10 => return atomParseFeed X f rootNode
  | _ => throw (.exception (lit "unsupported feed format"))

/-- The version of an `rss` element. `1.0` is taken for 0.91.
SOURCE: libraries/feedpp/parser.cpp:229-253 -/
def rssVersionOf (X : Tools) (node : XmlNode) : Result Version :=
  match X.getProp node (lit "version") with
  | none => throw (.exception (lit "no RSS version"))
  | some version =>
    if version = lit "0.91" then return .rss091
    else if version = lit "0.92" then return .rss092
    else if version = lit "0.94" then return .rss094
    else if version = lit "2.0" ∨ version = lit "2" then return .rss20
    else if version = lit "1.0" then return .rss091
    else throw (.exception (lit "invalid RSS version"))

/-- The version of a `feed` element.
SOURCE: libraries/feedpp/parser.cpp:258-294 -/
def atomVersionOf (X : Tools) (node : XmlNode) : Result Version :=
  match node.ns.bind XmlNs.href with
  | none => throw (.exception (lit "no Atom version"))
  | some href =>
    if href = atom03Uri then return .atom03
    else if href = atom10Uri then return .atom10
    else
      match X.getProp node (lit "version") with
      | none => throw (.exception (lit "invalid Atom version"))
      | some version =>
        if version = lit "0.3" then return .atom03Nons
        else throw (.exception (lit "invalid Atom version"))

/-- An element with another name leaves the version as it lies in memory.
SOURCE: libraries/feedpp/parser.cpp:229-294 -/
def versionOf (X : Tools) (node : XmlNode) : Result Version :=
  if node.name = some (lit "rss") then rssVersionOf X node
  else if node.name = some (lit "RDF") then return .rss10
  else if node.name = some (lit "feed") then atomVersionOf X node
  else return X.uninitialised

/-- SOURCE: libraries/feedpp/parser.cpp:221-314 -/
def parseXmlnode (X : Tools) (node : Option XmlNode) : Result Feed :=
  match node with
  | none => throw (.exception (lit "XML root node is NULL"))
  | some node =>
    if node.name ≠ none ∧ node.type = .element then do
      let rss_version ← versionOf X node
      parseFeed X { rssVersion := rss_version } node
    else return { rssVersion := X.uninitialised }

/-- SOURCE: libraries/feedpp/parser.cpp:181-199 -/
def parseBuffer (X : Tools) (buffer : Bytes) : Result Feed := do
  match X.readMemory buffer with
  | none => throw (.exception (lit "could not parse buffer"))
  | some doc =>
    let f ← parseXmlnode X doc.root
    return match doc.encoding with
      | none => f
      | some encoding => { f with encoding := encoding }

/-- The members of an item, and of a feed, that `Podcast::parseFromXmlStream` reads. -/
def Item.toItem (it : Item) : PsCast.Item :=
  { title := it.title, link := it.link, description := it.description }

/-- The members of a feed that `Podcast::parseFromXmlStream` reads. -/
def Feed.toFeed (f : Feed) : PsCast.Feed :=
  { title := f.title
    description := f.description
    link := f.link
    dcCreator := f.dcCreator
    items := f.items.map Item.toItem }

end PsCast.Feedpp
