import PsCast.Analysis.AtomDocument
import PsCast.Analysis.RdfDocument

/-!
# What is read of a buffer

For every buffer, the feed that psCast reads of it or the exception that it gets
(`parseBuffer_result`), and the buffers on which the parser leaves its memory
(`parseBuffer_undefined_iff`), by the version under which the parser reads the root element
(`ParsedAs`).
-/

set_option autoImplicit false

namespace PsCast

open Feedpp

namespace Feedpp

/-- What psCast reads of a root element in a format. -/
def rootResult (X : Tools) (root : XmlNode) : Version → Result PsCast.Feed
  | .rss091 | .rss092 | .rss094 => channelResult X none root.children
  | .rss20 => channelResult X (rss20Ns root) root.children
  | .rss10 => .ok (rdfFeed X root.children)
  | .atom03 => .ok (atomFeed X (some atom03Uri) root)
  | .atom10 => .ok (atomFeed X (some atom10Uri) root)
  | .atom03Nons => .ok (atomFeed X none root)
  | _ => .error (.exception (lit "unsupported feed format"))

/-- What psCast reads of a document. A root that is no element is an empty feed. -/
def documentResult (X : Tools) : Option XmlDoc → Result PsCast.Feed
  | none => .error (.exception (lit "could not parse buffer"))
  | some doc =>
    match doc.root with
    | none => .error (.exception (lit "XML root node is NULL"))
    | some root =>
      if root.name ≠ none ∧ root.type = .element then
        (versionOf X root).bind (rootResult X root)
      else .ok {}

end Feedpp

namespace Analysis

variable {X : Tools} {root : XmlNode}

/-- What the parser of a version returns, as far as psCast reads it. -/
theorem parseFeed_map (X : Tools) (root : XmlNode) (version : Version) :
    (parseFeed X { rssVersion := version } root).map Feedpp.Feed.toFeed =
      rootResult X root version := by
  cases version with
  | rss091 => exact rss09xParseFeed_map X none root _
  | rss092 => exact rss09xParseFeed_map X none root _
  | rss094 => exact rss09xParseFeed_map X none root _
  | rss20 => exact rss09xParseFeed_map X (rss20Ns root) root _
  | rss10 => exact congrArg Except.ok (rss10ParseFeed_toFeed X root _)
  | atom03 => exact congrArg Except.ok (atomParseFeed_toFeed X root _)
  | atom10 => exact congrArg Except.ok (atomParseFeed_toFeed X root _)
  | atom03Nons => exact congrArg Except.ok (atomParseFeed_toFeed X root _)
  | unknown => rfl
  | ttrssJson => rfl
  | newsblurJson => rfl

/-- What the parser returns for a root node, as far as psCast reads it. -/
theorem parseXmlnode_map (X : Tools) (root : XmlNode) :
    (parseXmlnode X (some root)).map Feedpp.Feed.toFeed =
      if root.name ≠ none ∧ root.type = .element then
        (versionOf X root).bind (rootResult X root)
      else .ok {} := by
  unfold parseXmlnode
  dsimp only
  by_cases helement : root.name ≠ none ∧ root.type = .element
  · rw [if_pos helement, if_pos helement]
    cases versionOf X root with
    | error failure => rfl
    | ok version => exact parseFeed_map X root version
  · rw [if_neg helement, if_neg helement]
    rfl

/-- The encoding of a document changes nothing that psCast reads. -/
theorem parseBuffer_map {buffer : Bytes} {doc : XmlDoc} (hread : X.readMemory buffer = some doc) :
    (parseBuffer X buffer).map Feedpp.Feed.toFeed =
      (parseXmlnode X doc.root).map Feedpp.Feed.toFeed := by
  unfold parseBuffer
  rw [hread]
  cases doc with
  | mk root encoding =>
    cases hresult : parseXmlnode X root with
    | error failure => simp only [hresult]; rfl
    | ok f => cases encoding <;> simp only [hresult] <;> rfl

/-- What the parser returns for a buffer, as far as psCast reads it. -/
theorem parseBuffer_result (X : Tools) (buffer : Bytes) :
    (parseBuffer X buffer).map Feedpp.Feed.toFeed = documentResult X (X.readMemory buffer) := by
  cases hread : X.readMemory buffer with
  | none =>
    unfold parseBuffer
    rw [hread]
    rfl
  | some doc =>
    rw [parseBuffer_map hread]
    cases doc with
    | mk root encoding =>
      cases root with
      | none => rfl
      | some root => exact parseXmlnode_map X root

/-! ## Undefined behaviour -/

/-- A root element on which the parser of RSS 0.9x and 2.0 leaves its memory. -/
def LeavesMemory (X : Tools) (ns : Option Bytes) (root : XmlNode) : Prop :=
  ∃ channel, root.children.find? isChannel = some channel ∧
    (channel.name = none ∨ ∃ node ∈ channel.children, BadItem X ns node)

/-- A channel is undefined exactly if the parser leaves its memory on it. -/
theorem channelResult_undefined_iff (ns : Option Bytes) :
    channelResult X ns root.children = .error .undefined ↔ LeavesMemory X ns root := by
  unfold channelResult LeavesMemory
  cases hfind : root.children.find? isChannel with
  | none => simp
  | some channel =>
    by_cases hbad : channel.name = none ∨ ∃ node ∈ channel.children, BadItem X ns node
    · simp only [if_pos hbad, true_iff]
      exact ⟨channel, rfl, hbad⟩
    · simp only [if_neg hbad]
      constructor
      · intro h
        cases h
      · rintro ⟨other, hother, h⟩
        cases hother
        exact absurd h hbad

/-- Of all formats only those of RSS 0.9x and 2.0 leave the memory. -/
theorem rootResult_undefined_iff (version : Version) :
    rootResult X root version = .error .undefined ↔
      version ∈ [.rss091, .rss092, .rss094] ∧ LeavesMemory X none root ∨
        version = .rss20 ∧ LeavesMemory X (rss20Ns root) root := by
  cases version <;> simp [rootResult, channelResult_undefined_iff]

/-- The version of RSS 0.9x or 2.0 under which the element is parsed: that of an `rss` element, and
for an element of a name that the parser does not know the one that lay in memory. -/
def ParsedAs (X : Tools) (root : XmlNode) (version : Version) : Prop :=
  root.name = some (lit "rss") ∧ rssVersionOf X root = .ok version ∨
    root.name ∉ [none, some (lit "rss"), some (lit "RDF"), some (lit "feed")] ∧
      X.uninitialised = version

/-- The version of an Atom feed is none of RSS. -/
theorem atomVersionOf_eq_ok {version : Version} (h : atomVersionOf X root = .ok version) :
    version ∈ [Version.atom03, .atom10, .atom03Nons] := by
  unfold atomVersionOf at h
  repeat' split at h
  all_goals
    cases h
    try simp

/-- A root element has one of these versions exactly if it is parsed under it. -/
theorem versionOf_eq_ok_iff {version : Version}
    (hrss : version ∈ [Version.rss091, .rss092, .rss094, .rss20]) :
    root.name ≠ none ∧ versionOf X root = .ok version ↔ ParsedAs X root version := by
  unfold ParsedAs versionOf
  by_cases hname : root.name = some (lit "rss")
  · simp [hname]
  · by_cases hrdf : root.name = some (lit "RDF")
    · have hother : (.rss10 : Version) ≠ version := by
        rintro rfl
        exact absurd hrss (by decide)
      have hnames : lit "RDF" ≠ lit "rss" := by decide
      simp only [hrdf, Option.some.injEq, hnames, if_true, if_false, false_and, false_or]
      constructor
      · rintro ⟨-, hversion⟩
        exact absurd (Except.ok.inj hversion) hother
      · rintro ⟨hknown, -⟩
        exact absurd (by simp) hknown
    · by_cases hfeed : root.name = some (lit "feed")
      · have hnames : lit "feed" ≠ lit "rss" ∧ lit "feed" ≠ lit "RDF" := by decide
        simp only [hfeed, Option.some.injEq, hnames, if_true, if_false, false_and, false_or]
        constructor
        · rintro ⟨-, hversion⟩
          have hdisjoint : ∀ v ∈ [Version.atom03, .atom10, .atom03Nons],
              v ∉ [Version.rss091, .rss092, .rss094, .rss20] := by decide
          exact absurd hrss (hdisjoint version (atomVersionOf_eq_ok hversion))
        · rintro ⟨hknown, -⟩
          exact absurd (by simp) hknown
      · simp only [hname, hrdf, hfeed, if_false, false_and, false_or]
        have hnames : root.name ∉ [none, some (lit "rss"), some (lit "RDF"), some (lit "feed")] ↔
            root.name ≠ none := by
          simp [hname, hrdf, hfeed]
        rw [hnames]
        apply and_congr_right
        intro _
        exact ⟨Except.ok.inj, congrArg Except.ok⟩

/-- The search for the version throws, and does not leave its memory. -/
theorem versionOf_ne_undefined : versionOf X root ≠ .error .undefined := by
  unfold versionOf rssVersionOf atomVersionOf
  intro h
  repeat' split at h
  all_goals cases h

/-- The parser leaves its memory on elements only, and only after it has found their version. -/
theorem documentResult_undefined_iff (parsed : Option XmlDoc) :
    documentResult X parsed = .error .undefined ↔
      ∃ doc root version, parsed = some doc ∧ doc.root = some root ∧ root.name ≠ none ∧
        root.type = .element ∧ versionOf X root = .ok version ∧
        rootResult X root version = .error .undefined := by
  constructor
  · intro h
    unfold documentResult at h
    split at h
    · cases h
    · rename_i doc
      split at h
      · cases h
      · rename_i root hroot
        split at h
        · rename_i helement
          cases hversion : versionOf X root with
          | error failure =>
            rw [hversion] at h
            obtain rfl : failure = .undefined := Except.error.inj h
            exact absurd hversion versionOf_ne_undefined
          | ok version =>
            rw [hversion] at h
            exact ⟨doc, root, version, rfl, hroot, helement.1, helement.2, hversion, h⟩
        · cases h
  · rintro ⟨doc, root, version, rfl, hroot, hname, htype, hversion, hresult⟩
    unfold documentResult
    simp only [hroot]
    rw [if_pos ⟨hname, htype⟩, hversion]
    exact hresult

/-- What is read of a result does not change its failure. -/
theorem map_eq_error_iff {α β : Type} {f : α → β} {r : Result α} {failure : Failure} :
    r.map f = .error failure ↔ r = .error failure := by
  cases r with
  | error other =>
    constructor
    · intro h
      exact congrArg Except.error (Except.error.inj h)
    · intro h
      exact congrArg Except.error (Except.error.inj h)
  | ok a =>
    constructor
    · intro h
      cases h
    · intro h
      cases h

/-- **The parser leaves its memory** on exactly these buffers: elements that are parsed as RSS 0.9x
or 2.0, with a node without a name before the channel, or with an item whose author is empty or a
single closing bracket. These are `rss` elements of a known version, and where such a version
lay in the memory of the parser also elements of a name that it does not know. -/
theorem parseBuffer_undefined_iff (X : Tools) (buffer : Bytes) :
    parseBuffer X buffer = .error .undefined ↔
      ∃ doc root version, X.readMemory buffer = some doc ∧ doc.root = some root ∧
        root.type = .element ∧ ParsedAs X root version ∧
        (version ∈ [.rss091, .rss092, .rss094] ∧ LeavesMemory X none root ∨
          version = .rss20 ∧ LeavesMemory X (rss20Ns root) root) := by
  have hrss : ∀ (version : Version) (root : XmlNode),
      (version ∈ [.rss091, .rss092, .rss094] ∧ LeavesMemory X none root ∨
        version = .rss20 ∧ LeavesMemory X (rss20Ns root) root) →
          version ∈ [Version.rss091, .rss092, .rss094, .rss20] := by
    rintro version root (⟨hversion, -⟩ | ⟨rfl, -⟩)
    · exact List.mem_append_left [.rss20] hversion
    · decide
  rw [← map_eq_error_iff (f := Feedpp.Feed.toFeed), parseBuffer_result,
    documentResult_undefined_iff]
  constructor
  · rintro ⟨doc, root, version, hread, hroot, hname, htype, hversion, hresult⟩
    have hleaves := (rootResult_undefined_iff version).mp hresult
    exact ⟨doc, root, version, hread, hroot, htype,
      (versionOf_eq_ok_iff (hrss version root hleaves)).mp ⟨hname, hversion⟩, hleaves⟩
  · rintro ⟨doc, root, version, hread, hroot, htype, hparsed, hleaves⟩
    obtain ⟨hname, hversion⟩ := (versionOf_eq_ok_iff (hrss version root hleaves)).mpr hparsed
    exact ⟨doc, root, version, hread, hroot, hname, htype, hversion,
      (rootResult_undefined_iff version).mpr hleaves⟩

end Analysis

end PsCast
