import Mathlib.Data.List.Infix

/-!
# Menu labels, entries and lists

`MenuLabel`, `MenuEntry` and `MenuList` of `menu.hpp`. A `std::string` is the list of
its bytes. A `MenuList *` is the identity of the list object it points to (`ListId`):
the three lists that are members of `App`, and the episode lists that
`App::updatePodcastsList` allocates, numbered in the order of allocation, so that an
identity is never used for a second object. A `std::function<void()>` held by an entry
is the closure it was built from (`Callback`); `none` is the empty function.
-/

set_option autoImplicit false

namespace PsCast

/-- The bytes of a `std::string`. -/
abbrev Bytes := List UInt8

/-- The bytes of a string literal of the source, all of them ASCII. -/
def lit (s : String) : Bytes := s.toList.map fun c => c.toNat.toUInt8

/-- The identity of a `MenuList` object.
SOURCE: source/include/app.hpp:51-56, source/app.cpp:174 -/
inductive ListId where
  | mainMenuList
  | optionsList
  | podcastList
  | episodes (n : ℕ)
  deriving DecidableEq, Repr

/-- The closures that `App` stores in menu entries.
SOURCE: source/app.cpp:22-25, source/app.cpp:178 -/
inductive Callback where
  | goToList (next_list : ListId)
  | appendUrlToFeed
  | updateFromFeedFile
  deriving DecidableEq, Repr

/-- SOURCE: source/include/menu.hpp:32-50 -/
structure MenuEntry where
  label : Bytes := []
  callback : Option Callback := none
  deriving DecidableEq, Repr

/-- SOURCE: source/include/menu.hpp:52-57 -/
structure MenuList where
  label : Bytes := []
  entries : List MenuEntry := []
  parent : Option ListId := none
  index : ℕ := 0
  deriving DecidableEq, Repr

/-- `MenuLabel::operator==`, the comparison of an entry with a string.
SOURCE: source/include/menu.hpp:18-23 -/
def MenuEntry.equals (entry : MenuEntry) (label : Bytes) : Bool :=
  decide (label.length > entry.label.length) && decide (label <:+: entry.label)

namespace MenuList

/-- SOURCE: source/include/menu.hpp:74-75 -/
def append (ml : MenuList) (entry : MenuEntry) : MenuList :=
  { ml with entries := ml.entries ++ [entry] }

/-- Erasing by position; the cursor is left where it was.
SOURCE: source/include/menu.hpp:77-81 -/
def erase (ml : MenuList) (index : ℕ) : MenuList :=
  if index < ml.entries.length then { ml with entries := ml.entries.eraseIdx index } else ml

/-- The loop of `erase` by label, with any test in the place of `entries.at(e) == index`. Each
round advances `e`, so `fuel` rounds with `fuel = entries.size() + 1` are never used up; the
result is `none` also when `at` throws.
SOURCE: source/include/menu.hpp:84-88 -/
def eraseLoop (isMatch : MenuEntry → Bool) :
    (fuel e : ℕ) → List MenuEntry → Option (List MenuEntry)
  | 0, _, _ => none
  | fuel + 1, e, entries =>
    if e < entries.length then do
      let entry ← entries[e]?
      let entries := if isMatch entry then entries.eraseIdx e else entries
      eraseLoop isMatch fuel (e + 1) entries
    else some entries

/-- `erase(std::string)` with any test in the place of the comparison. -/
def eraseWhere (isMatch : MenuEntry → Bool) (ml : MenuList) : Option MenuList := do
  let entries ← eraseLoop isMatch (ml.entries.length + 1) 0 ml.entries
  return { ml with entries := entries }

/-- Erasing by label.
SOURCE: source/include/menu.hpp:82-89 -/
def eraseLabel (ml : MenuList) (index : Bytes) : Option MenuList :=
  ml.eraseWhere fun entry => entry.equals index

/-- SOURCE: source/include/menu.hpp:91-92 -/
def size (ml : MenuList) : ℕ := ml.entries.length

/-- `at`, which is `operator[]`: a position past the end gives the default entry.
SOURCE: source/include/menu.hpp:94-110 -/
def atIndex (ml : MenuList) (index : ℕ) : MenuEntry :=
  if h : index < ml.entries.length then ml.entries[index] else {}

/-- `operator[]` with a label: the first entry that equals it, else the default entry.
SOURCE: source/include/menu.hpp:101-108 -/
def atLabel (ml : MenuList) (index : Bytes) : MenuEntry :=
  (ml.entries.find? fun entry => entry.equals index).getD {}

/-- SOURCE: source/include/menu.hpp:112-113 -/
def setParentList (ml : MenuList) (parent : Option ListId) : MenuList :=
  { ml with parent := parent }

/-- SOURCE: source/include/menu.hpp:114-115 -/
def getParentList (ml : MenuList) : Option ListId := ml.parent

/-- SOURCE: source/include/menu.hpp:117-118 -/
def clear (ml : MenuList) : MenuList := { ml with entries := [] }

/-- SOURCE: source/include/menu.hpp:120-121 -/
def getIndex (ml : MenuList) : ℕ := ml.index

/-- SOURCE: source/include/menu.hpp:122-126 -/
def increaseIndex (ml : MenuList) : MenuList :=
  if ml.index + 1 < ml.size then { ml with index := ml.index + 1 } else ml

/-- SOURCE: source/include/menu.hpp:127-131 -/
def decreseIndex (ml : MenuList) : MenuList :=
  if ml.index > 0 then { ml with index := ml.index - 1 } else ml

/-- The copy constructor: label, entries and parent are copied, the cursor starts at zero.
SOURCE: source/include/menu.hpp:67-72 -/
def copy (ml : MenuList) : MenuList :=
  { label := ml.label, entries := ml.entries, parent := ml.parent }

end MenuList

end PsCast
