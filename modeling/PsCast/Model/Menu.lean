import PsCast.Model.MenuList
import Mathlib.Logic.Function.Basic

/-!
# The menu

`Menu` of `menu.hpp` and `menu.cpp`, over the memory that holds the list objects. The
menu keeps raw pointers (`ListId`) and the objects live in `Lists`, where a list that
was deleted, or not yet allocated, is `none`. Reading through a pointer to such a list is
undefined in the source and is `none` here, so an operation returns `none` exactly when
it dereferences a list that does not exist.
-/

set_option autoImplicit false

namespace PsCast

/-! ## Buttons -/

/-- The bit masks of the controller buttons, as the SDK fixes them. -/
def sceCtrlUp : BitVec 32 := 0x10
def sceCtrlDown : BitVec 32 := 0x40
def sceCtrlTriangle : BitVec 32 := 0x1000
def sceCtrlCircle : BitVec 32 := 0x2000
def sceCtrlCross : BitVec 32 := 0x4000
def sceCtrlSquare : BitVec 32 := 0x8000

/-- The test `pressed_buttons & button` of the source. -/
def triggered (pressed_buttons button : BitVec 32) : Bool := pressed_buttons &&& button != 0

/-! ## State -/

/-- What a `std::function<void()>` held by the menu was built from: the lambda of
`Menu::goToList`, with the list it captures, or a closure of the owner.
SOURCE: source/menu.cpp:151-160 -/
inductive MenuCallback where
  | back (next_list : ListId)
  | owner (callback : Callback)
  deriving DecidableEq, Repr

/-- The data members of `Menu` that some operation reads.
SOURCE: source/include/menu.hpp:166-189 -/
structure Menu where
  entryIndex : ℕ := 0
  menuList : Option ListId := none
  currentList : Option ListId := none
  statusMsg : Bytes := []
  acceptButton : BitVec 32 := sceCtrlCircle
  backButton : BitVec 32 := sceCtrlCross
  optionsButton : BitVec 32 := sceCtrlTriangle
  selectButton : BitVec 32 := sceCtrlSquare
  backButtonCallback : Option MenuCallback := none
  optionsButtonCallback : Option MenuCallback := none
  selectButtonCallback : Option MenuCallback := none

/-- The list objects that exist, by identity. -/
abbrev Lists := ListId → Option MenuList

/-- The menu together with the lists its pointers lead to. -/
structure Screen where
  menu : Menu
  lists : Lists

/-! ## Operations -/

namespace Screen

/-- Overwrite the object behind a pointer. -/
def setList (s : Screen) (l : ListId) (ml : MenuList) : Screen :=
  { s with lists := Function.update s.lists l (some ml) }

/-- `checkoutEntryList(MenuList *)`.
SOURCE: source/menu.cpp:18-22 -/
def checkoutEntryList (s : Screen) (menu_list : Option ListId) : Screen :=
  { s with menu := { s.menu with menuList := menu_list, entryIndex := 0 } }

/-- `setEntryActive(size_t)`.
SOURCE: source/menu.cpp:24-32 -/
def setEntryActive (s : Screen) (index : ℕ) : Option (Bool × Screen) := do
  let shown ← s.menu.menuList
  let ml ← s.lists shown
  if ml.size > index then
    return (true, { s with menu := { s.menu with entryIndex := index } })
  return (false, s)

/-- `setEntryActive(std::string)`: the positions of the list are tried in order.
SOURCE: source/menu.cpp:34-46 -/
def setEntryActiveLabel (s : Screen) (index : Bytes) : Option (Bool × Screen) := do
  let shown ← s.menu.menuList
  let ml ← s.lists shown
  match (List.range ml.size).find? fun e => (ml.atIndex e).equals index with
  | some e => return (true, { s with menu := { s.menu with entryIndex := e } })
  | none => return (false, s)

/-- SOURCE: source/menu.cpp:143-165 -/
def goToList (s : Screen) (next_list : Option ListId) : Option Screen :=
  match next_list with
  | none => some s
  | some next => do
    let ml ← s.lists next
    let s := if ml.getParentList = none then
        s.setList next (ml.setParentList s.menu.currentList) else s
    let s := { s with menu := { s.menu with backButtonCallback := some (.back next) } }
    let s := { s with menu := { s.menu with currentList := some next } }
    return s.checkoutEntryList (some next)

/-- The lambda that `goToList` installs as the back callback.
SOURCE: source/menu.cpp:151-160 -/
def backLambda (s : Screen) (next_list : ListId) : Option Screen := do
  let ml ← s.lists next_list
  match ml.getParentList with
  | none => return s
  | some parent =>
    let s := s.checkoutEntryList (some parent)
    let s := { s with menu := { s.menu with currentList := some parent } }
    return s.setList next_list (ml.setParentList none)

/-- SOURCE: source/menu.cpp:134-137 -/
def goDownOnList (s : Screen) : Option Screen := do
  let shown ← s.menu.menuList
  let ml ← s.lists shown
  return s.setList shown ml.increaseIndex

/-- SOURCE: source/menu.cpp:138-141 -/
def goUpOnList (s : Screen) : Option Screen := do
  let shown ← s.menu.menuList
  let ml ← s.lists shown
  return s.setList shown ml.decreseIndex

/-! ## Drawing -/

/-- One row of the list as it is drawn: the entry, its vertical offset, its label, and
whether the highlight rectangle lies behind it.
SOURCE: source/menu.cpp:65-78 -/
structure Row where
  entry : ℕ
  start : ℕ
  label : Bytes
  highlighted : Bool
  deriving DecidableEq, Repr

/-- What one call of `Menu::draw` puts on the screen. -/
structure Picture where
  status : Bytes
  context : Bytes
  rows : List Row
  deriving DecidableEq, Repr

def displayHeight : ℕ := 544
def infoHeight : ℕ := 40
def currentContextHeight : ℕ := 72
def entryCount : ℕ := 8

/-- SOURCE: source/include/menu.hpp:163-164 -/
def entryHeight : ℕ := (displayHeight - (infoHeight + currentContextHeight)) / entryCount

/-- The loop of `drawList`. Each round moves `start` down by a row, so `fuel` rounds with
`fuel = displayHeight` are never used up.
SOURCE: source/menu.cpp:61-82 -/
def drawRows (ml : MenuList) (index : ℕ) : (fuel i start : ℕ) → List Row
  | 0, _, _ => []
  | fuel + 1, i, start =>
    if i < ml.size ∧ start < displayHeight then
      { entry := i, start := start, label := (ml.atIndex i).label, highlighted := index == i } ::
        drawRows ml index fuel (i + 1) (start + entryHeight)
    else []

/-- The parameter of `drawList` is a 32-bit `uint`, and so is the first row `i`.
SOURCE: source/menu.cpp:48-83 -/
def drawList (s : Screen) (index : ℕ) : Option (List Row) :=
  match s.menu.menuList with
  | none => some []
  | some shown => do
    let ml ← s.lists shown
    let index := index % UInt32.size
    let increment := index / entryCount
    let i := increment * entryCount % UInt32.size
    if i < ml.size ∧ ml.size < 1 then return []
    return drawRows ml index displayHeight i (infoHeight + currentContextHeight)

/-- The texts of the two header bars: the status message and the label of the shown list.
SOURCE: source/menu.cpp:85-116 -/
def drawHeader (s : Screen) : Option (Bytes × Bytes) := do
  let shown ← s.menu.menuList
  let ml ← s.lists shown
  return (s.menu.statusMsg, ml.label)

/-- `sendHeaderMessage`, which redraws the header at once. That picture, of the header alone, is
not kept.
SOURCE: source/menu.cpp:117-132 -/
def sendHeaderMessage (s : Screen) (label : Bytes) : Option Screen := do
  let s := { s with menu := { s.menu with statusMsg := label } }
  let _ ← s.drawHeader
  return s

end Screen

end PsCast
