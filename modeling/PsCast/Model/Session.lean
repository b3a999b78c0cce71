import PsCast.Model.App

/-!
# The program with its network

`HttpBase::is_init` is static and every download begins with `HttpBase::init`, so the network
that one download leaves is the one that the next finds. These are the functions of an update
with the network that they work on, and a frame of the program that runs them. Of the pictures
that a frame draws nothing is kept here.
-/

set_option autoImplicit false

namespace PsCast

/-- How a download begins: the status of the transfer is that of `init`.
SOURCE: source/http.cpp:136-141, source/http.cpp:199-204 -/
def Network.connect (n : Network) (sdk : Sdk) (t : Transfer) : Transfer × Network :=
  let (st, n) := HttpBase.init sdk n
  ({ t with init := st }, n)

namespace App

/-- `downloadFeeds` with the network; `sdk k` is the SDK during the `k`-th download.
SOURCE: source/app.cpp:147-152 -/
def downloadFeedsOver (P : Platform) (sdk : ℕ → Sdk) (net : ℕ → Transfer) :
    ℕ → List Bytes → Network × App → Option (Network × App)
  | _, [], s => some s
  | k, url :: rest, (n, a) => do
    let (t, n) := n.connect (sdk k) (net k)
    let (p, a) ← downloadAndParseFeed P t url a
    let a := if p.isValid then { a with podcasts := a.podcasts ++ [p.copy] } else a
    downloadFeedsOver P sdk net (k + 1) rest (n, a)

/-- `updateFromFeedFile` with the network.
SOURCE: source/app.cpp:141-156 -/
def updateFromFeedFileOver (P : Platform) (fd : IoRead) (sdk : ℕ → Sdk) (net : ℕ → Transfer)
    (s : Network × App) : Option (ℤ × Network × App) := do
  let (st, a) := s.2.updateFeedFile fd
  if st ≠ ok then return (-1, s.1, a)
  let a := { a with podcasts := [] }
  let (n, a) ← downloadFeedsOver P sdk net 0 a.feedUrls (s.1, a)
  let a ← updatePodcastsList a.podcasts a
  return (ok, n, a)

end App

/-- A frame, and the SDK during each of its downloads. -/
structure SessionFrame where
  frame : Frame
  sdk : ℕ → Sdk

/-- The program with its network. -/
structure Session where
  network : Network := {}
  app : App := App.start

namespace Session

/-- The program goes on, and the network stays as it is. -/
def withApp (s : Session) (a : App) : Session := { s with app := a }

/-- `App.runCallback` with the network, which only an update uses. -/
def runCallback (P : Platform) (i : SessionFrame) (s : Session) (callback : Callback) :
    Option Session :=
  match callback with
  | .updateFromFeedFile => do
    let (_, n, a) ← App.updateFromFeedFileOver P i.frame.fdRead i.sdk i.frame.net (s.network, s.app)
    return { network := n, app := a }
  | callback => (App.runCallback P i.frame s.app callback).map s.withApp

/-- `App.runIfSet` with the network. -/
def runIfSet (P : Platform) (i : SessionFrame) (s : Session) (callback : Option MenuCallback) :
    Option Session :=
  match callback with
  | some (.owner callback) => s.runCallback P i callback
  | callback => (App.runIfSet P i.frame s.app callback).map s.withApp

/-- `App.handleInput` with the network.
SOURCE: source/menu.cpp:174-201 -/
def handleInput (P : Platform) (i : SessionFrame) (s : Session) : Option (Session × ℕ) :=
  match s.app.menu.menuList with
  | none => some (s, 0)
  | some shown => do
    let a ← s.app.moveCursor i.frame
    let ml ← a.lists shown
    let index := ml.getIndex
    let s ← (s.withApp a).runIfSet P i (App.selected i.frame a.menu ml index)
    return (s, index)

/-- `App.step` with the network.
SOURCE: source/menu.cpp:172-211 -/
def step (P : Platform) (s : Session) (i : SessionFrame) : Option Session := do
  let (s, index) ← (s.withApp { s.app with feedFile := i.frame.feedFile }).handleInput P i
  let _ ← s.app.toScreen.drawHeader
  let _ ← s.app.toScreen.drawList index
  return s

end Session

end PsCast
