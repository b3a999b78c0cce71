import PsCast.Model.Menu
import PsCast.Model.Podcast
import PsCast.Model.Http
import PsCast.Model.Utils

/-!
# The application

`App` of `app.hpp` and `app.cpp`, and `Menu::draw`, which runs its closures. One `Frame`
holds everything that reaches the program from outside during one call of `Menu::draw`:
the buttons, the feed file as the frame finds it, and the outcomes of the SDK calls.
-/

set_option autoImplicit false

namespace PsCast

/-- What is fixed for a whole run: the feed parser, the number of copies the compiler
leaves in `return podcast`, and two constants of the IME dialog. The parser is a function,
with `none` for an exception: one that stays inside of its memory on every buffer. -/
structure Platform where
  feedpp : Bytes → Option Feed
  returnCopies : ℕ := 0
  imeDialogButtonClose : ℕ
  imeDialogMaxTextLength : ℕ

/-- A finished IME dialog: the button that `sceImeDialogGetResult` would report, the
text in `imeInputBuffer`, and the bytes that lie in the uninitialised `buffer`. -/
structure ImeDialog where
  button : ℕ := 0
  text : ℕ → UInt16 := fun _ => 0
  stack : Bytes := []

/-- The outside world during one frame. `fdRead` and `fdAppend` are what opening the feed file
gives, and reading it and appending to it, `net k` is the transfer of the `k`-th download. -/
structure Frame where
  pressedButtons : BitVec 32 := 0
  feedFile : FeedFile := none
  fdRead : IoRead := {}
  fdAppend : IoWrite := {}
  ime : ImeDialog := {}
  net : ℕ → Transfer := fun _ => { chunks := [], nonempty := by simp }

/-- The members of `App`, the lists in memory, and the feed file on the memory card.
`allocated` counts the episode lists allocated so far.
SOURCE: source/include/app.hpp:49-56 -/
structure App extends Screen where
  podcasts : List Podcast := []
  feedUrls : List Bytes := []
  podcastEpisodesLists : List ListId := []
  allocated : ℕ := 0
  feedFile : FeedFile := none

namespace App

/-- The status that says that nothing failed. -/
def ok : ℤ := 0

/-- `menu.sendHeaderMessage(label)`. -/
def sendHeaderMessage (a : App) (label : Bytes) : Option App := do
  let s ← a.toScreen.sendHeaderMessage label
  return { a with toScreen := s }

/-! ## Updating -/

/-- The status argument of `dl->download` is overwritten before it is looked at; an empty
page is the `std::runtime_error` of line 106, and the handler and the normal path both
return the same local `podcast`. The download object and its deletion are left out.
SOURCE: source/app.cpp:84-130 -/
def downloadAndParseFeed (P : Platform) (t : Transfer) (url : Bytes) (a : App) :
    Option (Podcast × App) := do
  let a ← a.sendHeaderMessage (lit "Downloading: " ++ url ++ lit "...")
  let (_, current_page) := HttpBase.download url t
  let a ← a.sendHeaderMessage (lit "Parsing " ++ url ++ lit "...")
  let podcast : Podcast := {}
  let (st, podcast) :=
    if current_page.length < 1 then (none, podcast)
    else podcast.parseFromXmlStream P.feedpp current_page
  if st = some Podcast.ok then
    let a ← a.sendHeaderMessage (lit "Done!")
    return (podcast.copies P.returnCopies, a)
  else
    let a ← a.sendHeaderMessage (lit "Error!")
    return (podcast.copies P.returnCopies, a)

/-- SOURCE: source/app.cpp:132-139 -/
def updateFeedFile (fd : IoRead) (a : App) : ℤ × App :=
  let (feed_urls, file) := Utils.getLinesFromFile fd a.feedFile
  let a := { a with feedUrls := feed_urls, feedFile := file }
  if feed_urls.length < 1 then (-1, a) else (ok, a)

/-- The loop over `feed_urls`, from the `k`-th download on. `push_back` copies its
argument; growing the vector copies the elements once more, which changes nothing
further (`copy_copy`).
SOURCE: source/app.cpp:147-152 -/
def downloadFeeds (P : Platform) (net : ℕ → Transfer) : ℕ → List Bytes → App → Option App
  | _, [], a => some a
  | k, s :: rest, a => do
    let (p, a) ← downloadAndParseFeed P (net k) s a
    let a := if p.isValid then { a with podcasts := a.podcasts ++ [p.copy] } else a
    downloadFeeds P net (k + 1) rest a

/-- `delete list`, for a list of the vector; deleting a list twice is undefined. -/
def deleteList (a : App) (list : ListId) : Option App := do
  let _ ← a.lists list
  return { a with lists := Function.update a.lists list none }

/-- The local `episodes` built for one podcast.
SOURCE: source/app.cpp:170-172 -/
def episodesOf (p : Podcast) : MenuList :=
  p.episodes.foldl (fun episodes e => episodes.append { label := e.name, callback := none }) {}

/-- One round of the second loop of `updatePodcastsList`.
SOURCE: source/app.cpp:168-180 -/
def addPodcast (a : App) (p : Podcast) : Option App := do
  let list_ptr := ListId.episodes a.allocated
  let a := { a with
    lists := Function.update a.lists list_ptr (some (episodesOf p).copy)
    allocated := a.allocated + 1
    podcastEpisodesLists := a.podcastEpisodesLists ++ [list_ptr] }
  let podcast_list ← a.lists .podcastList
  let entry : MenuEntry := { label := p.name, callback := some (.goToList list_ptr) }
  return { a with toScreen := a.toScreen.setList .podcastList (podcast_list.append entry) }

/-- SOURCE: source/app.cpp:158-181 -/
def updatePodcastsList (podcasts : List Podcast) (a : App) : Option App := do
  let podcast_list ← a.lists .podcastList
  let a := { a with toScreen := a.toScreen.setList .podcastList podcast_list.clear }
  let a ← a.podcastEpisodesLists.foldlM deleteList a
  let a := { a with podcastEpisodesLists := [] }
  podcasts.foldlM addPodcast a

/-- SOURCE: source/app.cpp:141-156 -/
def updateFromFeedFile (P : Platform) (fd : IoRead) (net : ℕ → Transfer) (a : App) :
    Option (ℤ × App) := do
  let (st, a) := a.updateFeedFile fd
  if st ≠ ok then return (-1, a)
  let a := { a with podcasts := [] }
  let a ← downloadFeeds P net 0 a.feedUrls a
  let a ← updatePodcastsList a.podcasts a
  return (ok, a)

/-! ## Adding a URL -/

/-- `std::string(buffer)`: the bytes before the first NUL. -/
def cString (buffer : Bytes) : Bytes := buffer.takeWhile (· ≠ 0)

/-- The string that `requestInputFromImeDialog` returns once the dialog is finished. The
result record is zeroed and never filled in by `sceImeDialogGetResult`, so the button
tested is always zero. The conversion of the title before the dialog (`titleBuffer`), which
writes behind its buffer, is left out here.
SOURCE: source/app.cpp:183-240 -/
def requestInputFromImeDialog (P : Platform) (ime : ImeDialog) : Bytes :=
  let rst_button := 0
  let buffer :=
    if rst_button = P.imeDialogButtonClose then ime.stack
    else (Utils.utf16to8 ime.text P.imeDialogMaxTextLength P.imeDialogMaxTextLength).written
  cString buffer

/-- How `requestInputFromImeDialog` converts its title. `titleBuffer` has as many 16-bit units
as the title has bytes, and the NUL behind a `std::string` is in memory.
SOURCE: source/app.cpp:194-195 -/
def titleBuffer (title : Bytes) : Utils.WideConversion :=
  Utils.utf8To16 (fun i => title.getD i 0) title.length (2 * title.length)

/-- `sceIoOpen` without `SCE_O_CREAT` fails on a file that does not exist. -/
def openAppend (fdAppend : IoWrite) (file : FeedFile) : ℤ := if file = none then -1 else fdAppend.fd

/-- `input` is the string that `requestInputFromImeDialog` returned. How much of it `sceIoWrite`
wrote is not looked at.
SOURCE: source/app.cpp:242-268 -/
def appendUrlToFeed (fdRead : IoRead) (fdAppend : IoWrite) (input : Bytes) (a : App) :
    Option App := do
  let (_, a) := a.updateFeedFile fdRead
  if input.length < 1 then return a
  match a.feedUrls.find? (· = input) with
  | some s => a.sendHeaderMessage (lit "\"" ++ s ++ lit "\" already in list")
  | none =>
    let fd := openAppend fdAppend a.feedFile
    if fd < 1 then a.sendHeaderMessage (lit "cannot open \"ux0:/data/psCast/feeds.txt\"")
    else
      let input := input ++ [newline]
      let a := { a with feedFile := some (a.feedFile.getD [] ++ fdAppend.put input) }
      a.sendHeaderMessage (lit "appended \"" ++ input ++ lit "\" to feed list")

/-! ## One frame -/

/-- Run a closure of `App`. -/
def runCallback (P : Platform) (f : Frame) (a : App) : Callback → Option App
  | .goToList next_list => do
    let s ← a.toScreen.goToList (some next_list)
    return { a with toScreen := s }
  | .appendUrlToFeed =>
    a.appendUrlToFeed f.fdRead f.fdAppend (requestInputFromImeDialog P f.ime)
  | .updateFromFeedFile => do
    let (_, a) ← a.updateFromFeedFile P f.fdRead f.net
    return a

/-- Run a `std::function` held by the menu. -/
def runMenuCallback (P : Platform) (f : Frame) (a : App) : MenuCallback → Option App
  | .back next_list => do
    let s ← a.toScreen.backLambda next_list
    return { a with toScreen := s }
  | .owner callback => a.runCallback P f callback

/-- The guarded calls `if(callback) callback()` of the source. -/
def runIfSet (P : Platform) (f : Frame) (a : App) : Option MenuCallback → Option App
  | none => some a
  | some callback => a.runMenuCallback P f callback

/-- The first branch of `Menu::draw`: Down and Up.
SOURCE: source/menu.cpp:177-180 -/
def moveCursor (f : Frame) (a : App) : Option App :=
  if triggered f.pressedButtons sceCtrlDown then do
    let s ← a.toScreen.goDownOnList
    return { a with toScreen := s }
  else if triggered f.pressedButtons sceCtrlUp then do
    let s ← a.toScreen.goUpOnList
    return { a with toScreen := s }
  else some a

/-- The function that the buttons of the frame select, with the cursor at `index` of the
shown list `ml`.
SOURCE: source/menu.cpp:184-200 -/
def selected (f : Frame) (menu : Menu) (ml : MenuList) (index : ℕ) : Option MenuCallback :=
  if triggered f.pressedButtons menu.acceptButton then
    (ml.atIndex index).callback.map .owner
  else if triggered f.pressedButtons menu.backButton then menu.backButtonCallback
  else if triggered f.pressedButtons menu.optionsButton then menu.optionsButtonCallback
  else if triggered f.pressedButtons menu.selectButton then menu.selectButtonCallback
  else none

/-- The input half of `Menu::draw`, with the cursor that it read.
SOURCE: source/menu.cpp:174-201 -/
def handleInput (P : Platform) (f : Frame) (a : App) : Option (App × ℕ) :=
  match a.menu.menuList with
  | none => some (a, 0)
  | some shown => do
    let a ← a.moveCursor f
    let ml ← a.lists shown
    let index := ml.getIndex
    let a ← a.runIfSet P f (selected f a.menu ml index)
    return (a, index)

/-- SOURCE: source/menu.cpp:172-211 -/
def draw (P : Platform) (f : Frame) (a : App) : Option (App × Screen.Picture) := do
  let (a, index) ← a.handleInput P f
  let (status, context) ← a.toScreen.drawHeader
  let rows ← a.toScreen.drawList index
  return (a, { status := status, context := context, rows := rows })

/-- The state after one frame that starts with the feed file of the frame. -/
def step (P : Platform) (a : App) (f : Frame) : Option App :=
  (draw P f { a with feedFile := f.feedFile }).map Prod.fst

/-! ## Destruction -/

/-- The destructor of a list that is a member. -/
def destroyMember (l : ListId) (a : App) : App :=
  { a with lists := Function.update a.lists l none }

/-- `~Menu`, which deletes the shown list.
SOURCE: source/menu.cpp:6-10 -/
def destroyMenu (a : App) : Option App :=
  match a.menu.menuList with
  | none => some a
  | some shown => deleteList a shown

/-- `~App`: its body, and then the members in the reverse order of their declaration, of which
the menu is the last but `podcasts`.
SOURCE: source/app.cpp:32-39, source/include/app.hpp:47-56 -/
def destroy (a : App) : Option App := do
  let a ← a.podcastEpisodesLists.foldlM deleteList a
  let a := { a with podcastEpisodesLists := [], feedUrls := [] }
  let a := a.destroyMember .podcastList
  let a := a.destroyMember .optionsList
  let a := a.destroyMember .mainMenuList
  let a ← a.destroyMenu
  return { a with podcasts := [] }

/-! ## The initial state -/

/-- SOURCE: source/app.cpp:8-13 -/
def optionsListInit : MenuList := { label := lit "options", entries := [{ label := lit "test" }] }

/-- SOURCE: source/app.cpp:15-17 -/
def podcastListInit : MenuList := { label := lit "Podcasts" }

/-- SOURCE: source/app.cpp:19-27 -/
def mainMenuListInit : MenuList :=
  { label := lit "psCast"
    entries :=
      [{ label := lit "podcasts", callback := some (.goToList .podcastList) },
       { label := lit "add url", callback := some .appendUrlToFeed },
       { label := lit "update", callback := some .updateFromFeedFile },
       { label := lit "options", callback := some (.goToList .optionsList) }] }

/-- The constructor. The menu is the first of these members to be constructed, so its
`goToList(&main_menu_list)` runs on memory that holds no list yet: `raw` stands for it.
SOURCE: source/app.cpp:7-30, source/include/app.hpp:49-53 -/
def construct (raw : MenuList) : Option App := do
  let s : Screen :=
    { menu := {}, lists := Function.update (fun _ => none) .mainMenuList (some raw) }
  let s ← s.goToList (some .mainMenuList)
  let s := s.setList .mainMenuList mainMenuListInit
  let s := s.setList .optionsList optionsListInit
  let s := s.setList .podcastList podcastListInit
  return { toScreen := s }

/-- SOURCE: source/app.cpp:69-75 -/
def setup (a : App) : App :=
  { a with menu := { a.menu with acceptButton := sceCtrlCircle, backButton := sceCtrlCross } }

/-- The state in which `App::run` starts. -/
def start : App where
  menu :=
    { menuList := some .mainMenuList
      currentList := some .mainMenuList
      backButtonCallback := some (.back .mainMenuList) }
  lists
    | .mainMenuList => some mainMenuListInit
    | .optionsList => some optionsListInit
    | .podcastList => some podcastListInit
    | .episodes _ => none

/-- Whatever the memory of `main_menu_list` held, construction and set-up end in `start`. -/
theorem construct_setup (raw : MenuList) : (construct raw).map setup = some start := by
  have hlists : Function.update (Function.update (Function.update (fun _ => none)
      ListId.mainMenuList (some mainMenuListInit)) .optionsList (some optionsListInit))
      .podcastList (some podcastListInit) = start.lists := by
    funext l
    cases l <;> simp [Function.update, start]
  unfold construct Screen.goToList
  simp only [Function.update_self, Option.bind_eq_bind, Option.bind_some, Option.pure_def,
    Option.map_some, Screen.setList, Screen.checkoutEntryList, setup]
  split
  · simp only [Function.update_idem]
    rw [hlists]
    rfl
  · simp only [Function.update_idem]
    rw [hlists]
    rfl

end App

end PsCast
