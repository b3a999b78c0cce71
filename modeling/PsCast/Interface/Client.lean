import PsCast.Model.MenuList
import Mathlib.Logic.Function.Basic

/-!
# The podcast client

What the application is for, without lists in memory, pointers between them or callbacks: a
client that keeps a shelf of podcasts and shows one page at a time. Down and Up move the
cursor of the page, Accept visits another page or acts, Back leaves the page. Three traits
are those of the application: the podcasts page cannot be left once an episode list was
opened from it (`trapped`), an update keeps the cursor of the podcasts page, and a page is
drawn with the cursor of the page that the frame came from (`view`).
-/

set_option autoImplicit false

namespace PsCast

/-- A podcast on the shelf: its title and those of its episodes. -/
structure Show where
  title : Bytes
  episodes : List Bytes
  deriving DecidableEq, Repr

/-- The pages. There is one of episodes for each podcast on the shelf. -/
inductive Page where
  | main
  | options
  | podcasts
  | episodes (i : ℕ)
  deriving DecidableEq, Repr

/-- What Down and Up ask of the cursor. -/
inductive Motion where
  | down
  | up
  | rest
  deriving DecidableEq, Repr

/-- The buttons that the client answers to; `other` stands for all the others and for none. -/
inductive Key where
  | accept
  | back
  | other
  deriving DecidableEq, Repr

/-- What one frame asks of the client. `fetched` is the shelf that an update would find in
this frame, if the feed file names any feed. -/
structure Gesture where
  motion : Motion := .rest
  key : Key := .other
  fetched : Option (List Show) := none
  deriving DecidableEq, Repr

/-- What a key stands for on the page on which it is pressed. -/
inductive Command where
  | stay
  | visit (p : Page)
  | addUrl
  | update
  | leave
  deriving DecidableEq, Repr

/-- The page as a frame draws it: its title, and the labels of up to eight entries, each with
whether it is highlighted. -/
structure View where
  title : Bytes
  rows : List (Bytes × Bool)
  deriving DecidableEq, Repr

/-- Every page has a cursor of its own. -/
structure Client where
  shelf : List Show := []
  page : Page := .main
  trapped : Bool := false
  cursor : Page → ℕ := fun _ => 0

/-- A page of episodes has no title. -/
def Page.title : Page → Bytes
  | .main => lit "psCast"
  | .options => lit "options"
  | .podcasts => lit "Podcasts"
  | .episodes _ => []

namespace Client

/-- The labels of the entries of a page. -/
def labels (c : Client) : Page → List Bytes
  | .main => [lit "podcasts", lit "add url", lit "update", lit "options"]
  | .options => [lit "test"]
  | .podcasts => c.shelf.map Show.title
  | .episodes i => (c.shelf[i]?.map Show.episodes).getD []

/-- Where the cursor of a page with `count` entries goes. -/
def moveTo (count index : ℕ) : Motion → ℕ
  | .down => if index + 1 < count then index + 1 else index
  | .up => index - 1
  | .rest => index

/-- The client after a motion on its page. -/
def moved (c : Client) (m : Motion) : Client :=
  { c with
    cursor := Function.update c.cursor c.page
      (moveTo (c.labels c.page).length (c.cursor c.page) m) }

/-- What Accept stands for on the entry `index` of the page. -/
def accepted (c : Client) (index : ℕ) : Command :=
  match c.page with
  | .main =>
    match index with
    | 0 => .visit .podcasts
    | 1 => .addUrl
    | 2 => .update
    | 3 => .visit .options
    | _ => .stay
  | .podcasts => if index < c.shelf.length then .visit (.episodes index) else .stay
  | _ => .stay

/-- What the key asks for on the page shown. Back leaves the page whatever its cursor is on. -/
def command (c : Client) : Key → Command
  | .accept => c.accepted (c.cursor c.page)
  | .back => .leave
  | .other => .stay

/-- The page that Back leads to. -/
def parent (c : Client) : Page :=
  match c.page with
  | .podcasts => if c.trapped then .podcasts else .main
  | .episodes _ => .podcasts
  | _ => .main

/-- Adding a URL shows nothing of what it did. The cursors of the episode lists that an update
brings start at zero. -/
def perform (c : Client) (fetched : Option (List Show)) : Command → Client
  | .stay => c
  | .visit (.episodes i) => { c with page := .episodes i, trapped := true }
  | .visit p => { c with page := p }
  | .addUrl => c
  | .update =>
    match fetched with
    | none => c
    | some shelf =>
      { c with
        shelf := shelf
        cursor := fun
          | .episodes _ => 0
          | p => c.cursor p }
  | .leave => { c with page := c.parent }

/-- The client after a gesture: first the motion, then the key. -/
def next (c : Client) (g : Gesture) : Client :=
  (c.moved g.motion).perform g.fetched ((c.moved g.motion).command g.key)

/-- The page shown at the end of the frame, drawn with the cursor that the frame read before
the key acted, as a 32-bit number. -/
def view (c : Client) (g : Gesture) : View :=
  let index := (c.moved g.motion).cursor c.page % UInt32.size
  let c' := c.next g
  { title := c'.page.title
    rows := (((c'.labels c'.page).zipIdx.drop (index / 8 * 8)).take 8).map
      fun (label, k) => (label, index == k) }

/-! ## Facts about the client -/

variable {c c' : Client}

/-- The labels depend on the shelf only. -/
theorem labels_congr (h : c'.shelf = c.shelf) (p : Page) : c'.labels p = c.labels p := by
  cases p <;> simp only [labels, h]

@[simp] theorem perform_visit_shelf (fetched : Option (List Show)) (p : Page) :
    (c.perform fetched (.visit p)).shelf = c.shelf := by
  cases p <;> rfl

@[simp] theorem perform_visit_cursor (fetched : Option (List Show)) (p : Page) :
    (c.perform fetched (.visit p)).cursor = c.cursor := by
  cases p <;> rfl

/-- Pages are visited from the main page and from the podcasts page only. -/
theorem accepted_eq_visit {index : ℕ} {p : Page} (h : c.accepted index = .visit p) :
    (c.page = .main ∧ (p = .podcasts ∨ p = .options)) ∨
      (c.page = .podcasts ∧ ∃ i, i < c.shelf.length ∧ p = .episodes i) := by
  unfold accepted at h
  split at h
  · rename_i hpage
    refine .inl ⟨hpage, ?_⟩
    split at h <;> cases h
    · exact .inl rfl
    · exact .inr rfl
  · rename_i hpage
    split at h
    · rename_i hindex
      cases h
      exact .inr ⟨hpage, index, hindex, rfl⟩
    · cases h
  · cases h

end Client

end PsCast
