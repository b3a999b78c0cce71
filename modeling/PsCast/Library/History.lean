import Mathlib.Data.List.Basic
import Mathlib.Data.List.Chain
import Mathlib.Data.List.Nodup
import Mathlib.Logic.Function.Basic

/-!
# Browsing histories

A history is the list of the places that were entered and not left again, the current one
first. Entering a place pushes it, going back pops it, and the first place is never
popped. The first half of the file is the stack itself: `k` entries are undone by `k`
steps back (`applyAll_nested_backs`), and enough steps back reach the first place.

The second half is the representation of a history by one parent link for each place:
`Represents parent path` says that following `parent` from the current place runs through
`path`, and that every other place has no link. Entering and leaving update one link.
-/

set_option autoImplicit false

namespace PsCast.Library.History

variable {α : Type*}

/-! ## The stack -/

/-- What one step does to a history. -/
inductive Move (α : Type*) where
  | stay
  | enter (a : α)
  | back
  deriving DecidableEq

namespace Move

/-- The history after one step. -/
def apply : Move α → List α → List α
  | stay, path => path
  | enter a, path => a :: path
  | back, _ :: b :: rest => b :: rest
  | back, path => path

/-- The place that a move enters. -/
def entered : Move α → Option α
  | enter a => some a
  | _ => none

end Move

/-- Only an `enter` enters a place. -/
theorem Move.entered_eq_some {m : Move α} {a : α} : m.entered = some a ↔ m = .enter a := by
  cases m <;> simp [Move.entered]

/-- The path after some moves. -/
def applyAll (moves : List (Move α)) (path : List α) : List α :=
  moves.foldl (fun path m => m.apply path) path

@[simp] theorem applyAll_nil (path : List α) : applyAll [] path = path := rfl

/-- The first move comes first. -/
@[simp] theorem applyAll_cons (m : Move α) (moves : List (Move α)) (path : List α) :
    applyAll (m :: moves) path = applyAll moves (m.apply path) := rfl

/-- Moves can be made in two parts. -/
theorem applyAll_append (moves moves' : List (Move α)) (path : List α) :
    applyAll (moves ++ moves') path = applyAll moves' (applyAll moves path) := by
  unfold applyAll
  rw [List.foldl_append]

/-- Back never lengthens the path. -/
theorem Move.length_back_apply_le (path : List α) :
    (Move.back.apply path).length ≤ path.length := by
  match path with
  | [] => exact le_rfl
  | [a] => exact le_rfl
  | a :: b :: rest => exact Nat.le_succ _

/-- Steps that never go back put the places they enter on top of the history. -/
theorem applyAll_of_no_back (moves : List (Move α)) (h : Move.back ∉ moves) (path : List α) :
    applyAll moves path = (moves.filterMap Move.entered).reverse ++ path := by
  induction moves generalizing path with
  | nil => rfl
  | cons m moves ih =>
    have hrest : Move.back ∉ moves := fun hm => h (List.mem_cons_of_mem _ hm)
    rw [applyAll_cons, ih hrest]
    cases m with
    | stay => rfl
    | enter a => simp [Move.apply, Move.entered]
    | back => exact absurd List.mem_cons_self h

/-- `k` steps back remove `k` places, as long as something lies below them. -/
theorem applyAll_backs (top path : List α) (h : path ≠ []) :
    applyAll (List.replicate top.length Move.back) (top ++ path) = path := by
  induction top with
  | nil => rfl
  | cons a top ih =>
    rw [List.length_cons, List.replicate_succ, applyAll_cons, List.cons_append]
    have hback : Move.back.apply (a :: (top ++ path)) = top ++ path := by
      obtain ⟨b, rest, hb⟩ := List.exists_cons_of_ne_nil (List.append_ne_nil_of_right_ne_nil top h)
      rw [hb]
      rfl
    rw [hback, ih]

/-- **Back undoes entering**: after steps that enter `k` places and never go back, `k` steps
back lead to the history from before. -/
theorem applyAll_nested_backs (moves : List (Move α)) (hback : Move.back ∉ moves) (path : List α)
    (h : path ≠ []) :
    applyAll (List.replicate (moves.filterMap Move.entered).length Move.back)
      (applyAll moves path) = path := by
  rw [applyAll_of_no_back moves hback, ← List.length_reverse]
  exact applyAll_backs _ path h

/-- One step back fewer than the history is long leads to its first place. -/
theorem applyAll_backs_getLast (path : List α) (h : path ≠ []) :
    applyAll (List.replicate (path.length - 1) Move.back) path = [path.getLast h] := by
  have hsplit : path.dropLast ++ [path.getLast h] = path := List.dropLast_append_getLast h
  have hback := applyAll_backs path.dropLast [path.getLast h] (by simp)
  rwa [hsplit, List.length_dropLast] at hback

/-! ## The last entry of a place -/

/-- One step that does not enter `a` keeps the history from `a` down, or has left `a`. -/
theorem Move.keeps_or_leaves (m : Move α) {a : α} {base : List α} (ha : a ∉ base)
    (hm : m ≠ .enter a) {path : List α}
    (h : (∃ top, a ∉ top ∧ path = top ++ a :: base) ∨ a ∉ path) :
    (∃ top, a ∉ top ∧ m.apply path = top ++ a :: base) ∨ a ∉ m.apply path := by
  cases m with
  | stay => exact h
  | enter b =>
    have hb : a ≠ b := fun heq => hm (heq ▸ rfl)
    rcases h with ⟨top, htop, rfl⟩ | hleft
    · exact .inl ⟨b :: top, List.not_mem_cons_of_ne_of_not_mem hb htop, rfl⟩
    · exact .inr (List.not_mem_cons_of_ne_of_not_mem hb hleft)
  | back =>
    rcases h with ⟨top, htop, rfl⟩ | hleft
    · cases top with
      | nil =>
        cases base with
        | nil => exact .inl ⟨[], htop, rfl⟩
        | cons c base => exact .inr ha
      | cons b top =>
        refine .inl ⟨top, fun hmem => htop (List.mem_cons_of_mem _ hmem), ?_⟩
        cases top <;> rfl
    · refine .inr fun hmem => hleft ?_
      match path, hmem with
      | [b], hmem => exact hmem
      | b :: c :: rest, hmem => exact List.mem_cons_of_mem _ hmem

/-- **The last entry counts**: if `a` is the current place and was not entered again since it
was entered from `path`, then `path` still lies below it. -/
theorem applyAll_of_last_enter {a : α} {path : List α} (ha : a ∉ path) (moves : List (Move α))
    (hmoves : Move.enter a ∉ moves) (hhead : (applyAll moves (a :: path)).head? = some a) :
    applyAll moves (a :: path) = a :: path := by
  have hkeep : ∀ (moves : List (Move α)) (p : List α), Move.enter a ∉ moves →
      ((∃ top, a ∉ top ∧ p = top ++ a :: path) ∨ a ∉ p) →
      ((∃ top, a ∉ top ∧ applyAll moves p = top ++ a :: path) ∨ a ∉ applyAll moves p) := by
    intro moves
    induction moves with
    | nil => exact fun p _ h => h
    | cons m moves ih =>
      intro p hp h
      obtain ⟨hm, hrest⟩ := not_or.mp (mt List.mem_cons.mpr hp)
      exact ih _ hrest (m.keeps_or_leaves ha (Ne.symm hm) h)
  -- in the other case `a` was left, and then it cannot be the current place
  rcases hkeep moves (a :: path) hmoves (.inl ⟨[], List.not_mem_nil, rfl⟩) with
    ⟨top, htop, heq⟩ | hleft
  · cases top with
    | nil => exact heq
    | cons b top =>
      rw [heq, List.cons_append, List.head?_cons, Option.some.injEq] at hhead
      exact absurd (hhead ▸ List.mem_cons_self) htop
  · exact absurd (List.mem_of_mem_head? hhead) hleft

/-! ## Parent links -/

/-- Following `parent` from the head of `path` runs through `path` and ends there. -/
def Linked (parent : α → Option α) : List α → Prop
  | [] => True
  | a :: rest => parent a = rest.head? ∧ Linked parent rest

/-- Only the parents of the places on the path matter. -/
theorem Linked.congr {parent parent' : α → Option α} {path : List α}
    (h : Linked parent path) (heq : ∀ a ∈ path, parent' a = parent a) : Linked parent' path := by
  induction path with
  | nil => trivial
  | cons a rest ih =>
    refine ⟨?_, ih h.2 fun b hb => heq b (List.mem_cons_of_mem _ hb)⟩
    rw [heq a List.mem_cons_self]
    exact h.1

/-- Along the path each place has the next one for its parent. -/
theorem Linked.isChain {parent : α → Option α} {path : List α} (h : Linked parent path) :
    path.IsChain fun a b => parent a = some b := by
  induction path with
  | nil => exact List.isChain_nil
  | cons a rest ih =>
    cases rest with
    | nil => exact List.isChain_singleton a
    | cons b rest => exact List.isChain_cons_cons.mpr ⟨h.1, ih h.2⟩

/-- The place at which the path began has no parent. -/
theorem Linked.parent_getLast {parent : α → Option α} {path : List α} (h : Linked parent path)
    {a : α} (ha : path.getLast? = some a) : parent a = none := by
  induction path with
  | nil => cases ha
  | cons b rest ih =>
    cases rest with
    | nil =>
      obtain rfl : b = a := by simpa using ha
      exact h.1
    | cons c rest => exact ih h.2 (by rwa [List.getLast?_cons_cons] at ha)

/-- A link never leaves the path. -/
theorem Linked.mem_of_parent {parent : α → Option α} {path : List α} (h : Linked parent path)
    {a b : α} (ha : a ∈ path) (hb : parent a = some b) : b ∈ path := by
  induction path with
  | nil => simp at ha
  | cons c rest ih =>
    rcases List.mem_cons.mp ha with rfl | ha
    · rw [h.1] at hb
      exact List.mem_cons_of_mem _ (List.mem_of_mem_head? hb)
    · exact List.mem_cons_of_mem _ (ih h.2 ha)

/-- The links of the places on `path` are those of `path`, all other links are empty, and
no place occurs twice. -/
structure Represents (parent : α → Option α) (path : List α) : Prop where
  nodup : path.Nodup
  linked : Linked parent path
  unlinked : ∀ a, a ∉ path → parent a = none

namespace Represents

variable {parent : α → Option α} {path : List α}

/-- The parent of the place shown is the next one on the path. -/
theorem parent_head {a : α} (h : Represents parent (a :: path)) : parent a = path.head? :=
  h.linked.1

/-- Only the values of the parent function matter. -/
theorem congr {parent' : α → Option α} (h : Represents parent path)
    (heq : ∀ a, parent' a = parent a) : Represents parent' path := by
  have hfun : parent' = parent := funext heq
  rw [hfun]
  exact h

/-- Entering a place that is not on the path sets its link to the current place. -/
theorem enter [DecidableEq α] (h : Represents parent path) {a : α} (ha : a ∉ path) :
    Represents (Function.update parent a path.head?) (a :: path) where
  nodup := List.nodup_cons.mpr ⟨ha, h.nodup⟩
  linked := by
    refine ⟨Function.update_self .., h.linked.congr fun b hb => ?_⟩
    have hne : b ≠ a := fun heq => ha (heq ▸ hb)
    rw [Function.update_of_ne hne]
  unlinked b hb := by
    obtain ⟨hne, hb⟩ := not_or.mp (mt List.mem_cons.mpr hb)
    rw [Function.update_of_ne hne]
    exact h.unlinked b hb

/-- Leaving the current place empties its link. -/
theorem back [DecidableEq α] {a : α} (h : Represents parent (a :: path)) :
    Represents (Function.update parent a none) path where
  nodup := h.nodup.of_cons
  linked := by
    refine h.linked.2.congr fun b hb => ?_
    have hne : b ≠ a := fun heq => (List.nodup_cons.mp h.nodup).1 (heq ▸ hb)
    rw [Function.update_of_ne hne]
  unlinked b hb := by
    by_cases hba : b = a
    · rw [hba, Function.update_self]
    · rw [Function.update_of_ne hba]
      exact h.unlinked b fun hmem => (List.mem_cons.mp hmem).elim hba hb

end Represents

end PsCast.Library.History
