import Mathlib.Data.List.Chain

/-!
# Erasing while scanning

A loop that erases the element under its index and then advances the index steps over the
element that moved into the gap. `eraseScan` is what such a loop leaves of a list. It is the
list without its matches exactly if no two matches are adjacent (`eraseScan_eq_filter_iff`).
-/

set_option autoImplicit false

namespace PsCast.Library

variable {α : Type*} (p : α → Bool)

/-- Drop each match that the scan looks at; the element behind it is kept unseen. -/
def eraseScan : List α → List α
  | [] => []
  | [x] => if p x then [] else [x]
  | x :: y :: rest => if p x then y :: eraseScan rest else x :: eraseScan (y :: rest)

variable {p}

/-- An entry that does not match stays. -/
theorem eraseScan_cons_of_not {x : α} (hx : p x = false) (xs : List α) :
    eraseScan p (x :: xs) = x :: eraseScan p xs := by
  cases xs with
  | nil => simp [eraseScan, hx]
  | cons y rest => simp [eraseScan, hx]

/-- The entry behind a match is not looked at. -/
theorem eraseScan_cons_cons {x : α} (hx : p x = true) (y : α) (rest : List α) :
    eraseScan p (x :: y :: rest) = y :: eraseScan p rest := by
  simp [eraseScan, hx]

/-- Without a match all entries stay. -/
theorem eraseScan_eq_self {xs : List α} (h : ∀ x ∈ xs, p x = false) : eraseScan p xs = xs := by
  induction xs with
  | nil => rfl
  | cons x xs ih =>
    obtain ⟨hx, hxs⟩ := List.forall_mem_cons.mp h
    rw [eraseScan_cons_of_not hx, ih hxs]

/-- The elements that do not match all stay, in their order. -/
theorem filter_eraseScan (xs : List α) :
    (eraseScan p xs).filter (fun x => !p x) = xs.filter fun x => !p x := by
  induction xs using eraseScan.induct p with
  | case1 => rfl
  | case2 x hx => simp [eraseScan, hx]
  | case3 x hx => simp [eraseScan, hx]
  | case4 x y rest hx ih =>
    rw [eraseScan_cons_cons hx, List.filter_cons, ih]
    simp [hx, List.filter_cons]
  | case5 x y rest hx ih =>
    have hkept : ∀ xs, (x :: xs).filter (fun x => !p x) = x :: xs.filter fun x => !p x :=
      fun xs => List.filter_cons_of_pos (by simp [hx])
    rw [eraseScan_cons_of_not (Bool.not_eq_true _ ▸ hx), hkept, ih, hkept]

/-- An element that does not match is adjacent to no pair of matches. -/
theorem isChain_cons_of_not {x : α} (hx : p x = false) (xs : List α) :
    (x :: xs).IsChain (fun x y => ¬ (p x = true ∧ p y = true)) ↔
      xs.IsChain fun x y => ¬ (p x = true ∧ p y = true) := by
  cases xs with
  | nil => exact iff_of_true (List.isChain_singleton x) List.isChain_nil
  | cons y rest => simp [hx]

/-- No match is left exactly if no two matches are adjacent. -/
theorem eraseScan_all_iff (xs : List α) :
    (∀ x ∈ eraseScan p xs, p x = false) ↔
      xs.IsChain fun x y => ¬ (p x = true ∧ p y = true) := by
  induction xs using eraseScan.induct p with
  | case1 => simp [eraseScan]
  | case2 x hx => simp [eraseScan, hx]
  | case3 x hx => simp [eraseScan, hx]
  | case4 x y rest hx ih =>
    rw [eraseScan_cons_cons hx, List.forall_mem_cons, ih, List.isChain_cons_cons]
    by_cases hy : p y = true
    · simp [hx, hy]
    · have hy' : p y = false := Bool.not_eq_true _ ▸ hy
      rw [isChain_cons_of_not hy']
      simp [hy']
  | case5 x y rest hx ih =>
    have hx' : p x = false := Bool.not_eq_true _ ▸ hx
    rw [eraseScan_cons_of_not hx', List.forall_mem_cons, ih, isChain_cons_of_not hx']
    exact and_iff_right hx'

/-- **The scan is the filter** exactly if no two matches are adjacent. -/
theorem eraseScan_eq_filter_iff (xs : List α) :
    eraseScan p xs = xs.filter (fun x => !p x) ↔
      xs.IsChain fun x y => ¬ (p x = true ∧ p y = true) := by
  rw [← eraseScan_all_iff, ← filter_eraseScan]
  constructor
  · intro heq x hx
    rw [heq] at hx
    simpa using (List.mem_filter.mp hx).2
  · intro hall
    refine (List.filter_eq_self.mpr ?_).symm
    intro x hx
    rw [hall x hx, Bool.not_false]

end PsCast.Library
