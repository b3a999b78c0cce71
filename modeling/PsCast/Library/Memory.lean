import Mathlib.Data.List.Range

/-!
# Texts in memory

Memory is a function from indices to values. `cells` lists a stretch of it, and `Holds` says
that the first cells hold a given text, which ends with the buffer or with a zero cell.
-/

set_option autoImplicit false

namespace PsCast.Library

variable {α : Type*}

/-- The `n` cells from index `i` on. -/
def cells (mem : ℕ → α) (i n : ℕ) : List α := (List.range' i n).map mem

@[simp] theorem cells_zero (mem : ℕ → α) (i : ℕ) : cells mem i 0 = [] := rfl

/-- The first cell, and those behind it. -/
theorem cells_succ (mem : ℕ → α) (i n : ℕ) :
    cells mem i (n + 1) = mem i :: cells mem (i + 1) n := by
  simp [cells, List.range'_succ]

/-- A stretch of cells in two parts. -/
theorem cells_append (mem : ℕ → α) (i m n : ℕ) :
    cells mem i (m + n) = cells mem i m ++ cells mem (i + m) n := by
  unfold cells
  rw [← List.map_append, ← List.range'_append_1]

@[simp] theorem length_cells (mem : ℕ → α) (i n : ℕ) : (cells mem i n).length = n := by
  simp [cells]

/-- The cells of a memory that holds a list are that list. -/
theorem cells_getD (xs : List α) (x : α) : cells (fun i => xs.getD i x) 0 xs.length = xs := by
  apply List.ext_getElem
  · exact length_cells ..
  · intro i _ hi
    simp [cells, hi]

/-- A buffer of `size` cells that holds the text `xs`, ended by a zero cell unless the text
fills the buffer. -/
structure Holds [Zero α] (mem : ℕ → α) (size : ℕ) (xs : List α) : Prop where
  first : cells mem 0 xs.length = xs
  fits : xs.length ≤ size
  ended : xs.length < size → mem xs.length = 0

variable [Zero α] {mem : ℕ → α} {size : ℕ} {xs : List α}

/-- A text fills the buffer that is as long as it. -/
theorem holds_getD (xs : List α) : Holds (fun i => xs.getD i 0) xs.length xs where
  first := cells_getD xs 0
  fits := le_rfl
  ended h := absurd h (Nat.lt_irrefl xs.length)

/-- The buffer is the text, alone or with a zero and more after it. -/
theorem Holds.cells_eq (h : Holds mem size xs) :
    ∃ rest, cells mem 0 size = xs ++ rest ∧ (rest = [] ∨ rest.head? = some 0) := by
  refine ⟨cells mem xs.length (size - xs.length), ?_, ?_⟩
  · have hsplit := cells_append mem 0 xs.length (size - xs.length)
    rwa [Nat.add_sub_cancel' h.fits, h.first, Nat.zero_add] at hsplit
  · rcases Nat.lt_or_ge xs.length size with hlt | hge
    · obtain ⟨k, hk⟩ : ∃ k, size - xs.length = k + 1 := ⟨size - xs.length - 1, by omega⟩
      rw [hk, cells_succ, h.ended hlt]
      exact .inr rfl
    · rw [Nat.sub_eq_zero_of_le hge]
      exact .inl rfl

/-- With a zero cell behind the text in any case, the first cell that follows it is zero. -/
theorem Holds.cells_eq_terminated (h : Holds mem size xs) (hend : mem xs.length = 0) :
    ∃ rest, cells mem 0 size = xs ++ rest ∧ rest.headD (mem size) = 0 := by
  obtain ⟨rest, hcells, hrest⟩ := h.cells_eq
  refine ⟨rest, hcells, ?_⟩
  rcases hrest with rfl | hhead
  · have hlength := congrArg List.length hcells
    rw [length_cells, List.append_nil] at hlength
    rw [hlength]
    exact hend
  · rw [List.headD_eq_head?_getD, hhead]
    rfl

end PsCast.Library
