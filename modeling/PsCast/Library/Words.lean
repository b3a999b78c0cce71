import Mathlib.Data.List.Basic

/-!
# Words between separators

The words of a list are its maximal non-empty stretches without a separator (`words`). The
rules take a list apart from the front: separators are skipped (`words_skip`), and a stretch
of other elements that ends with the list or at a separator is the first word
(`words_append`).
-/

set_option autoImplicit false

namespace PsCast.Library

variable {α : Type*} (isSep : α → Bool)

/-- The words of a list: what stands between separators, without the empty ones. -/
def words (l : List α) : List (List α) := (l.splitOnP isSep).filter fun word => !word.isEmpty

@[simp] theorem words_nil : words isSep [] = [] := rfl

variable {isSep}

/-- A separator at the front changes nothing. -/
theorem words_cons_sep {x : α} (hx : isSep x) (l : List α) :
    words isSep (x :: l) = words isSep l := by
  simp [words, List.splitOnP_cons_eq_if_modifyHead, hx]

/-- Separators at the front change nothing. -/
theorem words_skip {seps : List α} (hseps : ∀ x ∈ seps, isSep x) (l : List α) :
    words isSep (seps ++ l) = words isSep l := by
  induction seps with
  | nil => rfl
  | cons x seps ih =>
    obtain ⟨hx, hseps⟩ := List.forall_mem_cons.mp hseps
    rw [List.cons_append, words_cons_sep hx, ih hseps]

/-- The first word of a list. -/
theorem words_append {word : List α} (hword : ∀ x ∈ word, isSep x = false) (hne : word ≠ [])
    {rest : List α} (hrest : ∀ x ∈ rest.head?, isSep x) :
    words isSep (word ++ rest) = word :: words isSep rest := by
  cases rest with
  | nil => simp [words, List.splitOnP_eq_singleton hword, hne]
  | cons x rest =>
    have hx : isSep x := hrest x rfl
    rw [words_cons_sep hx]
    simp [words, List.splitOnP_append_cons_of_forall_mem hword x hx, hne]

/-- A list begins with a stretch of elements that pass a test, and goes on with one that does
not. -/
theorem exists_stretch (test : α → Bool) (l : List α) :
    ∃ front rest, l = front ++ rest ∧ (∀ x ∈ front, test x = true) ∧
      ∀ x ∈ rest.head?, test x = false := by
  induction l with
  | nil => exact ⟨[], [], rfl, by simp, by simp⟩
  | cons x l ih =>
    cases hx : test x with
    | false => exact ⟨[], x :: l, rfl, by simp, by simp [hx]⟩
    | true =>
      obtain ⟨front, rest, rfl, hfront, hrest⟩ := ih
      exact ⟨x :: front, rest, rfl, List.forall_mem_cons.mpr ⟨hx, hfront⟩, hrest⟩

/-- Only a list of separators has no word. -/
theorem words_eq_nil {l : List α} (h : words isSep l = []) : ∀ x ∈ l, isSep x := by
  obtain ⟨seps, rest, rfl, hseps, hrest⟩ := exists_stretch isSep l
  rw [words_skip hseps] at h
  obtain ⟨word, rest', rfl, hword, hrest'⟩ := exists_stretch (fun x => !isSep x) rest
  by_cases hne : word = []
  · subst hne
    cases rest' with
    | nil => simpa using hseps
    | cons x rest' =>
      have hsep : isSep x = false := hrest x rfl
      have hnot : (!isSep x) = false := hrest' x rfl
      simp [hsep] at hnot
  · rw [words_append (by simpa using hword) hne (by simpa using hrest')] at h
    cases h

end PsCast.Library
