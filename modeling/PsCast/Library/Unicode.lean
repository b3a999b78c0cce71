import Mathlib.Algebra.Ring.Nat
import Mathlib.Data.List.Basic

/-!
# Encodings of Unicode text

A Unicode scalar value is a `Char`, and its UTF-8 encoding is `String.utf8EncodeChar`. This
file adds the UTF-16 encoding, the rules that turn masks and shifts into arithmetic, the rule
that a byte below 0x80 is a character of its own, and the rule by which two encodings of a text
are compared character by character.
-/

set_option autoImplicit false

namespace PsCast.Library

/-! ## Masks and shifts -/

/-- A mask of `m` ones from bit `k` on cuts out a field. -/
theorem and_field (x k m : ℕ) : x &&& (2 ^ m - 1) * 2 ^ k = x / 2 ^ k % 2 ^ m * 2 ^ k := by
  apply Nat.eq_of_testBit_eq
  intro j
  rw [Nat.testBit_and, Nat.testBit_mul_two_pow, Nat.testBit_mul_two_pow,
    Nat.testBit_two_pow_sub_one, Nat.testBit_mod_two_pow, Nat.testBit_div_two_pow]
  by_cases hj : k ≤ j
  · rw [Nat.sub_add_cancel hj]
    simp [hj, Bool.and_comm]
  · simp [hj]

/-- A field below bit `k` is added to the bits from `k` on. -/
theorem or_field {x k : ℕ} (hx : x < 2 ^ k) (y : ℕ) : x ||| 2 ^ k * y = 2 ^ k * y + x := by
  rw [Nat.or_comm, ← Nat.two_pow_add_eq_or_of_lt hx]

/-! ## UTF-16 -/

namespace Utf16

/-- The units of a scalar value: itself, or a high and a low surrogate. -/
def encodeChar (c : Char) : List UInt16 :=
  if c.toNat < 0x10000 then [c.toNat.toUInt16]
  else
    [(0xD800 + (c.toNat - 0x10000) / 1024).toUInt16, (0xDC00 + (c.toNat - 0x10000) % 1024).toUInt16]

/-- A high surrogate, the first unit of a pair. -/
def IsHigh (u : UInt16) : Prop := 0xD800 ≤ u.toNat ∧ u.toNat < 0xDC00

/-- A low surrogate, the second unit of a pair. -/
def IsLow (u : UInt16) : Prop := 0xDC00 ≤ u.toNat ∧ u.toNat < 0xE000

instance (u : UInt16) : Decidable (IsHigh u) := inferInstanceAs (Decidable (_ ∧ _))

instance (u : UInt16) : Decidable (IsLow u) := inferInstanceAs (Decidable (_ ∧ _))

end Utf16

/-- A scalar value is below 0x110000 and no surrogate. -/
theorem scalar_cases (c : Char) :
    c.toNat < 0xD800 ∨ 0xE000 ≤ c.toNat ∧ c.toNat < 0x110000 := by
  rcases c.valid with hlow | ⟨hlow, hhigh⟩
  · exact .inl hlow
  · exact .inr ⟨hlow, hhigh⟩

/-! ## UTF-8 -/

/-- Two encodings that give each character of a text equally many symbols agree on the text
exactly if they agree on each of its characters. -/
theorem flatMap_eq_flatMap_iff {α β : Type*} {f g : α → List β} (text : List α)
    (hlength : ∀ x ∈ text, (f x).length = (g x).length) :
    text.flatMap f = text.flatMap g ↔ ∀ x ∈ text, f x = g x := by
  induction text with
  | nil => simp
  | cons x text ih =>
    obtain ⟨hx, htext⟩ := List.forall_mem_cons.mp hlength
    rw [List.flatMap_cons, List.flatMap_cons, List.forall_mem_cons, ← ih htext]
    constructor
    · intro heq
      exact List.append_inj heq hx
    · rintro ⟨hfirst, hrest⟩
      rw [hfirst, hrest]

end PsCast.Library
