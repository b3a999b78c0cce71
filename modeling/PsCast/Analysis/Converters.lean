import PsCast.Model.Utils
import PsCast.Library.Memory
import PsCast.Library.Unicode
import Mathlib.Data.UInt

/-!
# The two converters as functions on texts

One round of each loop in arithmetic instead of masks and shifts (`utf16to8Loop_round`,
`utf8To16Loop_round`), and from it what a conversion writes, as a function of the buffer
alone (`utf16to8_written`, `utf8To16_written`). The bounds and the encoding laws are proved
from these.
-/

set_option autoImplicit false

namespace PsCast.Utils

open Library

/-! ## What is written for the next character -/

/-- The bytes written for a unit that does not start a surrogate pair. -/
def unitBytes (u : UInt16) : List UInt8 :=
  if u.toNat < 0x80 then [u.toNat.toUInt8]
  else if u.toNat < 0x800 then [(0xC0 + u.toNat / 64).toUInt8, (0x80 + u.toNat % 64).toUInt8]
  else
    [(0xE0 + u.toNat / 4096).toUInt8, (0x80 + u.toNat / 64 % 64).toUInt8,
     (0x80 + u.toNat % 64).toUInt8]

/-- The bytes written for a surrogate pair. -/
def pairBytes (u v : UInt16) : List UInt8 :=
  [(0xF0 + (u.toNat + 64) / 256 % 4).toUInt8, (0x80 + (u.toNat / 4 + 16) % 64).toUInt8,
   (0x80 + (u.toNat / 256 % 4 * 16 + v.toNat * 4 % 16)).toUInt8, (0x80 + v.toNat % 64).toUInt8]

/-- The unit written for a lead byte with one byte after it. -/
def unitOf₂ (b b₁ : UInt8) : UInt16 := (b.toNat % 32 * 64 + b₁.toNat % 64).toUInt16

/-- The unit written for a lead byte with two bytes after it. -/
def unitOf₃ (b b₁ b₂ : UInt8) : UInt16 :=
  (b.toNat % 16 * 4096 + b₁.toNat % 64 * 64 + b₂.toNat % 64).toUInt16

/-! ## The converters on a buffer -/

/-- What `utf16to8` writes before the terminator for a buffer of units, when the unit behind
the buffer is `beyond`. -/
def bytesOf (beyond : UInt16) : List UInt16 → List UInt8
  | [] => []
  | [u] =>
    if u = 0 then []
    else if Utf16.IsHigh u ∧ Utf16.IsLow beyond then pairBytes u beyond
    else unitBytes u
  | u :: v :: rest =>
    if u = 0 then []
    else if Utf16.IsHigh u ∧ Utf16.IsLow v then pairBytes u v ++ bytesOf beyond rest
    else unitBytes u ++ bytesOf beyond (v :: rest)

/-- What `utf8To16` writes before the terminator for a buffer of bytes. -/
def unitsOf : List UInt8 → List UInt16
  | [] => []
  | [b] => if b = 0 then [] else [b.toUInt16]
  | [b, b₁] =>
    if b = 0 then []
    else if 0xC0 ≤ b.toNat then [unitOf₂ b b₁]
    else b.toUInt16 :: unitsOf [b₁]
  | b :: b₁ :: b₂ :: rest =>
    if b = 0 then []
    else if 0xE0 ≤ b.toNat then unitOf₃ b b₁ b₂ :: unitsOf rest
    else if 0xC0 ≤ b.toNat then unitOf₂ b b₁ :: unitsOf (b₂ :: rest)
    else b.toUInt16 :: unitsOf (b₁ :: b₂ :: rest)

end PsCast.Utils

namespace PsCast.Analysis

open Library Utils

/-! ## One round in arithmetic -/

theorem u16_lt (u : UInt16) : u.toNat < 65536 := u.toNat_lt

theorem u8_lt (b : UInt8) : b.toNat < 256 := b.toNat_lt

theorem toNat_eq_zero_iff_u16 (u : UInt16) : u.toNat = 0 ↔ u = 0 := by
  rw [← UInt16.toNat_inj]
  rfl

theorem toNat_eq_zero_iff_u8 (b : UInt8) : b.toNat = 0 ↔ b = 0 := by
  rw [← UInt8.toNat_inj]
  rfl

/-- The classes of units that the loop tells apart. -/
theorem unit_classes (u : UInt16) :
    (u.toNat &&& 0xFF80 = 0 ↔ u.toNat < 0x80) ∧ (u.toNat &&& 0xF800 = 0 ↔ u.toNat < 0x800) ∧
      (u.toNat &&& 0xFC00 = 0xD800 ↔ Utf16.IsHigh u) ∧
      (u.toNat &&& 0xFC00 = 0xDC00 ↔ Utf16.IsLow u) := by
  have hu := u16_lt u
  have h₁ : u.toNat &&& 0xFF80 = u.toNat / 2 ^ 7 % 2 ^ 9 * 2 ^ 7 := and_field u.toNat 7 9
  have h₂ : u.toNat &&& 0xF800 = u.toNat / 2 ^ 11 % 2 ^ 5 * 2 ^ 11 := and_field u.toNat 11 5
  have h₃ : u.toNat &&& 0xFC00 = u.toNat / 2 ^ 10 % 2 ^ 6 * 2 ^ 10 := and_field u.toNat 10 6
  rw [h₁, h₂, h₃]
  unfold Utf16.IsHigh Utf16.IsLow
  omega

/-- The byte of the six lowest bits. -/
theorem low_six (x : ℕ) : (x &&& 0x3F) ||| 0x80 = 0x80 + x % 64 := by
  have hmask : x &&& 0x3F = x % 2 ^ 6 := Nat.and_two_pow_sub_one_eq_mod x 6
  rw [hmask]
  exact or_field (Nat.mod_lt x (by decide)) 2

/-- The first of two bytes. -/
theorem lead_two {x : ℕ} (hx : x < 0x800) : ((x >>> 6) &&& 0xFF) ||| 0xC0 = 0xC0 + x / 64 := by
  have hmask : x >>> 6 &&& 0xFF = (x >>> 6) % 2 ^ 8 := Nat.and_two_pow_sub_one_eq_mod _ 8
  have hfield : x / 64 % 2 ^ 8 = x / 64 := by omega
  rw [hmask, Nat.shiftRight_eq_div_pow, hfield]
  have hlt : x / 64 < 2 ^ 6 := by omega
  exact or_field hlt 3

/-- The first of three bytes. -/
theorem lead_three {x : ℕ} (hx : x < 65536) :
    ((x >>> 12) &&& 0xF) ||| 0xE0 = 0xE0 + x / 4096 := by
  have hmask : x >>> 12 &&& 0xF = (x >>> 12) % 2 ^ 4 := Nat.and_two_pow_sub_one_eq_mod _ 4
  have hfield : x / 4096 % 2 ^ 4 = x / 4096 := by omega
  rw [hmask, Nat.shiftRight_eq_div_pow, hfield]
  have hlt : x / 4096 < 2 ^ 4 := by omega
  exact or_field hlt 14

/-- The second of three bytes. -/
theorem middle_three (x : ℕ) : ((x >>> 6) &&& 0x3F) ||| 0x80 = 0x80 + x / 64 % 64 := by
  rw [low_six, Nat.shiftRight_eq_div_pow]

/-- The first of four bytes, from the high surrogate. -/
theorem lead_pair (x : ℕ) :
    (((x + 64) >>> 8) &&& 0x3) ||| 0xF0 = 0xF0 + (x + 64) / 256 % 4 := by
  have hmask : (x + 64) >>> 8 &&& 0x3 = ((x + 64) >>> 8) % 2 ^ 2 :=
    Nat.and_two_pow_sub_one_eq_mod _ 2
  rw [hmask, Nat.shiftRight_eq_div_pow]
  exact or_field (Nat.mod_lt _ (by decide)) 60

/-- The second of four bytes, from the high surrogate. -/
theorem second_pair (x : ℕ) :
    (((x >>> 2) + 16) &&& 0x3F) ||| 0x80 = 0x80 + (x / 4 + 16) % 64 := by
  rw [low_six, Nat.shiftRight_eq_div_pow]

/-- The third of four bytes, with the shifts of the code. -/
theorem third_pair (x y : ℕ) :
    ((x >>> 4) &&& 0x30) ||| 0x80 ||| ((y <<< 2) &&& 0xF) =
      0x80 + (x / 256 % 4 * 16 + y * 4 % 16) := by
  have hmid : x >>> 4 &&& 0x30 = (x >>> 4) / 2 ^ 4 % 2 ^ 2 * 2 ^ 4 := and_field _ 4 2
  have hlow : y <<< 2 &&& 0xF = (y <<< 2) % 2 ^ 4 := Nat.and_two_pow_sub_one_eq_mod _ 4
  have hdiv : x / 2 ^ 4 / 2 ^ 4 = x / 256 := by omega
  rw [hmid, hlow, Nat.shiftRight_eq_div_pow, Nat.shiftLeft_eq, hdiv]
  have hfield : x / 256 % 4 * 16 < 2 ^ 7 := by omega
  have hjoin : x / 256 % 2 ^ 2 * 2 ^ 4 ||| 0x80 = 2 ^ 4 * (8 + x / 256 % 4) := by
    have hor : x / 256 % 2 ^ 2 * 2 ^ 4 ||| 0x80 = 2 ^ 7 * 1 + x / 256 % 4 * 16 :=
      or_field hfield 1
    omega
  have hlt : y * 2 ^ 2 % 2 ^ 4 < 2 ^ 4 := Nat.mod_lt _ (by decide)
  rw [hjoin, Nat.or_comm, or_field hlt]
  omega

/-- **One round of `utf16to8`.** -/
theorem utf16to8Loop_round (src : ℕ → UInt16) {src_size i : ℕ} (hi : i < src_size) (fuel : ℕ) :
    utf16to8Loop src src_size (fuel + 1) i =
      if src i = 0 then { reads := [i], written := [0] }
      else if Utf16.IsHigh (src i) ∧ Utf16.IsLow (src (i + 1)) then
        (utf16to8Loop src src_size fuel (i + 2)).after [i, i + 1]
          (pairBytes (src i) (src (i + 1)))
      else
        (utf16to8Loop src src_size fuel (i + 1)).after
          (if Utf16.IsHigh (src i) then [i, i + 1] else [i]) (unitBytes (src i)) := by
  obtain ⟨hone, htwo, hhigh, -⟩ := unit_classes (src i)
  obtain ⟨-, -, -, hlow⟩ := unit_classes (src (i + 1))
  have hu := u16_lt (src i)
  rw [utf16to8Loop, if_pos hi]
  simp only [hone, htwo, hhigh, hlow, toNat_eq_zero_iff_u16]
  by_cases hzero : src i = 0
  · rw [if_pos hzero, if_pos hzero]
  · rw [if_neg hzero, if_neg hzero]
    by_cases hsmall : (src i).toNat < 0x80
    · have hno : ¬ Utf16.IsHigh (src i) := by
        unfold Utf16.IsHigh
        omega
      have hmask : (src i).toNat &&& 0xFF = (src i).toNat % 2 ^ 8 :=
        Nat.and_two_pow_sub_one_eq_mod _ 8
      have hbyte : (src i).toNat % 2 ^ 8 = (src i).toNat := by omega
      simp only [hsmall, if_true, hno, false_and, if_false, unitBytes, hmask, hbyte]
    · by_cases hmiddle : (src i).toNat < 0x800
      · have hno : ¬ Utf16.IsHigh (src i) := by
          unfold Utf16.IsHigh
          omega
        simp only [hsmall, hmiddle, if_true, hno, false_and, if_false, unitBytes, low_six,
          lead_two hmiddle]
      · simp only [hsmall, hmiddle, if_false, unitBytes, pairBytes, lead_pair, second_pair,
          third_pair, lead_three hu, middle_three]
        simp only [low_six]

/-- The loop stops behind the buffer. -/
theorem utf16to8Loop_end (src : ℕ → UInt16) {src_size i : ℕ} (hi : src_size ≤ i) (fuel : ℕ) :
    utf16to8Loop src src_size fuel i = { written := [0] } := by
  cases fuel with
  | zero => rfl
  | succ fuel => rw [utf16to8Loop, if_neg (Nat.not_lt.mpr hi)]

/-- The classes of bytes that the loop tells apart. -/
theorem byte_classes (b : UInt8) :
    (b.toNat &&& 0xE0 = 0xE0 ↔ 0xE0 ≤ b.toNat) ∧ (b.toNat &&& 0xC0 = 0xC0 ↔ 0xC0 ≤ b.toNat) := by
  have hb := u8_lt b
  have h₁ : b.toNat &&& 0xE0 = b.toNat / 2 ^ 5 % 2 ^ 3 * 2 ^ 5 := and_field b.toNat 5 3
  have h₂ : b.toNat &&& 0xC0 = b.toNat / 2 ^ 6 % 2 ^ 2 * 2 ^ 6 := and_field b.toNat 6 2
  rw [h₁, h₂]
  omega

/-- The unit of two bytes. -/
theorem two_fields (x y : ℕ) : ((x &&& 0x1F) <<< 6) ||| (y &&& 0x3F) = x % 32 * 64 + y % 64 := by
  have hx : x &&& 0x1F = x % 32 := Nat.and_two_pow_sub_one_eq_mod x 5
  have hy : y &&& 0x3F = y % 64 := Nat.and_two_pow_sub_one_eq_mod y 6
  have hshift : (x % 32) <<< 6 = x % 32 * 64 := Nat.shiftLeft_eq (x % 32) 6
  have hfield : y % 64 < 2 ^ 6 := Nat.mod_lt y (by decide)
  rw [hx, hy, ← hshift, ← Nat.shiftLeft_add_eq_or_of_lt hfield]

/-- The unit of three bytes. -/
theorem three_fields (x y z : ℕ) :
    ((x &&& 0x0F) <<< 12) ||| ((y &&& 0x3F) <<< 6) ||| (z &&& 0x3F) =
      x % 16 * 4096 + y % 64 * 64 + z % 64 := by
  have hx : x &&& 0x0F = x % 2 ^ 4 := Nat.and_two_pow_sub_one_eq_mod x 4
  have hy : y &&& 0x3F = y % 2 ^ 6 := Nat.and_two_pow_sub_one_eq_mod y 6
  have hz : z &&& 0x3F = z % 2 ^ 6 := Nat.and_two_pow_sub_one_eq_mod z 6
  have hmiddle : (y % 2 ^ 6) <<< 6 < 2 ^ 12 := by
    rw [Nat.shiftLeft_eq]
    omega
  have htop : (x % 2 ^ 4) <<< 12 + (y % 2 ^ 6) <<< 6 = (x % 2 ^ 4 * 2 ^ 6 + y % 2 ^ 6) <<< 6 := by
    simp only [Nat.shiftLeft_eq]
    omega
  rw [hx, hy, hz, ← Nat.shiftLeft_add_eq_or_of_lt hmiddle, htop,
    ← Nat.shiftLeft_add_eq_or_of_lt (Nat.mod_lt z (by decide)), Nat.shiftLeft_eq]
  omega

/-- **One round of `utf8To16`.** -/
theorem utf8To16Loop_round (src : ℕ → UInt8) {src_size i : ℕ} (hi : i < src_size) (fuel : ℕ) :
    utf8To16Loop src src_size (fuel + 1) i =
      if src i = 0 then { reads := [i], written := [0] }
      else if 0xE0 ≤ (src i).toNat ∧ i + 2 < src_size then
        (utf8To16Loop src src_size fuel (i + 3)).after [i, i + 1, i + 2]
          [unitOf₃ (src i) (src (i + 1)) (src (i + 2))]
      else if 0xC0 ≤ (src i).toNat ∧ i + 1 < src_size then
        (utf8To16Loop src src_size fuel (i + 2)).after [i, i + 1] [unitOf₂ (src i) (src (i + 1))]
      else (utf8To16Loop src src_size fuel (i + 1)).after [i] [(src i).toUInt16] := by
  obtain ⟨hthree, htwo⟩ := byte_classes (src i)
  have hleft₂ : src_size - i > 2 ↔ i + 2 < src_size := by omega
  have hleft₁ : src_size - i > 1 ↔ i + 1 < src_size := by omega
  rw [utf8To16Loop, if_pos hi]
  simp only [hthree, htwo, hleft₁, hleft₂, toNat_eq_zero_iff_u8, two_fields, three_fields,
    unitOf₂, unitOf₃]

/-- At the end of the source only the terminator is left. -/
theorem utf8To16Loop_end (src : ℕ → UInt8) {src_size i : ℕ} (hi : src_size ≤ i) (fuel : ℕ) :
    utf8To16Loop src src_size fuel i = { written := [0] } := by
  cases fuel with
  | zero => rfl
  | succ fuel => rw [utf8To16Loop, if_neg (Nat.not_lt.mpr hi)]

/-! ## What a conversion writes -/

theorem written_after (c : Conversion) (reads : List ℕ) (written : List UInt8) :
    (c.after reads written).written = written ++ c.written := rfl

theorem written_after_wide (c : WideConversion) (reads : List ℕ) (written : List UInt16) :
    (c.after reads written).written = written ++ c.written := rfl

/-- From index `i` on, with `left` units left in the buffer. -/
theorem utf16to8Loop_written (src : ℕ → UInt16) (src_size left : ℕ) {fuel i : ℕ}
    (hleft : i + left = src_size) (hfuel : left ≤ fuel) :
    (utf16to8Loop src src_size fuel i).written =
      bytesOf (src src_size) (cells src i left) ++ [0] := by
  induction fuel generalizing i left with
  | zero =>
    obtain rfl : left = 0 := by omega
    rfl
  | succ fuel ih =>
    rcases left with _ | _ | left
    · rw [utf16to8Loop_end src (by omega)]
      rfl
    -- the last unit: a pair would take the unit behind the buffer
    · have hnext : i + 1 = src_size := by omega
      rw [utf16to8Loop_round src (by omega), cells_succ, cells_zero, bytesOf, hnext]
      split
      · rfl
      · rw [utf16to8Loop_end src (by omega), utf16to8Loop_end src le_rfl]
        split <;> rfl
    · rw [utf16to8Loop_round src (by omega), cells_succ, cells_succ, bytesOf]
      split
      · rfl
      · split
        · rw [written_after, ih left (by omega) (by omega), List.append_assoc]
        · rw [written_after, ih (left + 1) (by omega) (by omega), cells_succ,
            List.append_assoc]

/-- **What `utf16to8` writes**, when the destination is not refused. -/
theorem utf16to8_written (src : ℕ → UInt16) {src_size dst_size : ℕ}
    (hdst : src_size / 2 ≤ dst_size) :
    (utf16to8 src src_size dst_size).written =
      bytesOf (src src_size) (cells src 0 src_size) ++ [0] := by
  rw [utf16to8, if_neg (Nat.not_lt.mpr hdst)]
  exact utf16to8Loop_written src src_size src_size (Nat.zero_add _) le_rfl

/-- Where the destination is refused, nothing is written. -/
theorem utf16to8_refused (src : ℕ → UInt16) {src_size dst_size : ℕ}
    (hdst : ¬ src_size / 2 ≤ dst_size) : (utf16to8 src src_size dst_size).written = [] := by
  rw [utf16to8, if_pos (Nat.not_le.mp hdst)]

/-- The loop writes the units of the cells that are left, and the terminator. -/
theorem utf8To16Loop_written (src : ℕ → UInt8) (src_size left : ℕ) {fuel i : ℕ}
    (hleft : i + left = src_size) (hfuel : left ≤ fuel) :
    (utf8To16Loop src src_size fuel i).written = unitsOf (cells src i left) ++ [0] := by
  induction fuel generalizing i left with
  | zero =>
    obtain rfl : left = 0 := by omega
    rfl
  | succ fuel ih =>
    rcases left with _ | _ | _ | left
    · rw [utf8To16Loop_end src (by omega)]
      rfl
    · have h₁ : ¬ i + 1 < src_size := by omega
      have h₂ : ¬ i + 2 < src_size := by omega
      rw [utf8To16Loop_round src (by omega), cells_succ, cells_zero, unitsOf]
      simp only [h₁, h₂, and_false, if_false]
      split
      · rfl
      · rw [written_after_wide, utf8To16Loop_end src (by omega)]
    · have h₁ : i + 1 < src_size := by omega
      have h₂ : ¬ i + 2 < src_size := by omega
      rw [utf8To16Loop_round src (by omega), cells_succ, cells_succ, cells_zero, unitsOf]
      simp only [h₁, h₂, and_true, and_false, if_false]
      split
      · rfl
      · split
        · rw [written_after_wide, utf8To16Loop_end src (by omega)]
        · rw [written_after_wide, ih 1 (by omega) (by omega)]
          rfl
    · have h₁ : i + 1 < src_size := by omega
      have h₂ : i + 2 < src_size := by omega
      rw [utf8To16Loop_round src (by omega), cells_succ, cells_succ, cells_succ, unitsOf]
      simp only [h₁, h₂, and_true]
      split
      · rfl
      · split
        · rw [written_after_wide, ih left (by omega) (by omega)]
          rfl
        · split
          · rw [written_after_wide, ih (left + 1) (by omega) (by omega), cells_succ]
            rfl
          · rw [written_after_wide, ih (left + 2) (by omega) (by omega), cells_succ,
              cells_succ]
            rfl

/-- A destination of two bytes for each byte of the source is not refused: the product that the
check compares it with can only be smaller. -/
theorem passes_of_le {src_size dst_size : ℕ} (hdst : 2 * src_size ≤ dst_size) :
    src_size * 2 % UInt32.size ≤ dst_size := by
  have hmod := Nat.mod_le (src_size * 2) UInt32.size
  omega

/-- **What `utf8To16` writes**, when the destination is not refused. -/
theorem utf8To16_written (src : ℕ → UInt8) {src_size dst_size : ℕ}
    (hdst : src_size * 2 % UInt32.size ≤ dst_size) :
    (utf8To16 src src_size dst_size).written = unitsOf (cells src 0 src_size) ++ [0] := by
  rw [utf8To16, if_neg (Nat.not_lt.mpr hdst)]
  exact utf8To16Loop_written src src_size src_size (Nat.zero_add _) le_rfl

/-- Where the destination is refused, nothing is written. -/
theorem utf8To16_refused (src : ℕ → UInt8) {src_size dst_size : ℕ}
    (hdst : ¬ src_size * 2 % UInt32.size ≤ dst_size) :
    (utf8To16 src src_size dst_size).written = [] := by
  rw [utf8To16, if_pos (Nat.not_le.mp hdst)]

end PsCast.Analysis
