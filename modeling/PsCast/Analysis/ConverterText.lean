import PsCast.Analysis.Converters

/-!
# The converters and the standard encodings

On a text of Unicode scalar values each converter is compared with the standard encoding
character by character. Below 0x10000 both are right. Above it `utf16to8` takes two of the
bits of a pair from the wrong place and drops one (`utf16to8_utf8_iff`), and `utf8To16` has
no branch for four bytes (`utf8To16_utf16_iff`). On texts without pairs the two are inverse
to each other, lone surrogates included.
-/

set_option autoImplicit false

namespace PsCast

open Library Utils

/-- The two bits of `c` that `utf16to8` computes from others agree with them, and the plane of
`c` fits the two bits kept of it: with the surrogates `0xD800 + h` and `0xDC00 + l` of `c`,
the fields of `h` and `l` that are swapped are equal. -/
def Utils.PairKept (c : Char) : Prop :=
  (c.toNat - 0x10000) / 1024 < 960 ∧
    (c.toNat - 0x10000) / 1024 / 256 = (c.toNat - 0x10000) / 1024 % 4 ∧
    (c.toNat - 0x10000) % 1024 / 64 = 4 * ((c.toNat - 0x10000) % 4)

namespace Analysis

/-! ## Single units -/

/-- A number of sixteen bits fits a unit. -/
theorem toNat_toUInt16 {n : ℕ} (h : n < 65536) : n.toUInt16.toNat = n := by
  simpa using Nat.mod_eq_of_lt h

/-- A number of eight bits fits a byte. -/
theorem toNat_toUInt8 {n : ℕ} (h : n < 256) : n.toUInt8.toNat = n := by
  simpa using Nat.mod_eq_of_lt h

/-- Numbers of eight bits are told apart by their bytes. -/
theorem toUInt8_eq_iff {m n : ℕ} (hm : m < 256) (hn : n < 256) :
    m.toUInt8 = UInt8.ofNat n ↔ m = n := by
  rw [← UInt8.toNat_inj, toNat_toUInt8 hm, UInt8.toNat_ofNat', Nat.mod_eq_of_lt hn]

/-- The unit of a scalar value below 0x10000. -/
theorem encodeChar_unit {c : Char} (hc : c.toNat < 0x10000) (hnul : c.toNat ≠ 0) :
    ∃ u, Utf16.encodeChar c = [u] ∧ u.toNat = c.toNat ∧ u ≠ 0 ∧ ¬ Utf16.IsHigh u := by
  have hval : c.toNat.toUInt16.toNat = c.toNat := toNat_toUInt16 hc
  refine ⟨c.toNat.toUInt16, if_pos hc, hval, ?_, ?_⟩
  · rw [Ne, ← toNat_eq_zero_iff_u16, hval]
    exact hnul
  · have hscalar := scalar_cases c
    unfold Utf16.IsHigh
    omega

/-- The surrogates of a scalar value from 0x10000 on. -/
theorem encodeChar_pair {c : Char} (hc : 0x10000 ≤ c.toNat) :
    ∃ u v, Utf16.encodeChar c = [u, v] ∧ u.toNat = 0xD800 + (c.toNat - 0x10000) / 1024 ∧
      v.toNat = 0xDC00 + (c.toNat - 0x10000) % 1024 ∧ Utf16.IsHigh u ∧ Utf16.IsLow v := by
  have hscalar := scalar_cases c
  have hu : (0xD800 + (c.toNat - 0x10000) / 1024).toUInt16.toNat =
      0xD800 + (c.toNat - 0x10000) / 1024 := toNat_toUInt16 (by omega)
  have hv : (0xDC00 + (c.toNat - 0x10000) % 1024).toUInt16.toNat =
      0xDC00 + (c.toNat - 0x10000) % 1024 := toNat_toUInt16 (by omega)
  refine ⟨_, _, if_neg (Nat.not_lt.mpr hc), hu, hv, ?_, ?_⟩
  · unfold Utf16.IsHigh
    omega
  · unfold Utf16.IsLow
    omega

/-- The four bytes of a scalar value from 0x10000 on. -/
theorem utf8EncodeChar_four {c : Char} (hc : 0x10000 ≤ c.toNat) :
    String.utf8EncodeChar c =
      [UInt8.ofNat (c.toNat / 262144 % 8 + 0xF0), UInt8.ofNat (c.toNat / 4096 % 64 + 0x80),
       UInt8.ofNat (c.toNat / 64 % 64 + 0x80), UInt8.ofNat (c.toNat % 64 + 0x80)] := by
  have hval : c.val.toNat = c.toNat := rfl
  have h₁ : ¬ c.toNat ≤ 0x7F := by omega
  have h₂ : ¬ c.toNat ≤ 0x7FF := by omega
  have h₃ : ¬ c.toNat ≤ 0xFFFF := by omega
  simp only [String.utf8EncodeChar, hval, h₁, h₂, h₃, if_false]

/-! ## From UTF-16 to UTF-8 -/

/-- A zero ends the conversion. -/
theorem bytesOf_stop {beyond : UInt16} {rest : List UInt16} (h : rest.headD beyond = 0) :
    bytesOf beyond rest = [] := by
  cases rest with
  | nil => rfl
  | cons u rest =>
    obtain rfl : u = 0 := h
    cases rest <;> rfl

/-- A unit that begins no pair is written for itself. -/
theorem bytesOf_unit {beyond u : UInt16} {rest : List UInt16} (hu : u ≠ 0)
    (hpair : ¬ (Utf16.IsHigh u ∧ Utf16.IsLow (rest.headD beyond))) :
    bytesOf beyond (u :: rest) = unitBytes u ++ bytesOf beyond rest := by
  cases rest with
  | nil =>
    have hbeyond : ¬ (Utf16.IsHigh u ∧ Utf16.IsLow beyond) := hpair
    simp only [bytesOf, hu, hbeyond, if_false, List.append_nil]
  | cons v rest =>
    have hnext : ¬ (Utf16.IsHigh u ∧ Utf16.IsLow v) := hpair
    simp only [bytesOf, hu, hnext, if_false]

/-- A pair is written in four bytes. -/
theorem bytesOf_pair {beyond u v : UInt16} (hu : Utf16.IsHigh u) (hv : Utf16.IsLow v)
    (rest : List UInt16) :
    bytesOf beyond (u :: v :: rest) = pairBytes u v ++ bytesOf beyond rest := by
  have hu₀ : u ≠ 0 := by
    rintro rfl
    exact absurd hu (by decide)
  rw [bytesOf, if_neg hu₀, if_pos ⟨hu, hv⟩]

/-- What `utf16to8` writes for a scalar value. -/
def writtenBytes (c : Char) : List UInt8 :=
  match Utf16.encodeChar c with
  | [u] => unitBytes u
  | [u, v] => pairBytes u v
  | _ => []

/-- A text is written character by character. -/
theorem bytesOf_text (beyond : UInt16) {text : List Char} (hnul : ∀ c ∈ text, c.toNat ≠ 0)
    {rest : List UInt16} (hstop : rest.headD beyond = 0) :
    bytesOf beyond (text.flatMap Utf16.encodeChar ++ rest) = text.flatMap writtenBytes := by
  induction text with
  | nil => exact bytesOf_stop hstop
  | cons c text ih =>
    obtain ⟨hc, htext⟩ := List.forall_mem_cons.mp hnul
    rw [List.flatMap_cons, List.flatMap_cons, List.append_assoc, ← ih htext, writtenBytes]
    rcases Nat.lt_or_ge c.toNat 0x10000 with hlt | hge
    · obtain ⟨u, hencode, -, hu, hhigh⟩ := encodeChar_unit hlt hc
      rw [hencode]
      exact bytesOf_unit hu fun hpair => hhigh hpair.1
    · obtain ⟨u, v, hencode, -, -, hhigh, hlow⟩ := encodeChar_pair hge
      rw [hencode]
      exact bytesOf_pair hhigh hlow _

/-- A character of one unit is written in UTF-8. -/
theorem writtenBytes_unit {c : Char} (hc : c.toNat < 0x10000) (hnul : c.toNat ≠ 0) :
    writtenBytes c = String.utf8EncodeChar c := by
  obtain ⟨u, hencode, hu, -, -⟩ := encodeChar_unit hc hnul
  have hval : c.val.toNat = c.toNat := rfl
  rw [writtenBytes, hencode]
  simp only [unitBytes, String.utf8EncodeChar, hu, hval]
  by_cases hone : c.toNat < 0x80
  · have hle : c.toNat ≤ 0x7F := by omega
    rw [if_pos hone, if_pos hle]
  · have hgt : ¬ c.toNat ≤ 0x7F := by omega
    rw [if_neg hone, if_neg hgt]
    by_cases htwo : c.toNat < 0x800
    · have hle : c.toNat ≤ 0x7FF := by omega
      simp only [htwo, hle, if_true, List.cons.injEq, and_true]
      rw [toUInt8_eq_iff (by omega) (by omega), toUInt8_eq_iff (by omega) (by omega)]
      omega
    · have hgt' : ¬ c.toNat ≤ 0x7FF := by omega
      have hle : c.toNat ≤ 0xFFFF := by omega
      simp only [htwo, hgt', hle, if_true, if_false, List.cons.injEq, and_true]
      rw [toUInt8_eq_iff (by omega) (by omega), toUInt8_eq_iff (by omega) (by omega),
        toUInt8_eq_iff (by omega) (by omega)]
      omega

/-- The fields of a scalar value in terms of its two surrogates. -/
theorem pair_fields {c h l : ℕ} (hc : c = 0x10000 + 1024 * h + l) (hh : h < 1024)
    (hl : l < 1024) :
    c / 262144 % 8 = (h + 64) / 256 ∧ c / 4096 % 64 = (h / 4 + 16) % 64 ∧
      c / 64 % 64 = h % 4 * 16 + l / 64 ∧ c % 64 = l % 64 := by
  omega

/-- The fields that the loop reads off the two surrogates. -/
theorem surrogate_fields {h : ℕ} (hh : h < 1024) (l : ℕ) :
    (0xD800 + h + 64) / 256 % 4 = (h + 64) / 256 % 4 ∧
      ((0xD800 + h) / 4 + 16) % 64 = (h / 4 + 16) % 64 ∧ (0xD800 + h) / 256 % 4 = h / 256 ∧
      (0xDC00 + l) * 4 % 16 = 4 * (l % 4) ∧ (0xDC00 + l) % 64 = l % 64 := by
  omega

/-- A character of two units is written in UTF-8 exactly if its pair is kept. -/
theorem writtenBytes_pair {c : Char} (hc : 0x10000 ≤ c.toNat) :
    writtenBytes c = String.utf8EncodeChar c ↔ PairKept c := by
  obtain ⟨u, v, hencode, hu, hv, -, -⟩ := encodeChar_pair hc
  have hscalar := scalar_cases c
  obtain ⟨h, l, hsplit, hh, hl⟩ : ∃ h l, c.toNat = 0x10000 + 1024 * h + l ∧ h < 1024 ∧ l < 1024 :=
    ⟨(c.toNat - 0x10000) / 1024, (c.toNat - 0x10000) % 1024, by omega, by omega, by omega⟩
  have hhigh : (c.toNat - 0x10000) / 1024 = h := by omega
  have hlow : (c.toNat - 0x10000) % 1024 = l := by omega
  have hlow₄ : (c.toNat - 0x10000) % 4 = l % 4 := by omega
  obtain ⟨hf₁, hf₂, hf₃, hf₄⟩ := pair_fields hsplit hh hl
  obtain ⟨hs₁, hs₂, hs₃, hs₄, hs₅⟩ := surrogate_fields hh l
  rw [writtenBytes, hencode, utf8EncodeChar_four hc]
  simp only [pairBytes, hu, hv, List.cons.injEq, and_true, PairKept, hhigh, hlow, hlow₄, hf₁, hf₂,
    hf₃, hf₄, hs₁, hs₂, hs₃, hs₄, hs₅]
  rw [toUInt8_eq_iff (by omega) (by omega), toUInt8_eq_iff (by omega) (by omega),
    toUInt8_eq_iff (by omega) (by omega), toUInt8_eq_iff (by omega) (by omega)]
  omega

/-- What is written of a character has the length of its UTF-8 encoding. -/
theorem length_writtenBytes {c : Char} (hnul : c.toNat ≠ 0) :
    (writtenBytes c).length = (String.utf8EncodeChar c).length := by
  rcases Nat.lt_or_ge c.toNat 0x10000 with hlt | hge
  · rw [writtenBytes_unit hlt hnul]
  · obtain ⟨u, v, hencode, -⟩ := encodeChar_pair hge
    rw [writtenBytes, hencode, utf8EncodeChar_four hge]
    rfl

/-- The characters of a text are written in UTF-8 exactly if the pairs among them are kept. -/
theorem flatMap_writtenBytes_iff {text : List Char} (hnul : ∀ c ∈ text, c.toNat ≠ 0) :
    text.flatMap writtenBytes = text.flatMap String.utf8EncodeChar ↔
      ∀ c ∈ text, 0x10000 ≤ c.toNat → PairKept c := by
  rw [flatMap_eq_flatMap_iff text fun c hc => length_writtenBytes (hnul c hc)]
  constructor
  · intro h c hc hge
    exact (writtenBytes_pair hge).mp (h c hc)
  · intro h c hc
    rcases Nat.lt_or_ge c.toNat 0x10000 with hlt | hge
    · exact writtenBytes_unit hlt (hnul c hc)
    · exact (writtenBytes_pair hge).mpr (h c hc hge)

/-- A text given NUL-terminated is converted to its UTF-8 encoding exactly when the destination
passes the check and the bits that the loop computes from others agree with them in each
character above 0xFFFF. -/
theorem utf16to8_utf8_iff (text : List Char) (hnul : ∀ c ∈ text, c.toNat ≠ 0)
    (src : ℕ → UInt16) (src_size dst_size : ℕ)
    (hsrc : Holds src src_size (text.flatMap Utf16.encodeChar))
    (hend : src (text.flatMap Utf16.encodeChar).length = 0) :
    (utf16to8 src src_size dst_size).written = text.flatMap String.utf8EncodeChar ++ [0] ↔
      src_size / 2 ≤ dst_size ∧ ∀ c ∈ text, 0x10000 ≤ c.toNat → PairKept c := by
  by_cases hdst : src_size / 2 ≤ dst_size
  · obtain ⟨rest, hcells, hstop⟩ := hsrc.cells_eq_terminated hend
    rw [and_iff_right hdst, utf16to8_written src hdst, hcells, bytesOf_text _ hnul hstop,
      List.append_left_inj]
    exact flatMap_writtenBytes_iff hnul
  · rw [utf16to8_refused src hdst]
    exact iff_of_false (List.append_ne_nil_of_right_ne_nil _ (List.cons_ne_nil _ _)).symm
      fun h => hdst h.1

/-- A euro sign, and U+10101, whose surrogates have the bits that they are taken from. -/
theorem utf16to8_utf8_kept :
    (utf16to8 (fun i => [0x20AC, 0xD800, 0xDD01].getD i 0) 3 8).written =
      [Char.ofNat 0x20AC, Char.ofNat 0x10101].flatMap String.utf8EncodeChar ++ [0] := by
  have htext : [Char.ofNat 0x20AC, Char.ofNat 0x10101].flatMap Utf16.encodeChar =
      [0x20AC, 0xD800, 0xDD01] := by decide
  have hnul : ∀ c ∈ [Char.ofNat 0x20AC, Char.ofNat 0x10101], c.toNat ≠ 0 := by
    rw [List.forall_mem_cons, List.forall_mem_singleton]
    decide
  have hkept : ∀ c ∈ [Char.ofNat 0x20AC, Char.ofNat 0x10101], 0x10000 ≤ c.toNat → PairKept c := by
    rw [List.forall_mem_cons, List.forall_mem_singleton]
    unfold PairKept
    decide
  exact (utf16to8_utf8_iff _ hnul (fun i => [0x20AC, 0xD800, 0xDD01].getD i 0) 3 8
    (htext.symm ▸ holds_getD [0x20AC, 0xD800, 0xDD01]) (htext.symm ▸ rfl)).mpr
      ⟨by decide, hkept⟩

/-- The third of the four bytes of U+1F600 is wrong. -/
theorem not_utf16to8_utf8 :
    ¬ (∀ (text : List Char) (src : ℕ → UInt16) (src_size dst_size : ℕ),
      (∀ c ∈ text, c.toNat ≠ 0) → Holds src src_size (text.flatMap Utf16.encodeChar) →
      src (text.flatMap Utf16.encodeChar).length = 0 → src_size / 2 ≤ dst_size →
      (utf16to8 src src_size dst_size).written = text.flatMap String.utf8EncodeChar ++ [0]) := by
  intro h
  have htext : [Char.ofNat 0x1F600].flatMap Utf16.encodeChar = [0xD83D, 0xDE00] := by decide
  have hwritten := h [Char.ofNat 0x1F600] (fun i => [0xD83D, 0xDE00].getD i 0) 2 5
    (List.forall_mem_singleton.mpr (by decide)) (htext.symm ▸ holds_getD [0xD83D, 0xDE00])
    (htext.symm ▸ rfl) (by decide)
  exact absurd hwritten (by decide)

/-! ## From UTF-8 to UTF-16 -/

/-- A byte below 0xC0 is a unit of its own. -/
theorem unitsOf_one {b : UInt8} (hb : b ≠ 0) (hlead : b.toNat < 0xC0) (rest : List UInt8) :
    unitsOf (b :: rest) = b.toUInt16 :: unitsOf rest := by
  have htwo : ¬ 0xC0 ≤ b.toNat := by omega
  have hthree : ¬ 0xE0 ≤ b.toNat := by omega
  rcases rest with _ | ⟨b₁, _ | ⟨b₂, rest⟩⟩
  · simp only [unitsOf, hb, if_false]
  · simp only [unitsOf, hb, htwo, if_false]
  · simp only [unitsOf, hb, htwo, hthree, if_false]

/-- A byte of the two-byte class takes the next one with it. -/
theorem unitsOf_two {b : UInt8} (hlead : 0xC0 ≤ b.toNat) (hthree : b.toNat < 0xE0) (b₁ : UInt8)
    (rest : List UInt8) : unitsOf (b :: b₁ :: rest) = unitOf₂ b b₁ :: unitsOf rest := by
  have hb : b ≠ 0 := by
    rintro rfl
    exact absurd hlead (by decide)
  have hnot : ¬ 0xE0 ≤ b.toNat := by omega
  cases rest with
  | nil => simp only [unitsOf, hb, hlead, if_true, if_false]
  | cons b₂ rest => simp only [unitsOf, hb, hlead, hnot, if_true, if_false]

/-- Any byte from 0xE0 on takes the next two with it. -/
theorem unitsOf_three {b : UInt8} (hlead : 0xE0 ≤ b.toNat) (b₁ b₂ : UInt8) (rest : List UInt8) :
    unitsOf (b :: b₁ :: b₂ :: rest) = unitOf₃ b b₁ b₂ :: unitsOf rest := by
  have hb : b ≠ 0 := by
    rintro rfl
    exact absurd hlead (by decide)
  simp only [unitsOf, hb, hlead, if_true, if_false]

/-- The end of the source or a zero ends the conversion. -/
theorem unitsOf_stop {rest : List UInt8} (h : rest = [] ∨ rest.head? = some 0) :
    unitsOf rest = [] := by
  rcases h with rfl | h
  · rfl
  · obtain ⟨rest', rfl⟩ := List.head?_eq_some_iff.mp h
    rcases rest' with _ | ⟨b₁, _ | ⟨b₂, rest'⟩⟩ <;> rfl

/-- **The bytes of a unit are read back as that unit**, a lone surrogate included. -/
theorem unitsOf_unitBytes {u : UInt16} (hu : u ≠ 0) (rest : List UInt8) :
    unitsOf (unitBytes u ++ rest) = u :: unitsOf rest := by
  have hlt := u16_lt u
  unfold unitBytes
  by_cases hone : u.toNat < 0x80
  · have hval : u.toNat.toUInt8.toNat = u.toNat := toNat_toUInt8 (by omega)
    have hb : u.toNat.toUInt8 ≠ 0 := by
      rw [Ne, ← toNat_eq_zero_iff_u8, hval, toNat_eq_zero_iff_u16]
      exact hu
    rw [if_pos hone, List.cons_append, List.nil_append, unitsOf_one hb (by omega)]
    congr 1
    rw [← UInt16.toNat_inj]
    simpa using hval
  · rw [if_neg hone]
    by_cases htwo : u.toNat < 0x800
    · have hval : (0xC0 + u.toNat / 64).toUInt8.toNat = 0xC0 + u.toNat / 64 :=
        toNat_toUInt8 (by omega)
      have hval₁ : (0x80 + u.toNat % 64).toUInt8.toNat = 0x80 + u.toNat % 64 :=
        toNat_toUInt8 (by omega)
      rw [if_pos htwo, List.cons_append, List.cons_append, List.nil_append,
        unitsOf_two (by omega) (by omega), unitOf₂, hval, hval₁]
      congr 1
      have hjoin : (0xC0 + u.toNat / 64) % 32 * 64 + (0x80 + u.toNat % 64) % 64 = u.toNat := by
        omega
      rw [hjoin]
      exact UInt16.ofNat_toNat
    · have hval : (0xE0 + u.toNat / 4096).toUInt8.toNat = 0xE0 + u.toNat / 4096 :=
        toNat_toUInt8 (by omega)
      have hval₁ : (0x80 + u.toNat / 64 % 64).toUInt8.toNat = 0x80 + u.toNat / 64 % 64 :=
        toNat_toUInt8 (by omega)
      have hval₂ : (0x80 + u.toNat % 64).toUInt8.toNat = 0x80 + u.toNat % 64 :=
        toNat_toUInt8 (by omega)
      rw [if_neg htwo, List.cons_append, List.cons_append, List.cons_append, List.nil_append,
        unitsOf_three (by omega), unitOf₃, hval, hval₁, hval₂]
      congr 1
      have hjoin : (0xE0 + u.toNat / 4096) % 16 * 4096 + (0x80 + u.toNat / 64 % 64) % 64 * 64 +
          (0x80 + u.toNat % 64) % 64 = u.toNat := by
        omega
      rw [hjoin]
      exact UInt16.ofNat_toNat

/-- The first of four bytes satisfies the mask for three bytes, and the last one is then taken
alone. -/
theorem four_bytes {c : Char} (hc : 0x10000 ≤ c.toNat) :
    ∃ b b₁ b₂ b₃, String.utf8EncodeChar c = [b, b₁, b₂, b₃] ∧ 0xE0 ≤ b.toNat ∧
      b₃ ≠ 0 ∧ b₃.toNat < 0xC0 := by
  have hlead : (UInt8.ofNat (c.toNat / 262144 % 8 + 0xF0)).toNat = c.toNat / 262144 % 8 + 0xF0 :=
    toNat_toUInt8 (by omega)
  have hlast : (UInt8.ofNat (c.toNat % 64 + 0x80)).toNat = c.toNat % 64 + 0x80 :=
    toNat_toUInt8 (by omega)
  refine ⟨_, _, _, _, utf8EncodeChar_four hc, ?_, ?_, ?_⟩
  · rw [hlead]
    omega
  · rw [Ne, ← toNat_eq_zero_iff_u8, hlast]
    omega
  · rw [hlast]
    omega

/-- What `utf8To16` writes for a scalar value. -/
def writtenUnits (c : Char) : List UInt16 := unitsOf (String.utf8EncodeChar c)

/-- What the bytes of a character are converted to. -/
theorem unitsOf_char {c : Char} (hnul : c.toNat ≠ 0) (rest : List UInt8) :
    unitsOf (String.utf8EncodeChar c ++ rest) = writtenUnits c ++ unitsOf rest := by
  unfold writtenUnits
  rcases Nat.lt_or_ge c.toNat 0x10000 with hlt | hge
  · obtain ⟨u, hencode, -, hu, -⟩ := encodeChar_unit hlt hnul
    have hbytes : String.utf8EncodeChar c = unitBytes u := by
      rw [← writtenBytes_unit hlt hnul, writtenBytes, hencode]
    have halone := unitsOf_unitBytes hu []
    rw [List.append_nil] at halone
    rw [hbytes, unitsOf_unitBytes hu, halone]
    rfl
  · obtain ⟨b, b₁, b₂, b₃, hbytes, hlead, hb₃, hlast⟩ := four_bytes hge
    rw [hbytes, List.cons_append, List.cons_append, List.cons_append, List.cons_append,
      List.nil_append, unitsOf_three hlead, unitsOf_three hlead, unitsOf_one hb₃ hlast,
      unitsOf_one hb₃ hlast]
    rfl

/-- A text is converted character by character. -/
theorem unitsOf_text {text : List Char} (hnul : ∀ c ∈ text, c.toNat ≠ 0) {rest : List UInt8}
    (hstop : rest = [] ∨ rest.head? = some 0) :
    unitsOf (text.flatMap String.utf8EncodeChar ++ rest) = text.flatMap writtenUnits := by
  induction text with
  | nil => exact unitsOf_stop hstop
  | cons c text ih =>
    obtain ⟨hc, htext⟩ := List.forall_mem_cons.mp hnul
    rw [List.flatMap_cons, List.flatMap_cons, List.append_assoc, unitsOf_char hc, ih htext]

/-- A character of one unit is converted to that unit. -/
theorem writtenUnits_unit {c : Char} (hc : c.toNat < 0x10000) (hnul : c.toNat ≠ 0) :
    writtenUnits c = Utf16.encodeChar c := by
  obtain ⟨u, hencode, -, hu, -⟩ := encodeChar_unit hc hnul
  have halone := unitsOf_unitBytes hu []
  rw [List.append_nil] at halone
  rw [writtenUnits, ← writtenBytes_unit hc hnul, writtenBytes, hencode, halone]
  rfl

/-- The last byte of four is written as a unit of its own, which is no surrogate. -/
theorem writtenUnits_pair {c : Char} (hc : 0x10000 ≤ c.toNat) :
    writtenUnits c ≠ Utf16.encodeChar c ∧
      (writtenUnits c).length = (Utf16.encodeChar c).length := by
  obtain ⟨u, v, hencode, -, hv, -, -⟩ := encodeChar_pair hc
  obtain ⟨b, b₁, b₂, b₃, hbytes, hlead, hb₃, hlast⟩ := four_bytes hc
  have hwritten : writtenUnits c = [unitOf₃ b b₁ b₂, b₃.toUInt16] := by
    rw [writtenUnits, hbytes, unitsOf_three hlead, unitsOf_one hb₃ hlast]
    rfl
  rw [hwritten, hencode]
  refine ⟨?_, rfl⟩
  intro heq
  have hsecond : b₃.toUInt16 = v := by simpa using (List.cons.inj heq).2
  have hval : b₃.toNat = v.toNat := by
    rw [← hsecond]
    rfl
  omega

/-- The characters of a text are converted to UTF-16 exactly if none of them takes four bytes. -/
theorem flatMap_writtenUnits_iff {text : List Char} (hnul : ∀ c ∈ text, c.toNat ≠ 0) :
    text.flatMap writtenUnits = text.flatMap Utf16.encodeChar ↔
      ∀ c ∈ text, c.toNat < 0x10000 := by
  have hlength : ∀ c ∈ text, (writtenUnits c).length = (Utf16.encodeChar c).length := by
    intro c hc
    rcases Nat.lt_or_ge c.toNat 0x10000 with hlt | hge
    · rw [writtenUnits_unit hlt (hnul c hc)]
    · exact (writtenUnits_pair hge).2
  rw [flatMap_eq_flatMap_iff text hlength]
  constructor
  · intro h c hc
    by_contra hge
    exact (writtenUnits_pair (Nat.not_lt.mp hge)).1 (h c hc)
  · intro h c hc
    exact writtenUnits_unit (h c hc) (hnul c hc)

/-- A text is converted to its UTF-16 encoding exactly when the destination passes the check, whose
product has 32 bits, and none of the characters takes four bytes. -/
theorem utf8To16_utf16_iff (text : List Char) (hnul : ∀ c ∈ text, c.toNat ≠ 0)
    (src : ℕ → UInt8) (src_size dst_size : ℕ)
    (hsrc : Holds src src_size (text.flatMap String.utf8EncodeChar)) :
    (utf8To16 src src_size dst_size).written = text.flatMap Utf16.encodeChar ++ [0] ↔
      src_size * 2 % UInt32.size ≤ dst_size ∧ ∀ c ∈ text, c.toNat < 0x10000 := by
  by_cases hdst : src_size * 2 % UInt32.size ≤ dst_size
  · obtain ⟨rest, hcells, hstop⟩ := hsrc.cells_eq
    rw [and_iff_right hdst, utf8To16_written src hdst, hcells, unitsOf_text hnul hstop,
      List.append_left_inj]
    exact flatMap_writtenUnits_iff hnul
  · rw [utf8To16_refused src hdst]
    exact iff_of_false (List.append_ne_nil_of_right_ne_nil _ (List.cons_ne_nil _ _)).symm
      fun h => hdst h.1

/-- A euro sign. -/
theorem utf8To16_utf16_euro :
    (utf8To16 (fun i => [0xE2, 0x82, 0xAC].getD i 0) 3 6).written =
        [Char.ofNat 0x20AC].flatMap Utf16.encodeChar ++ [0] ↔
      3 * 2 % UInt32.size ≤ 6 ∧ ∀ c ∈ [Char.ofNat 0x20AC], c.toNat < 0x10000 :=
  utf8To16_utf16_iff [Char.ofNat 0x20AC] (List.forall_mem_singleton.mpr (by decide))
    (fun i => [0xE2, 0x82, 0xAC].getD i 0) 3 6 (holds_getD [0xE2, 0x82, 0xAC])

/-- U+1F600 becomes a unit of its first three bytes and one of the fourth. -/
theorem not_utf8To16_utf16 :
    ¬ (∀ (text : List Char) (src : ℕ → UInt8) (src_size dst_size : ℕ),
      (∀ c ∈ text, c.toNat ≠ 0) → Holds src src_size (text.flatMap String.utf8EncodeChar) →
      2 * src_size ≤ dst_size →
      (utf8To16 src src_size dst_size).written = text.flatMap Utf16.encodeChar ++ [0]) := by
  intro h
  have htext : [Char.ofNat 0x1F600].flatMap String.utf8EncodeChar = [0xF0, 0x9F, 0x98, 0x80] := by
    decide
  have hwritten := h [Char.ofNat 0x1F600] (fun i => [0xF0, 0x9F, 0x98, 0x80].getD i 0) 4 8
    (List.forall_mem_singleton.mpr (by decide))
    (htext.symm ▸ holds_getD [0xF0, 0x9F, 0x98, 0x80]) (by decide)
  exact absurd hwritten (by decide)

/-! ## There and back -/

/-- Whenever `utf16to8` is given the units NUL-terminated and does not refuse its destination,
it writes the bytes and a terminator. -/
def Encodes (units : List UInt16) (bytes : List UInt8) : Prop :=
  ∀ (src : ℕ → UInt16) (src_size dst_size : ℕ), Holds src src_size units →
    src units.length = 0 → src_size / 2 ≤ dst_size →
    (utf16to8 src src_size dst_size).written = bytes ++ [0]

/-- Whenever `utf8To16` is given the bytes and does not refuse its destination, it writes the
units and a terminator. -/
def Decodes (bytes : List UInt8) (units : List UInt16) : Prop :=
  ∀ (src : ℕ → UInt8) (src_size dst_size : ℕ), Holds src src_size bytes →
    2 * src_size ≤ dst_size → (utf8To16 src src_size dst_size).written = units ++ [0]

/-- A conversion that does not depend on what lies behind the text is one of any buffer that holds
it. -/
theorem encodes_of_bytesOf {units : List UInt16} {bytes : List UInt8}
    (h : ∀ beyond rest, rest.headD beyond = 0 → bytesOf beyond (units ++ rest) = bytes) :
    Encodes units bytes := by
  intro src src_size dst_size hsrc hend hdst
  obtain ⟨rest, hcells, hstop⟩ := hsrc.cells_eq_terminated hend
  rw [utf16to8_written src hdst, hcells, h _ _ hstop]

/-- A conversion of bytes that does not depend on what lies behind them is one of any buffer. -/
theorem decodes_of_unitsOf {bytes : List UInt8} {units : List UInt16}
    (h : ∀ rest, (rest = [] ∨ rest.head? = some 0) → unitsOf (bytes ++ rest) = units) :
    Decodes bytes units := by
  intro src src_size dst_size hsrc hdst
  obtain ⟨rest, hcells, hstop⟩ := hsrc.cells_eq
  rw [utf8To16_written src (passes_of_le hdst), hcells, h rest hstop]

/-- Units without a pair are written one by one. -/
theorem bytesOf_units {beyond : UInt16} {rest : List UInt16} (hstop : rest.headD beyond = 0)
    {units : List UInt16} (hnul : 0 ∉ units)
    (hpairs : units.IsChain fun u v => ¬ (Utf16.IsHigh u ∧ Utf16.IsLow v)) :
    bytesOf beyond (units ++ rest) = units.flatMap unitBytes := by
  induction units with
  | nil => exact bytesOf_stop hstop
  | cons u units ih =>
    rw [List.mem_cons, not_or] at hnul
    obtain ⟨hu, hrest⟩ := hnul
    have hnext : ¬ (Utf16.IsHigh u ∧ Utf16.IsLow ((units ++ rest).headD beyond)) := by
      cases units with
      | nil =>
        rw [List.nil_append, hstop]
        exact fun hpair => absurd hpair.2 (by decide)
      | cons v units => exact (List.isChain_cons_cons.mp hpairs).1
    rw [List.cons_append, bytesOf_unit (Ne.symm hu) hnext, ih hrest hpairs.tail, List.flatMap_cons]

/-- The bytes of units that are written one by one are read back. -/
theorem unitsOf_units {rest : List UInt8} (hstop : rest = [] ∨ rest.head? = some 0)
    {units : List UInt16} (hnul : 0 ∉ units) :
    unitsOf (units.flatMap unitBytes ++ rest) = units := by
  induction units with
  | nil => exact unitsOf_stop hstop
  | cons u units ih =>
    rw [List.mem_cons, not_or] at hnul
    rw [List.flatMap_cons, List.append_assoc, unitsOf_unitBytes (Ne.symm hnul.1), ih hnul.2]

/-- **The converters are inverse to each other** on texts without surrogate pairs: on units, and
on the UTF-8 encodings of scalar values below 0x10000. -/
theorem encodes_decodes :
    (∀ units : List UInt16, 0 ∉ units →
      units.IsChain (fun u v => ¬ (Utf16.IsHigh u ∧ Utf16.IsLow v)) →
      ∃ bytes, Encodes units bytes ∧ Decodes bytes units) ∧
    ∀ text : List Char, (∀ c ∈ text, c.toNat ≠ 0 ∧ c.toNat < 0x10000) →
      ∃ units, Decodes (text.flatMap String.utf8EncodeChar) units ∧
        Encodes units (text.flatMap String.utf8EncodeChar) := by
  constructor
  · intro units hnul hpairs
    refine ⟨units.flatMap unitBytes, encodes_of_bytesOf ?_, decodes_of_unitsOf ?_⟩
    · intro beyond rest hstop
      exact bytesOf_units hstop hnul hpairs
    · intro rest hstop
      exact unitsOf_units hstop hnul
  · intro text htext
    have hnul : ∀ c ∈ text, c.toNat ≠ 0 := fun c hc => (htext c hc).1
    refine ⟨text.flatMap Utf16.encodeChar, decodes_of_unitsOf ?_, encodes_of_bytesOf ?_⟩
    · intro rest hstop
      rw [unitsOf_text hnul hstop]
      exact List.flatMap_congr fun c hc => writtenUnits_unit (htext c hc).2 (hnul c hc)
    · intro beyond rest hstop
      rw [bytesOf_text beyond hnul hstop]
      exact List.flatMap_congr fun c hc => writtenBytes_unit (htext c hc).2 (hnul c hc)

/-- A euro sign before a lone surrogate, and a euro sign in UTF-8. -/
theorem encodes_decodes_lone :
    (∃ bytes, Encodes [0x20AC, 0xD800] bytes ∧ Decodes bytes [0x20AC, 0xD800]) ∧
      ∃ units, Decodes ([Char.ofNat 0x20AC].flatMap String.utf8EncodeChar) units ∧
        Encodes units ([Char.ofNat 0x20AC].flatMap String.utf8EncodeChar) :=
  ⟨encodes_decodes.1 [0x20AC, 0xD800] (by simp) (by simp [Utf16.IsHigh, Utf16.IsLow]),
    encodes_decodes.2 [Char.ofNat 0x20AC] (List.forall_mem_singleton.mpr (by decide))⟩

/-- A euro sign takes three bytes, and `utf8To16` refuses a destination with room for one unit
and the terminator. -/
theorem not_encodes_decodes :
    ¬ (∀ units : List UInt16, 0 ∉ units →
      units.IsChain (fun u v => ¬ (Utf16.IsHigh u ∧ Utf16.IsLow v)) →
      ∃ bytes, Encodes units bytes ∧
        ∀ (src : ℕ → UInt8) (src_size dst_size : ℕ), Holds src src_size bytes →
          2 * (units.length + 1) ≤ dst_size →
          (utf8To16 src src_size dst_size).written = units ++ [0]) := by
  intro h
  obtain ⟨bytes, hencodes, hdecodes⟩ := h [0x20AC] (by simp) (List.isChain_singleton _)
  have hwritten := hencodes (fun i => [0x20AC].getD i 0) 1 4 (holds_getD [0x20AC]) rfl (by decide)
  have hbytes : (utf16to8 (fun i => [0x20AC].getD i 0) 1 4).written =
      [0xE2, 0x82, 0xAC] ++ [0] := by decide
  obtain rfl : [0xE2, 0x82, 0xAC] = bytes := List.append_cancel_right (hbytes.symm.trans hwritten)
  have hrefused := hdecodes (fun i => [0xE2, 0x82, 0xAC].getD i 0) 3 4
    (holds_getD [0xE2, 0x82, 0xAC]) (by decide)
  exact absurd hrefused (by decide)

end Analysis

end PsCast
