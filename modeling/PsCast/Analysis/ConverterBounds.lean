import PsCast.Model.App
import PsCast.Analysis.Converters

/-!
# The size guards of the converters

Each converter compares the size of the destination with that of the source once, before the
loop. `utf8To16` writes at most one unit for each byte and then the terminator, so its guard
is one unit short exactly when every byte has a unit of its own
(`utf8To16_inBounds_iff`). `utf16to8` writes up to three bytes for a unit and looks one unit
ahead, which its guard has nothing to do with (`utf16to8_inBounds_iff`).
-/

set_option autoImplicit false

namespace PsCast

open Library Utils

/-- Every read is at an index below `src_size`, and each of the `stores` cells written, from
index zero on, is at an index below `room`. -/
structure Utils.InBounds (src_size room : ℕ) (reads : List ℕ) (stores : ℕ) : Prop where
  reads : ∀ r ∈ reads, r < src_size
  stores : ∀ k, k < stores → k < room

/-- The units before the first NUL. -/
def Utils.textOf (units : List UInt16) : List UInt16 := units.takeWhile (· ≠ 0)

/-- The last unit is converted and is a high surrogate, so that the test for a pair reads the
unit behind the buffer. -/
def Utils.LooksBeyond (units : List UInt16) : Prop :=
  0 ∉ units ∧ ∃ u ∈ units.getLast?, Utf16.IsHigh u

/-- The bytes that a unit takes outside a surrogate pair. -/
def Utils.unitLength (u : UInt16) : ℕ :=
  if u.toNat < 0x80 then 1 else if u.toNat < 0x800 then 2 else 3

/-- The number of high surrogates with a low one right behind them. -/
def Utils.pairCount (text : List UInt16) : ℕ :=
  (text.zip text.tail).countP fun p => Utf16.IsHigh p.1 ∧ Utf16.IsLow p.2

namespace Analysis

/-! ## UTF-8 to UTF-16 -/

/-- The loop stays inside the source: each branch checks how many bytes are left. -/
theorem utf8To16Loop_reads (src : ℕ → UInt8) (src_size fuel i : ℕ) :
    ∀ r ∈ (utf8To16Loop src src_size fuel i).reads, r < src_size := by
  induction fuel generalizing i with
  | zero => simp [utf8To16Loop]
  | succ fuel ih =>
    intro r hr
    rcases Nat.lt_or_ge i src_size with hi | hi
    · rw [utf8To16Loop_round src hi] at hr
      split at hr
      · simp only [List.mem_singleton] at hr
        omega
      · split at hr
        · simp only [WideConversion.after, List.mem_append, List.mem_cons, List.not_mem_nil,
            or_false] at hr
          rcases hr with (hr | hr | hr) | hr
          · omega
          · omega
          · omega
          · exact ih (i + 3) r hr
        · split at hr
          · simp only [WideConversion.after, List.mem_append, List.mem_cons, List.not_mem_nil,
              or_false] at hr
            rcases hr with (hr | hr) | hr
            · omega
            · omega
            · exact ih (i + 2) r hr
          · simp only [WideConversion.after, List.mem_append, List.mem_singleton] at hr
            rcases hr with hr | hr
            · omega
            · exact ih (i + 1) r hr
    · rw [utf8To16Loop_end src hi] at hr
      cases hr

/-- No byte makes more than one unit. -/
theorem unitsOf_length_le (bs : List UInt8) : (unitsOf bs).length ≤ bs.length := by
  fun_induction unitsOf bs <;> simp only [List.length_cons, List.length_nil] at * <;> omega

/-- As many units as bytes: every byte is converted alone. -/
theorem unitsOf_length_eq_iff (bs : List UInt8) :
    (unitsOf bs).length = bs.length ↔ 0 ∉ bs ∧ ∀ b ∈ bs.dropLast, b.toNat < 0xC0 := by
  fun_induction unitsOf bs with
  | case1 => simp
  | case2 => simp
  | case3 b hb => simpa using Ne.symm hb
  | case4 => simp
  | case5 b b₁ hb hlead =>
    have hge : ¬ b.toNat < 0xC0 := by omega
    simp [hge]
  | case6 b b₁ hb hlead ih =>
    have hb' : (0 : UInt8) ≠ b := Ne.symm hb
    have hlt : b.toNat < 0xC0 := by omega
    rw [List.length_cons, List.length_cons, Nat.add_right_cancel_iff, ih]
    simp [hb', hlt]
  | case7 => simp
  | case8 b b₁ b₂ rest hb hlead ih =>
    have hle := unitsOf_length_le rest
    have hge : ¬ b.toNat < 0xC0 := by omega
    simp only [List.length_cons, List.dropLast_cons_cons, List.forall_mem_cons, hge, false_and,
      and_false, iff_false]
    omega
  | case9 b b₁ b₂ rest hb hthree hlead ih =>
    have hle := unitsOf_length_le (b₂ :: rest)
    have hge : ¬ b.toNat < 0xC0 := by omega
    simp only [List.length_cons, List.dropLast_cons_cons, List.forall_mem_cons, hge, false_and,
      and_false, iff_false] at *
    omega
  | case10 b b₁ b₂ rest hb hthree hlead ih =>
    have hb' : (0 : UInt8) ≠ b := Ne.symm hb
    have hlt : b.toNat < 0xC0 := by omega
    rw [List.length_cons, List.length_cons, Nat.add_right_cancel_iff, ih]
    simp [hb', hlt]

/-- Every read of `utf8To16` is inside of its source, so only the units and the terminator count. -/
theorem utf8To16_reads_stores (src : ℕ → UInt8) {src_size dst_size : ℕ}
    (hdst : 2 * src_size ≤ dst_size) (room : ℕ) :
    InBounds src_size room (utf8To16 src src_size dst_size).reads
        (utf8To16 src src_size dst_size).written.length ↔
      (unitsOf (cells src 0 src_size)).length < room := by
  have hreads : ∀ r ∈ (utf8To16 src src_size dst_size).reads, r < src_size := by
    rw [utf8To16, if_neg (Nat.not_lt.mpr (passes_of_le hdst))]
    exact utf8To16Loop_reads src src_size src_size 0
  have hlength : (utf8To16 src src_size dst_size).written.length =
      (unitsOf (cells src 0 src_size)).length + 1 := by
    rw [utf8To16_written src (passes_of_le hdst), List.length_append]
    rfl
  rw [hlength]
  constructor
  · intro h
    exact h.stores _ (Nat.lt_succ_self _)
  · intro h
    exact ⟨hreads, fun _ hk => forall_lt_iff_le.mpr h hk⟩

/-- The conversion stays inside its buffers exactly when the destination has a unit more than
the source has bytes, or some byte has no unit of its own. -/
theorem utf8To16_fits_iff (src : ℕ → UInt8) {src_size dst_size room : ℕ}
    (hdst : 2 * src_size ≤ dst_size) (hroom : src_size ≤ room) :
    InBounds src_size room (utf8To16 src src_size dst_size).reads
        (utf8To16 src src_size dst_size).written.length ↔
      src_size < room ∨ 0 ∈ cells src 0 src_size ∨
        ∃ b ∈ (cells src 0 src_size).dropLast, 0xC0 ≤ b.toNat := by
  have hle := unitsOf_length_le (cells src 0 src_size)
  have heq := unitsOf_length_eq_iff (cells src 0 src_size)
  rw [length_cells] at hle heq
  rw [utf8To16_reads_stores src hdst]
  have hnot : ¬ (0 ∉ cells src 0 src_size ∧
      ∀ b ∈ (cells src 0 src_size).dropLast, b.toNat < 0xC0) ↔
      0 ∈ cells src 0 src_size ∨ ∃ b ∈ (cells src 0 src_size).dropLast, 0xC0 ≤ b.toNat := by
    rw [not_and_or, not_not]
    simp only [not_forall, Nat.not_lt, exists_prop]
  rw [← hnot, ← heq]
  omega

/-- The guard of `utf8To16` and the one call of it: the title is converted inside its buffers
exactly when it holds a NUL or a byte from 0xC0 on before its last one. -/
theorem utf8To16_inBounds_iff (src : ℕ → UInt8) (src_size dst_size : ℕ)
    (hdst : 2 * src_size ≤ dst_size) :
    (InBounds src_size (dst_size / 2) (utf8To16 src src_size dst_size).reads
        (utf8To16 src src_size dst_size).written.length ↔
      src_size < dst_size / 2 ∨ 0 ∈ cells src 0 src_size ∨
        ∃ b ∈ (cells src 0 src_size).dropLast, 0xC0 ≤ b.toNat) ∧
    ∀ title : Bytes,
      InBounds title.length title.length (App.titleBuffer title).reads
          (App.titleBuffer title).written.length ↔
        0 ∈ title ∨ ∃ b ∈ title.dropLast, 0xC0 ≤ b.toNat := by
  constructor
  · have hroom : src_size ≤ dst_size / 2 := by omega
    exact utf8To16_fits_iff src hdst hroom
  · intro title
    have hfits := utf8To16_fits_iff (fun i => title.getD i 0) (le_refl (2 * title.length))
      (le_refl title.length)
    rw [cells_getD, or_iff_right (Nat.lt_irrefl _)] at hfits
    exact hfits

/-- One letter and a destination of two units; and every title of the dialog. -/
theorem utf8To16_inBounds_one :
    (InBounds 1 (4 / 2) (utf8To16 (fun _ => 65) 1 4).reads
        (utf8To16 (fun _ => 65) 1 4).written.length ↔
      1 < 4 / 2 ∨ 0 ∈ cells (fun _ => (65 : UInt8)) 0 1 ∨
        ∃ b ∈ (cells (fun _ => (65 : UInt8)) 0 1).dropLast, 0xC0 ≤ b.toNat) ∧
    ∀ title : Bytes,
      InBounds title.length title.length (App.titleBuffer title).reads
          (App.titleBuffer title).written.length ↔
        0 ∈ title ∨ ∃ b ∈ title.dropLast, 0xC0 ≤ b.toNat :=
  utf8To16_inBounds_iff (fun _ => 65) 1 4 (by decide)

/-- The title of the dialog leaves no room for its terminator. -/
theorem not_utf8To16_inBounds :
    ¬ (∀ (src : ℕ → UInt8) (src_size dst_size : ℕ), 2 * src_size ≤ dst_size →
      InBounds src_size (dst_size / 2) (utf8To16 src src_size dst_size).reads
        (utf8To16 src src_size dst_size).written.length) := by
  intro h
  have hstores := (h (fun i => (lit "Feed URL").getD i 0) 8 16 (by decide)).stores 8
  exact absurd (hstores (by decide)) (by decide)

/-! ## UTF-16 to UTF-8 -/

/-- A low surrogate is not zero. -/
theorem isLow_ne_zero {u : UInt16} (h : Utf16.IsLow u) : u ≠ 0 := by
  rintro rfl
  exact absurd h (by decide)

/-- No unit is both. -/
theorem not_isHigh_of_isLow {u : UInt16} (h : Utf16.IsLow u) : ¬ Utf16.IsHigh u := by
  unfold Utf16.IsLow Utf16.IsHigh at *
  omega

/-- The last unit is looked beyond if it is a high surrogate. -/
theorem looksBeyond_singleton {u : UInt16} (hu : u ≠ 0) : LooksBeyond [u] ↔ Utf16.IsHigh u := by
  simp [LooksBeyond, Ne.symm hu]

/-- Only the last unit can be looked beyond. -/
theorem looksBeyond_cons {u v : UInt16} (hu : u ≠ 0) (rest : List UInt16) :
    LooksBeyond (u :: v :: rest) ↔ LooksBeyond (v :: rest) := by
  have hu' : (0 : UInt16) ≠ u := Ne.symm hu
  simp [LooksBeyond, hu', List.getLast?_cons_cons]

/-- A pair at the front makes no difference. -/
theorem looksBeyond_pair {u v : UInt16} (hu : u ≠ 0) (hv : Utf16.IsLow v) (rest : List UInt16) :
    LooksBeyond (u :: v :: rest) ↔ LooksBeyond rest := by
  have hv₀ := isLow_ne_zero hv
  rw [looksBeyond_cons hu]
  cases rest with
  | nil =>
    rw [looksBeyond_singleton hv₀]
    exact iff_of_false (not_isHigh_of_isLow hv) (by simp [LooksBeyond])
  | cons w rest => exact looksBeyond_cons hv₀ rest

/-- From index `i` on, with `left` units left in the buffer. -/
theorem utf16to8Loop_reads_iff (src : ℕ → UInt16) (src_size left : ℕ) {fuel i : ℕ}
    (hleft : i + left = src_size) (hfuel : left ≤ fuel) :
    (∀ r ∈ (utf16to8Loop src src_size fuel i).reads, r < src_size) ↔
      ¬ LooksBeyond (cells src i left) := by
  induction fuel generalizing i left with
  | zero =>
    obtain rfl : left = 0 := by omega
    simp [utf16to8Loop, LooksBeyond]
  | succ fuel ih =>
    have hafter : ∀ (c : Conversion) (reads : List ℕ) (written : List UInt8),
        (∀ r ∈ reads, r < src_size) →
        ((∀ r ∈ (c.after reads written).reads, r < src_size) ↔ ∀ r ∈ c.reads, r < src_size) := by
      intro c reads written hreads
      simp only [Conversion.after, List.forall_mem_append, and_iff_right hreads]
    rcases left with _ | _ | left
    · rw [utf16to8Loop_end src (by omega)]
      simp [LooksBeyond]
    · have hi : i < src_size := by omega
      have hout : ¬ i + 1 < src_size := by omega
      rw [utf16to8Loop_round src hi, cells_succ, cells_zero]
      by_cases hzero : src i = 0
      · simp [hzero, LooksBeyond, hi]
      · rw [if_neg hzero, looksBeyond_singleton hzero, utf16to8Loop_end src (by omega),
          utf16to8Loop_end src (by omega)]
        by_cases hhigh : Utf16.IsHigh (src i)
        · split <;> simp [Conversion.after, hhigh, hout]
        · simp [Conversion.after, hhigh, hi]
    · have hi : i < src_size := by omega
      have hi' : i + 1 < src_size := by omega
      have hboth : ∀ r ∈ [i, i + 1], r < src_size := by simp [hi, hi']
      rw [utf16to8Loop_round src hi, cells_succ, cells_succ]
      by_cases hzero : src i = 0
      · simp [hzero, LooksBeyond, hi]
      · rw [if_neg hzero]
        by_cases hpair : Utf16.IsHigh (src i) ∧ Utf16.IsLow (src (i + 1))
        · rw [if_pos hpair, hafter _ _ _ hboth, ih left (by omega) (by omega),
            looksBeyond_pair hzero hpair.2]
        · have hread : ∀ r ∈ (if Utf16.IsHigh (src i) then [i, i + 1] else [i]), r < src_size := by
            split
            · exact hboth
            · simpa using hi
          rw [if_neg hpair, hafter _ _ _ hread, ih (left + 1) (by omega) (by omega),
            looksBeyond_cons hzero, cells_succ]

/-- A unit that is not zero belongs to the text. -/
theorem textOf_cons {u : UInt16} (hu : u ≠ 0) (rest : List UInt16) :
    textOf (u :: rest) = u :: textOf rest := by
  simp [textOf, hu]

/-- The text ends at the first zero. -/
theorem textOf_zero (rest : List UInt16) : textOf (0 :: rest) = [] := by
  simp [textOf]

/-- The number of bytes that a unit is written in. -/
theorem length_unitBytes (u : UInt16) : (unitBytes u).length = unitLength u := by
  unfold unitBytes unitLength
  split
  · rfl
  · split <;> rfl

/-- A surrogate is written in three bytes. -/
theorem unitLength_of_surrogate {u : UInt16} (h : Utf16.IsHigh u ∨ Utf16.IsLow u) :
    unitLength u = 3 := by
  have hge : 0xD800 ≤ u.toNat := by
    unfold Utf16.IsHigh Utf16.IsLow at h
    omega
  have h₁ : ¬ u.toNat < 0x80 := by omega
  have h₂ : ¬ u.toNat < 0x800 := by omega
  rw [unitLength, if_neg h₁, if_neg h₂]

/-- A pair counts once. -/
theorem pairCount_pair {u v : UInt16} (h : Utf16.IsHigh u ∧ Utf16.IsLow v) (rest : List UInt16) :
    pairCount (u :: v :: rest) = pairCount (v :: rest) + 1 := by
  simp [pairCount, h]

/-- A unit that begins no pair does not count. -/
theorem pairCount_cons {u : UInt16} {rest : List UInt16}
    (h : ∀ v ∈ rest.head?, ¬ (Utf16.IsHigh u ∧ Utf16.IsLow v)) :
    pairCount (u :: rest) = pairCount rest := by
  cases rest with
  | nil => rfl
  | cons v rest =>
    have hno : ¬ (Utf16.IsHigh u ∧ Utf16.IsLow v) := h v rfl
    simp only [pairCount, List.tail_cons, List.zip_cons_cons]
    rw [List.countP_cons_of_neg (by simpa using hno)]

/-- The length of the conversion, when the unit behind the buffer is not taken for a low
surrogate: each pair saves two of the six bytes that its units would take alone. -/
theorem bytesOf_length (beyond : UInt16) (units : List UInt16) (h : ¬ LooksBeyond units) :
    (bytesOf beyond units).length + 2 * pairCount (textOf units) =
      ((textOf units).map unitLength).sum := by
  fun_induction bytesOf beyond units with
  | case1 => rfl
  | case2 => rw [textOf_zero]; rfl
  | case3 u hu hpair => exact absurd ((looksBeyond_singleton hu).mpr hpair.1) h
  | case4 u hu hpair =>
    rw [textOf_cons hu, length_unitBytes]
    simp [textOf, pairCount]
  | case5 => rw [textOf_zero]; rfl
  | case6 u v rest hu hpair ih =>
    have hv := isLow_ne_zero hpair.2
    have hrest := ih (by rwa [looksBeyond_pair hu hpair.2] at h)
    have hlone : pairCount (v :: textOf rest) = pairCount (textOf rest) :=
      pairCount_cons fun _ _ hboth => not_isHigh_of_isLow hpair.2 hboth.1
    have hu₃ := unitLength_of_surrogate (.inl hpair.1)
    have hv₃ := unitLength_of_surrogate (.inr hpair.2)
    rw [textOf_cons hu, textOf_cons hv, pairCount_pair hpair, hlone, List.length_append,
      List.map_cons, List.map_cons, List.sum_cons, List.sum_cons, hu₃, hv₃]
    simp only [pairBytes, List.length_cons, List.length_nil]
    omega
  | case7 u v rest hu hpair ih =>
    have hrest := ih (by rwa [looksBeyond_cons hu] at h)
    have hlone : pairCount (u :: textOf (v :: rest)) = pairCount (textOf (v :: rest)) := by
      refine pairCount_cons fun w hw => ?_
      by_cases hv : v = 0
      · rw [hv, textOf_zero] at hw
        cases hw
      · rw [textOf_cons hv] at hw
        obtain rfl : v = w := Option.some.inj hw
        exact hpair
    rw [textOf_cons hu, hlone, List.length_append, length_unitBytes, List.map_cons, List.sum_cons]
    omega

/-- The guard of `utf16to8`: the conversion stays inside its buffers exactly when no unit
behind the source is looked at and the bytes of the text and a terminator fit. -/
theorem utf16to8_inBounds_iff (src : ℕ → UInt16) (src_size dst_size : ℕ)
    (hdst : src_size / 2 ≤ dst_size) :
    InBounds src_size dst_size (utf16to8 src src_size dst_size).reads
        (utf16to8 src src_size dst_size).written.length ↔
      ¬ LooksBeyond (cells src 0 src_size) ∧
        ((textOf (cells src 0 src_size)).map unitLength).sum <
          dst_size + 2 * pairCount (textOf (cells src 0 src_size)) := by
  have haccepted : utf16to8 src src_size dst_size = utf16to8Loop src src_size src_size 0 :=
    if_neg (Nat.not_lt.mpr hdst)
  have hreads := utf16to8Loop_reads_iff src src_size src_size (Nat.zero_add _) le_rfl
  have hlength : (utf16to8 src src_size dst_size).written.length =
      (bytesOf (src src_size) (cells src 0 src_size)).length + 1 := by
    rw [utf16to8_written src hdst, List.length_append]
    rfl
  have hbytes := bytesOf_length (src src_size) (cells src 0 src_size)
  rw [hlength, haccepted]
  constructor
  · rintro ⟨hread, hstore⟩
    have hnot := hreads.mp hread
    have hfits := forall_lt_iff_le.mp fun k hk => hstore k hk
    have htotal := hbytes hnot
    exact ⟨hnot, by omega⟩
  · rintro ⟨hnot, hlt⟩
    have htotal := hbytes hnot
    have hfits : (bytesOf (src src_size) (cells src 0 src_size)).length + 1 ≤ dst_size := by omega
    exact ⟨hreads.mpr hnot, fun _ hk => forall_lt_iff_le.mpr hfits hk⟩

/-- One letter and a destination of two bytes. -/
theorem utf16to8_inBounds_one :
    InBounds 1 2 (utf16to8 (fun _ => 65) 1 2).reads (utf16to8 (fun _ => 65) 1 2).written.length ↔
      ¬ LooksBeyond (cells (fun _ => 65) 0 1) ∧
        ((textOf (cells (fun _ => 65) 0 1)).map unitLength).sum <
          2 + 2 * pairCount (textOf (cells (fun _ => 65) 0 1)) :=
  utf16to8_inBounds_iff (fun _ => 65) 1 2 (by decide)

/-- A euro sign takes three bytes, and the guard lets it into a buffer of one. -/
theorem not_utf16to8_inBounds :
    ¬ (∀ (src : ℕ → UInt16) (src_size dst_size : ℕ), src_size / 2 ≤ dst_size →
      InBounds src_size dst_size (utf16to8 src src_size dst_size).reads
        (utf16to8 src src_size dst_size).written.length) := by
  intro h
  have hstores := (h (fun i => [0x20AC].getD i 0) 1 1 (by decide)).stores 3
  exact absurd (hstores (by decide)) (by decide)

end Analysis

end PsCast
