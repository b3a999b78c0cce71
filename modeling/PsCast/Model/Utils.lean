import PsCast.Model.MenuList
import Mathlib.Data.Int.Notation

/-!
# Files and text

`Utils::getLinesFromFile`, `Utils::utf8To16` and `Utils::utf16to8` of `utils.cpp`. A size
is a `size_t`, which has 32 bits on the console.
-/

set_option autoImplicit false

namespace PsCast

/-- The byte at which lines end. -/
def newline : UInt8 := 10

/-! ## Files -/

/-- The feed file on the memory card: its content, or `none` when it does not exist. -/
abbrev FeedFile := Option Bytes

/-- What the SDK does where a file is read: the result of `sceIoOpen`, and the bytes of the buffer
that `sceIoRead`, whose result is not looked at, left as they lay in memory. -/
structure IoRead where
  fd : ℤ := 1
  unread : ℕ → Option UInt8 := fun _ => none

namespace IoRead

/-- A file descriptor alone stands for a complete read. -/
instance : Coe ℤ IoRead := ⟨fun fd => { fd := fd }⟩

/-- A number is a file descriptor. -/
instance (n : ℕ) : OfNat IoRead n := ⟨{ fd := OfNat.ofNat n }⟩

/-- The buffer after `sceIoRead`. -/
def fill (io : IoRead) (content : Bytes) : Bytes :=
  content.zipIdx.map fun (b, i) => (io.unread i).getD b

/-- The file was opened, and all of it was read. -/
structure Complete (io : IoRead) : Prop where
  opened : 1 ≤ io.fd
  filled : ∀ i, io.unread i = none

@[simp] theorem length_fill (io : IoRead) (content : Bytes) :
    (io.fill content).length = content.length := by
  simp [fill]

/-- A complete read fills the buffer with the content of the file. -/
theorem fill_of_filled {io : IoRead} (h : ∀ i, io.unread i = none) (content : Bytes) :
    io.fill content = content := by
  unfold fill
  simp [h]

@[simp] theorem fill_coe (fd : ℤ) (content : Bytes) : IoRead.fill fd content = content :=
  fill_of_filled (fun _ => rfl) content

end IoRead

/-- What the SDK does where a file is written: the result of `sceIoOpen`, and that of `sceIoWrite`
by the number of bytes it is asked to write: how many of them it wrote, or an error. -/
structure IoWrite where
  fd : ℤ := 1
  write : ℕ → ℤ := fun size => size

namespace IoWrite

/-- A file descriptor alone stands for complete writes. -/
instance : Coe ℤ IoWrite := ⟨fun fd => { fd := fd }⟩

/-- A number is a file descriptor. -/
instance (n : ℕ) : OfNat IoWrite n := ⟨{ fd := OfNat.ofNat n }⟩

/-- The bytes of `data` that reach the file. -/
def put (io : IoWrite) (data : Bytes) : Bytes := data.take (io.write data.length).toNat

/-- All of `data` is written. -/
def Completes (io : IoWrite) (data : Bytes) : Prop := (data.length : ℤ) ≤ io.write data.length

/-- A complete write adds all of `data` to the file. -/
theorem put_of_completes {io : IoWrite} {data : Bytes} (h : io.Completes data) :
    io.put data = data := by
  unfold Completes at h
  exact List.take_of_length_le (by omega)

/-- All of `data` reaches the file exactly if all of it is written. -/
theorem put_eq_iff {io : IoWrite} {data : Bytes} (hdata : data ≠ []) :
    io.put data = data ↔ io.Completes data := by
  have hlength := List.length_pos_of_ne_nil hdata
  unfold put Completes
  rw [List.take_eq_self_iff]
  omega

theorem completes_coe (fd : ℤ) (data : Bytes) : IoWrite.Completes fd data := Int.le_refl _

@[simp] theorem put_coe (fd : ℤ) (data : Bytes) : IoWrite.put fd data = data :=
  put_of_completes (completes_coe fd data)

end IoWrite

namespace Utils

/-- The two-index loop over the buffer. The last argument counts the bytes not looked at
yet, `fs - index`.
SOURCE: source/utils.cpp:84-93 -/
def splitLines (buffer : Bytes) (index past_index : ℕ) (lines : List Bytes) : ℕ → List Bytes
  | 0 => lines
  | left + 1 =>
    if buffer[index]? = some newline then
      splitLines buffer (index + 1) (index + 1)
        (lines ++ [(buffer.drop past_index).take (index - past_index)]) left
    else splitLines buffer (index + 1) past_index lines left

/-- The lines read and the file afterwards. `sceIoOpen` is called with `SCE_O_CREAT`, and
seeking in an open file succeeds.
SOURCE: source/utils.cpp:60-97 -/
def getLinesFromFile (io : IoRead) (file : FeedFile) : List Bytes × FeedFile :=
  if io.fd < 1 then ([], file)
  else
    let content := file.getD []
    if content.length < 1 then ([], some content)
    else
      let buffer := io.fill content
      (splitLines buffer 0 0 [] content.length, some content)

/-! ## UTF-16 to UTF-8 -/

/-- What one conversion does to memory: the indices of `src` it reads and the bytes it
stores at `dst[0]`, `dst[1]`, and so on. -/
structure Conversion where
  reads : List ℕ := []
  written : List UInt8 := []
  deriving DecidableEq, Repr

namespace Conversion

/-- Put the effects of one round before those of the later ones. -/
def after (c : Conversion) (reads : List ℕ) (written : List UInt8) : Conversion :=
  { reads := reads ++ c.reads, written := written ++ c.written }

end Conversion

/-- The loop of `utf16to8` from index `i` on, with the terminator after it. `src` is the
memory behind the pointer. The arithmetic is that of `int`, and storing a value in a
`uint8_t` keeps its lowest eight bits.
SOURCE: source/utils.cpp:38-57 -/
def utf16to8Loop (src : ℕ → UInt16) (src_size : ℕ) : (fuel i : ℕ) → Conversion
  | 0, _ => { written := [0] }
  | fuel + 1, i =>
    if i < src_size then
      let u := (src i).toNat
      if u = 0 then { reads := [i], written := [0] }
      else if u &&& 0xFF80 = 0 then
        (utf16to8Loop src src_size fuel (i + 1)).after [i] [(u &&& 0xFF).toUInt8]
      else if u &&& 0xF800 = 0 then
        (utf16to8Loop src src_size fuel (i + 1)).after [i]
          [(((u >>> 6) &&& 0xFF) ||| 0xC0).toUInt8, ((u &&& 0x3F) ||| 0x80).toUInt8]
      else
        -- the second half of the pair test is read only when the first half holds
        let high := u &&& 0xFC00 = 0xD800
        let v := (src (i + 1)).toNat
        if high ∧ v &&& 0xFC00 = 0xDC00 then
          (utf16to8Loop src src_size fuel (i + 2)).after [i, i + 1]
            [((((u + 64) >>> 8) &&& 0x3) ||| 0xF0).toUInt8,
             ((((u >>> 2) + 16) &&& 0x3F) ||| 0x80).toUInt8,
             (((u >>> 4) &&& 0x30) ||| 0x80 ||| ((v <<< 2) &&& 0xF)).toUInt8,
             ((v &&& 0x3F) ||| 0x80).toUInt8]
        else
          (utf16to8Loop src src_size fuel (i + 1)).after (if high then [i, i + 1] else [i])
            [(((u >>> 12) &&& 0xF) ||| 0xE0).toUInt8, (((u >>> 6) &&& 0x3F) ||| 0x80).toUInt8,
             ((u &&& 0x3F) ||| 0x80).toUInt8]
    else { written := [0] }

/-- A destination smaller than half of `src_size` is refused, and then nothing is read or
written.
SOURCE: source/utils.cpp:33-58 -/
def utf16to8 (src : ℕ → UInt16) (src_size dst_size : ℕ) : Conversion :=
  if dst_size < src_size / 2 then {} else utf16to8Loop src src_size src_size 0

/-! ## UTF-8 to UTF-16 -/

/-- What one conversion to 16-bit units does to memory. -/
structure WideConversion where
  reads : List ℕ := []
  written : List UInt16 := []
  deriving DecidableEq, Repr

namespace WideConversion

/-- Put the effects of one round before those of the later ones. -/
def after (c : WideConversion) (reads : List ℕ) (written : List UInt16) : WideConversion :=
  { reads := reads ++ c.reads, written := written ++ c.written }

end WideConversion

/-- The loop of `utf8To16` from index `i` on, with the terminator after it. The increments of
`i` in the branches and in the head of the loop are taken together.
SOURCE: source/utils.cpp:12-28 -/
def utf8To16Loop (src : ℕ → UInt8) (src_size : ℕ) : (fuel i : ℕ) → WideConversion
  | 0, _ => { written := [0] }
  | fuel + 1, i =>
    if i < src_size then
      let b := (src i).toNat
      if b = 0 then { reads := [i], written := [0] }
      else if b &&& 0xE0 = 0xE0 ∧ src_size - i > 2 then
        let b₁ := (src (i + 1)).toNat
        let b₂ := (src (i + 2)).toNat
        (utf8To16Loop src src_size fuel (i + 3)).after [i, i + 1, i + 2]
          [(((b &&& 0x0F) <<< 12) ||| ((b₁ &&& 0x3F) <<< 6) ||| (b₂ &&& 0x3F)).toUInt16]
      else if b &&& 0xC0 = 0xC0 ∧ src_size - i > 1 then
        let b₁ := (src (i + 1)).toNat
        (utf8To16Loop src src_size fuel (i + 2)).after [i, i + 1]
          [(((b &&& 0x1F) <<< 6) ||| (b₁ &&& 0x3F)).toUInt16]
      else (utf8To16Loop src src_size fuel (i + 1)).after [i] [(src i).toUInt16]
    else { written := [0] }

/-- A destination of fewer than two bytes for each byte of the source is refused. The product
is one of `size_t`.
SOURCE: source/utils.cpp:7-29 -/
def utf8To16 (src : ℕ → UInt8) (src_size dst_size : ℕ) : WideConversion :=
  if dst_size < src_size * 2 % UInt32.size then {} else utf8To16Loop src src_size src_size 0

end Utils

end PsCast
