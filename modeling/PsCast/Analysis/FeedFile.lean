import PsCast.Analysis.ScreenStep
import PsCast.Library.Records
import PsCast.Library.Run

/-!
# The feed file

The file is a sequence of lines, each ended by a newline. `Utils::getLinesFromFile` reads
the complete lines (`getLinesFromFile_eq`), `App::appendUrlToFeed` writes one
(`appendUrlToFeed_eq`), and both are the operations on files of terminated records. So
reading loses exactly what follows the last newline (`getLinesFromFile_keeps_iff`). The
results on adding are built on the same: what is added joins an unterminated last line and
is a line of its own otherwise; a file that only the application writes is a log without
repetitions; and the exact condition under which a URL is added only if it should be.
-/

set_option autoImplicit false

namespace PsCast

open Library.Records

namespace App

/-- The bytes of the feed file; a file that does not exist yet has none. -/
def content (a : App) : Bytes := a.feedFile.getD []

/-- The lines that an update or an addition reads. -/
def feedLines (fd : IoRead) (a : App) : List Bytes := (Utils.getLinesFromFile fd a.feedFile).1

/-- The state after the feed file was read. -/
def withFeedFile (fd : IoRead) (a : App) : App :=
  { a with
    feedUrls := feedLines fd a
    feedFile := (Utils.getLinesFromFile fd a.feedFile).2 }

/-- The state after the line `input` was read for and written. -/
def withAppended (fdRead : IoRead) (fdAppend : IoWrite) (input : Bytes) (a : App) : App :=
  { withFeedFile fdRead a with feedFile := some (a.content ++ fdAppend.put (input ++ [newline])) }

/-- The input is not empty and none of the lines read, and the file can be opened to append it. -/
def Appends (fdRead : IoRead) (fdAppend : IoWrite) (input : Bytes) (a : App) : Prop :=
  input ≠ [] ∧ input ∉ feedLines fdRead a ∧ 1 ≤ openAppend fdAppend (withFeedFile fdRead a).feedFile

instance (fdRead : IoRead) (fdAppend : IoWrite) (input : Bytes) (a : App) :
    Decidable (Appends fdRead fdAppend input a) :=
  inferInstanceAs (Decidable (_ ∧ _ ∧ _))

end App

/-- The lines read from a file: none of them holds a newline, and those that are not empty are
the non-empty segments of the file between newlines, in order. -/
structure KeepsLines (content : Bytes) (lines : List Bytes) : Prop where
  newlineFree : ∀ line ∈ lines, newline ∉ line
  segments : lines.filter (· ≠ []) = (content.splitOn newline).filter (· ≠ [])

namespace Analysis

open App

/-- The first state, with a feed file of this content. -/
def startOver (content : Bytes) : App := { App.start with feedFile := some content }

theorem startOver_shown (content : Bytes) : (startOver content).toScreen.Shown :=
  start_shown

/-! ## Reading -/

/-- The loop from the beginning of a line on: `done` is behind it, `cur` is the part of the
line already passed. -/
theorem splitLines_eq (rest done cur : Bytes) (lines : List Bytes) (hcur : newline ∉ cur) :
    Utils.splitLines (done ++ cur ++ rest) (done.length + cur.length) done.length lines
        rest.length =
      lines ++ records newline (cur ++ rest) := by
  induction rest generalizing done cur lines with
  | nil => simp [Utils.splitLines, records_of_not_mem hcur]
  | cons x rest ih =>
    have hget : (done ++ cur ++ x :: rest)[done.length + cur.length]? = some x := by
      rw [← List.length_append, List.getElem?_append_right le_rfl, Nat.sub_self]
      rfl
    rw [List.length_cons, Utils.splitLines, hget]
    by_cases hx : x = newline
    -- the line ends here: it is pushed, and the next one starts behind the newline
    · have hline : ((done ++ cur ++ x :: rest).drop done.length).take
          (done.length + cur.length - done.length) = cur := by
        rw [List.append_assoc, List.drop_left, Nat.add_sub_cancel_left, List.take_left]
      have hnext := ih (done ++ cur ++ [x]) [] (lines ++ [cur]) List.not_mem_nil
      rw [hline, if_pos (by rw [hx]), hx, records_append_cons hcur]
      simpa [hx, Nat.add_assoc] using hnext
    -- the byte belongs to the line: only `index` moves on
    · have hnext := ih done (cur ++ [x]) lines (by simp [hcur, Ne.symm hx])
      rw [if_neg (by simpa using hx)]
      simpa [Nat.add_assoc] using hnext

/-- Reading a file that can be opened yields the complete lines of the buffer. -/
theorem getLinesFromFile_eq (fd : IoRead) (file : FeedFile) :
    Utils.getLinesFromFile fd file =
      if fd.fd < 1 then ([], file)
      else (records newline (fd.fill (file.getD [])), some (file.getD [])) := by
  unfold Utils.getLinesFromFile
  by_cases hfd : fd.fd < 1
  · simp [hfd]
  · have hscan := splitLines_eq (fd.fill (file.getD [])) [] [] [] List.not_mem_nil
    simp only [List.nil_append, List.length_nil, Nat.add_zero, IoRead.length_fill] at hscan
    simp only [hfd, if_false, hscan]
    cases hcontent : file.getD [] with
    | nil => rfl
    | cons x rest => simp

/-- Reading a file loses no line exactly when nothing follows its last newline. -/
theorem getLinesFromFile_keeps_iff (fd : ℤ) (hfd : 1 ≤ fd) (file : FeedFile) :
    KeepsLines (file.getD []) (Utils.getLinesFromFile fd file).1 ↔
      file.getD [] = [] ∨ (file.getD []).getLast? = some newline := by
  have hopen : ¬ fd < 1 := by omega
  rw [getLinesFromFile_eq, if_neg hopen, IoRead.fill_coe, ← remainder_eq_nil_iff]
  constructor
  · rintro ⟨-, hsegments⟩
    rw [splitOn_eq, List.filter_append] at hsegments
    by_contra hrest
    have hlength := congrArg List.length hsegments
    simp [hrest] at hlength
  · intro hrest
    refine ⟨fun line hline => not_mem_of_mem_records hline, ?_⟩
    rw [splitOn_eq, List.filter_append, hrest]
    simp

/-- A file of one line. -/
theorem getLinesFromFile_keeps_one :
    KeepsLines ((some (lit "a\n")).getD []) (Utils.getLinesFromFile 1 (some (lit "a\n"))).1 ↔
      (some (lit "a\n")).getD [] = [] ∨ ((some (lit "a\n")).getD []).getLast? = some newline :=
  getLinesFromFile_keeps_iff 1 (by decide) (some (lit "a\n"))

/-- A last line without a newline is not read. -/
theorem not_getLinesFromFile_keeps :
    ¬ (∀ (fd : ℤ) (file : FeedFile), 1 ≤ fd →
      KeepsLines (file.getD []) (Utils.getLinesFromFile fd file).1) := by
  intro h
  exact absurd (h 1 (some (lit "a")) (by decide)).segments (by decide)

/-- The lines read are those of the buffer as it was filled. -/
theorem feedLines_eq_fill {fd : IoRead} (hfd : 1 ≤ fd.fd) (a : App) :
    feedLines fd a = records newline (fd.fill a.content) := by
  have hopen : ¬ fd.fd < 1 := by omega
  rw [feedLines, getLinesFromFile_eq, if_neg hopen]
  rfl

/-- Given by its descriptor alone, a read yields the lines of the file. -/
theorem feedLines_eq {fd : ℤ} (hfd : 1 ≤ fd) (a : App) :
    feedLines fd a = records newline a.content := by
  rw [feedLines_eq_fill hfd, IoRead.fill_coe]

/-- A complete read yields the lines of the file. -/
theorem feedLines_complete {fd : IoRead} (h : fd.Complete) (a : App) :
    feedLines fd a = records newline a.content := by
  rw [feedLines_eq_fill h.opened, IoRead.fill_of_filled h.filled]

/-- No line is read of a file that cannot be opened. -/
theorem feedLines_unreadable {fd : IoRead} (hfd : fd.fd < 1) (a : App) : feedLines fd a = [] := by
  rw [feedLines, getLinesFromFile_eq, if_pos hfd]

/-- Reading creates the file if it can be opened. -/
theorem withFeedFile_feedFile (fd : IoRead) (a : App) :
    (withFeedFile fd a).feedFile = if fd.fd < 1 then a.feedFile else some a.content := by
  show (Utils.getLinesFromFile fd a.feedFile).2 = _
  rw [getLinesFromFile_eq]
  split <;> rfl

/-- Reading does not change the content. -/
theorem content_withFeedFile (fd : IoRead) (a : App) : (withFeedFile fd a).content = a.content := by
  unfold content
  rw [withFeedFile_feedFile]
  split <;> rfl

/-- `updateFeedFile` reads the lines, and fails if there are none. -/
theorem updateFeedFile_eq (fd : IoRead) (a : App) :
    a.updateFeedFile fd = (if feedLines fd a = [] then -1 else App.ok, withFeedFile fd a) := by
  unfold updateFeedFile feedLines withFeedFile feedLines
  cases h : (Utils.getLinesFromFile fd a.feedFile).1 with
  | nil => simp [h]
  | cons url rest => simp [h]

/-! ## Adding a line -/

/-- **Adding a URL**: the line is written under the conditions `Appends`; else the state only
differs by what reading the file did to it. -/
theorem appendUrlToFeed_eq {a : App} (hshown : a.toScreen.Shown) (fdRead : IoRead)
    (fdAppend : IoWrite) (input : Bytes) :
    ∃ m, appendUrlToFeed fdRead fdAppend input a =
      some ((if Appends fdRead fdAppend input a then withAppended fdRead fdAppend input a
        else withFeedFile fdRead a).withStatus m) := by
  have hread : (withFeedFile fdRead a).toScreen.Shown := hshown
  unfold appendUrlToFeed
  rw [updateFeedFile_eq]
  by_cases hinput : input = []
  · refine ⟨a.menu.statusMsg, ?_⟩
    simp only [hinput, List.length_nil, Nat.zero_lt_one, if_true, Appends, ne_eq, not_true_eq_false,
      false_and, if_false]
    rfl
  · have hlength : ¬ input.length < 1 := by
      have := List.length_pos_of_ne_nil hinput
      omega
    simp only [hlength, if_false]
    cases hfind : (withFeedFile fdRead a).feedUrls.find? (· = input) with
    | some s =>
      have hmem : input ∈ feedLines fdRead a := by
        have hs : s = input := by simpa using List.find?_some hfind
        exact hs ▸ List.mem_of_find?_eq_some hfind
      simp only [sendHeaderMessage_eq hread, Appends, hmem, not_true_eq_false, false_and, and_false,
        if_false]
      exact ⟨_, rfl⟩
    | none =>
      have hnot : input ∉ feedLines fdRead a := by
        intro hmem
        simpa using List.find?_eq_none.mp hfind input hmem
      by_cases hopen : openAppend fdAppend (withFeedFile fdRead a).feedFile < 1
      · have hclosed : ¬ 1 ≤ openAppend fdAppend (withFeedFile fdRead a).feedFile := by omega
        simp only [hopen, if_true, sendHeaderMessage_eq hread, Appends, hclosed, and_false,
          if_false]
        exact ⟨_, rfl⟩
      · have happends : Appends fdRead fdAppend input a := ⟨hinput, hnot, by omega⟩
        have hcontent : (withFeedFile fdRead a).feedFile.getD [] = a.content :=
          content_withFeedFile fdRead a
        simp only [hopen, if_false, happends, if_true, hcontent]
        have hwritten : (withAppended fdRead fdAppend input a).toScreen.Shown := hshown
        exact ⟨_, sendHeaderMessage_eq hwritten _⟩

/-- A line is written unless it is empty, is one of the lines read, or the file cannot be opened
for appending. A file that could not be read is not known to hold any line. -/
theorem appends_iff (fdRead : IoRead) (fdAppend : IoWrite) (input : Bytes) (a : App) :
    Appends fdRead fdAppend input a ↔
      input ≠ [] ∧ ¬ (1 ≤ fdRead.fd ∧ input ∈ records newline (fdRead.fill a.content)) ∧
        1 ≤ fdAppend.fd ∧ ¬ (fdRead.fd < 1 ∧ a.feedFile = none) := by
  unfold Appends openAppend
  rw [withFeedFile_feedFile]
  by_cases hfd : fdRead.fd < 1
  · have hfd' : ¬ 1 ≤ fdRead.fd := by omega
    rw [feedLines_unreadable hfd]
    by_cases hfile : a.feedFile = none <;> simp [hfd, hfd', hfile]
  · have hfd' : 1 ≤ fdRead.fd := by omega
    rw [feedLines_eq_fill hfd']
    simp [hfd, hfd']

/-! ### Complete operations -/

/-- The condition for complete reads and writes. -/
theorem appends_iff_complete (fdRead fdAppend : ℤ) (input : Bytes) (a : App) :
    Appends fdRead fdAppend input a ↔
      input ≠ [] ∧ ¬ (1 ≤ fdRead ∧ input ∈ records newline a.content) ∧
        1 ≤ fdAppend ∧ ¬ (fdRead < 1 ∧ a.feedFile = none) := by
  rw [appends_iff, IoRead.fill_coe]

/-- A complete write adds the line. -/
theorem content_withAppended_complete (fdRead : IoRead) (fdAppend : ℤ) (input : Bytes) (a : App) :
    (withAppended fdRead fdAppend input a).content = a.content ++ (input ++ [newline]) := by
  show a.content ++ IoWrite.put fdAppend (input ++ [newline]) = _
  rw [IoWrite.put_coe]

end Analysis

end PsCast
