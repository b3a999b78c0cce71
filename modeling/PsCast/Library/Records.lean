import Mathlib.Data.List.Basic

/-!
# Files of terminated records

A file is a list of symbols in which a separator ends each record. What stands before the
last separator are the complete records (`records`), what stands after it is the remainder
of the file (`remainder`); the two determine the file (`joined_append_remainder`). The rule
that matters to a writer is `records_append_record`: a record written at the end of a file
is joined to the remainder, so that it becomes a record of its own exactly when there is
none.
-/

set_option autoImplicit false

namespace PsCast.Library.Records

variable {α : Type*} (sep : α)

/-- The file that holds the given records, each of them terminated. -/
def joined (recs : List (List α)) : List α := (recs.map (· ++ [sep])).flatten

@[simp] theorem joined_nil : joined sep [] = [] := rfl

/-- Each record is followed by a separator. -/
@[simp] theorem joined_cons (r : List α) (recs : List (List α)) :
    joined sep (r :: recs) = r ++ sep :: joined sep recs := by
  simp [joined]

/-- Records in two parts. -/
theorem joined_append (recs recs' : List (List α)) :
    joined sep (recs ++ recs') = joined sep recs ++ joined sep recs' := by
  simp [joined]

variable [DecidableEq α]

/-- The complete records of a file, in order. -/
def records (file : List α) : List (List α) := (file.splitOn sep).dropLast

/-- What follows the last separator of a file. -/
def remainder (file : List α) : List α := (file.splitOn sep).getLast (List.splitOn_ne_nil sep file)

variable {sep}

/-- The segments of a file are its records and its remainder. -/
theorem splitOn_eq (sep : α) (file : List α) :
    file.splitOn sep = records sep file ++ [remainder sep file] :=
  (List.dropLast_append_getLast (List.splitOn_ne_nil sep file)).symm

/-- The separator in front splits off the first record. -/
theorem splitOn_joined {recs : List (List α)} (hrecs : ∀ r ∈ recs, sep ∉ r) (rest : List α) :
    (joined sep recs ++ rest).splitOn sep = recs ++ rest.splitOn sep := by
  induction recs with
  | nil => rfl
  | cons r recs ih =>
    obtain ⟨hr, hrecs⟩ := List.forall_mem_cons.mp hrecs
    rw [joined_cons, List.append_assoc, List.cons_append,
      List.splitOn_append_cons_self_of_not_mem hr, ih hrecs, List.cons_append]

/-- A file is split where it was joined: into its records, and the rest behind the last one. -/
theorem records_remainder_joined {recs : List (List α)} (hrecs : ∀ r ∈ recs, sep ∉ r)
    {rest : List α} (hrest : sep ∉ rest) :
    records sep (joined sep recs ++ rest) = recs ∧
      remainder sep (joined sep recs ++ rest) = rest := by
  have hsplit := splitOn_joined hrecs rest
  rw [List.splitOn_eq_singleton hrest, splitOn_eq] at hsplit
  obtain ⟨hrecords, hremainder⟩ := List.append_inj' hsplit rfl
  exact ⟨hrecords, List.singleton_inj.mp hremainder⟩

/-- Joined records are read back. -/
theorem records_joined {recs : List (List α)} (hrecs : ∀ r ∈ recs, sep ∉ r) :
    records sep (joined sep recs) = recs := by
  have h := (records_remainder_joined hrecs (List.not_mem_nil (a := sep))).1
  rwa [List.append_nil] at h

/-- Every file is its records followed by its remainder, none of which holds a separator. -/
theorem exists_joined (sep : α) (file : List α) :
    ∃ recs rest, (∀ r ∈ recs, sep ∉ r) ∧ sep ∉ rest ∧ file = joined sep recs ++ rest := by
  induction file with
  | nil => exact ⟨[], [], by simp, by simp, rfl⟩
  | cons x file ih =>
    obtain ⟨recs, rest, hrecs, hrest, rfl⟩ := ih
    by_cases hx : x = sep
    · refine ⟨[] :: recs, rest, ?_, hrest, ?_⟩
      · exact List.forall_mem_cons.mpr ⟨List.not_mem_nil, hrecs⟩
      · rw [hx, joined_cons, List.nil_append, List.cons_append]
    · cases recs with
      | nil => exact ⟨[], x :: rest, by simp, by simp [Ne.symm hx, hrest], rfl⟩
      | cons r recs =>
        obtain ⟨hr, hrecs⟩ := List.forall_mem_cons.mp hrecs
        refine ⟨(x :: r) :: recs, rest, ?_, hrest, ?_⟩
        · exact List.forall_mem_cons.mpr ⟨by simp [Ne.symm hx, hr], hrecs⟩
        · simp [joined_cons]

/-- A file is its records and its remainder. -/
theorem joined_append_remainder (sep : α) (file : List α) :
    joined sep (records sep file) ++ remainder sep file = file := by
  obtain ⟨recs, rest, hrecs, hrest, rfl⟩ := exists_joined sep file
  obtain ⟨hrecords, hremainder⟩ := records_remainder_joined hrecs hrest
  rw [hrecords, hremainder]

/-- No record contains a separator. -/
theorem not_mem_of_mem_records {file r : List α} (hr : r ∈ records sep file) : sep ∉ r := by
  obtain ⟨recs, rest, hrecs, hrest, rfl⟩ := exists_joined sep file
  rw [(records_remainder_joined hrecs hrest).1] at hr
  exact hrecs r hr

/-- The remainder contains no separator. -/
theorem not_mem_remainder (file : List α) : sep ∉ remainder sep file := by
  obtain ⟨recs, rest, hrecs, hrest, rfl⟩ := exists_joined sep file
  rw [(records_remainder_joined hrecs hrest).2]
  exact hrest

/-- A file without a separator has no record. -/
theorem records_of_not_mem {rest : List α} (h : sep ∉ rest) : records sep rest = [] := by
  rw [records, List.splitOn_eq_singleton h]
  rfl

/-- The first record of a file. -/
theorem records_append_cons {r : List α} (h : sep ∉ r) (file : List α) :
    records sep (r ++ sep :: file) = r :: records sep file := by
  rw [records, records, List.splitOn_append_cons_self_of_not_mem h,
    List.dropLast_cons_of_ne_nil (List.splitOn_ne_nil sep file)]

/-- **Appending a record** to a file: its remainder becomes the beginning of the new record,
and nothing remains. -/
theorem splitOn_append_record (file : List α) {r : List α} (hr : sep ∉ r) :
    (file ++ (r ++ [sep])).splitOn sep = records sep file ++ [remainder sep file ++ r, []] := by
  have hlast : sep ∉ remainder sep file ++ r := by simp [not_mem_remainder, hr]
  have hfile : file ++ (r ++ [sep]) =
      joined sep (records sep file) ++ ((remainder sep file ++ r) ++ sep :: []) := by
    conv_lhs => rw [← joined_append_remainder sep file]
    simp
  rw [hfile, splitOn_joined fun r hr => not_mem_of_mem_records hr,
    List.splitOn_append_cons_self_of_not_mem hlast, List.splitOn_nil]

/-- A record that is appended is joined to the remainder. -/
theorem records_append_record (file : List α) {r : List α} (hr : sep ∉ r) :
    records sep (file ++ (r ++ [sep])) = records sep file ++ [remainder sep file ++ r] := by
  rw [records, splitOn_append_record file hr]
  simp

/-- Nothing remains exactly when the file is empty or ends in a separator. -/
theorem remainder_eq_nil_iff (file : List α) :
    remainder sep file = [] ↔ file = [] ∨ file.getLast? = some sep := by
  have hfile := joined_append_remainder sep file
  constructor
  · intro h
    rw [h, List.append_nil] at hfile
    rcases List.eq_nil_or_concat (records sep file) with hnil | ⟨recs, r, hrecs⟩
    · exact .inl (by rw [← hfile, hnil, joined_nil])
    · refine .inr ?_
      rw [← hfile, hrecs, List.concat_eq_append, joined_append]
      simp
  · rintro (rfl | hlast)
    · rfl
    · by_contra h
      rw [← hfile, List.getLast?_append_of_ne_nil _ h] at hlast
      exact not_mem_remainder file (List.mem_of_getLast? hlast)

/-- Behind a file that ends with a record, another file is read as it stands. -/
theorem records_remainder_append {file : List α} (h : remainder sep file = []) (file' : List α) :
    records sep (file ++ file') = records sep file ++ records sep file' ∧
      remainder sep (file ++ file') = remainder sep file' := by
  obtain ⟨recs, rest, hrecs, hrest, rfl⟩ := exists_joined sep file
  obtain ⟨recs', rest', hrecs', hrest', rfl⟩ := exists_joined sep file'
  obtain ⟨hrecords, hremainder⟩ := records_remainder_joined hrecs hrest
  obtain ⟨hrecords', hremainder'⟩ := records_remainder_joined hrecs' hrest'
  obtain rfl : rest = [] := hremainder.symm.trans h
  have hall : ∀ r ∈ recs ++ recs', sep ∉ r := by
    intro r hr
    rcases List.mem_append.mp hr with hr | hr
    · exact hrecs r hr
    · exact hrecs' r hr
  have hfile : joined sep recs ++ [] ++ (joined sep recs' ++ rest') =
      joined sep (recs ++ recs') ++ rest' := by
    rw [joined_append, List.append_nil, List.append_assoc]
  rw [hfile, hrecords, hrecords', hremainder']
  exact records_remainder_joined hall hrest'

/-- What is written as one record may be several: those that its separators make of it. -/
theorem records_remainder_joined_any (sep : α) (us : List (List α)) :
    records sep (joined sep us) = us.flatMap (fun u => u.splitOn sep) ∧
      remainder sep (joined sep us) = [] := by
  induction us with
  | nil => exact ⟨rfl, rfl⟩
  | cons u us ih =>
    have hone : records sep (u ++ [sep]) = u.splitOn sep ∧ remainder sep (u ++ [sep]) = [] := by
      have hlast : ∀ r ∈ records sep u ++ [remainder sep u], sep ∉ r := by
        intro r hr
        rcases List.mem_append.mp hr with hr | hr
        · exact not_mem_of_mem_records hr
        · rw [List.mem_singleton.mp hr]
          exact not_mem_remainder u
      have hfile : u ++ [sep] = joined sep (records sep u ++ [remainder sep u]) ++ [] := by
        nth_rewrite 1 [← joined_append_remainder sep u]
        simp [joined_append]
      rw [hfile, splitOn_eq]
      exact records_remainder_joined hlast List.not_mem_nil
    have hrest := records_remainder_append hone.2 (joined sep us)
    rw [hone.1, ih.1, ih.2] at hrest
    rwa [joined_cons, ← List.singleton_append, ← List.append_assoc, List.flatMap_cons]

end PsCast.Library.Records
