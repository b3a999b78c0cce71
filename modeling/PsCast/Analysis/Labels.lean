import PsCast.Model.App
import PsCast.Library.Erasing

/-!
# Entries by label

`MenuLabel::operator==` asks that the string is longer than the label and that the label
contains it, so no entry ever equals a string (`equals_eq_false`). Looking up an entry by its
label therefore never finds one (`lookupFinds_iff`), and erasing by label erases nothing
(`eraseLabel_eq`). With any other test in the place of the comparison, the loop of `erase`
removes all matches exactly if no two of them are adjacent (`eraseWhere_filter_iff`).
-/

set_option autoImplicit false

namespace PsCast

open Library

/-- Looking `label` up in the list `ml` that the menu shows finds an entry with that label, and
finds nothing if no label contains it. -/
structure Screen.LookupFinds (s : Screen) (ml : MenuList) (label : Bytes) : Prop where
  found : (∃ entry ∈ ml.entries, entry.label = label) →
    ∃ e entry, ml.entries[e]? = some entry ∧ ml.atLabel label = entry ∧ label <:+: entry.label ∧
      entry ≠ {} ∧
      s.setEntryActiveLabel label =
        some (true, { s with menu := { s.menu with entryIndex := e } })
  absent : (∀ entry ∈ ml.entries, ¬ label <:+: entry.label) →
    ml.atLabel label = {} ∧ s.setEntryActiveLabel label = some (false, s)

namespace Analysis

/-! ## The comparison -/

/-- A label contains no string that is longer. -/
theorem equals_eq_false (entry : MenuEntry) (label : Bytes) : entry.equals label = false := by
  unfold MenuEntry.equals
  rw [Bool.and_eq_false_iff, decide_eq_false_iff_not, decide_eq_false_iff_not]
  by_cases hinfix : label <:+: entry.label
  · left
    have hlength := hinfix.length_le
    omega
  · exact .inr hinfix

/-- `list[label]` is the default entry, whatever the label. -/
theorem atLabel_eq (ml : MenuList) (label : Bytes) : ml.atLabel label = {} := by
  have hnone : (ml.entries.find? fun entry => entry.equals label) = none := by
    rw [List.find?_eq_none]
    intro entry _
    rw [equals_eq_false]
    exact Bool.false_ne_true
  rw [MenuList.atLabel, hnone, Option.getD_none]

/-- `setEntryActive` of a label finds nothing and changes nothing. -/
theorem setEntryActiveLabel_eq {s : Screen} {shown : ListId} {ml : MenuList}
    (hshown : s.menu.menuList = some shown) (hml : s.lists shown = some ml) (label : Bytes) :
    s.setEntryActiveLabel label = some (false, s) := by
  have hnone : ((List.range ml.size).find? fun e => (ml.atIndex e).equals label) = none := by
    rw [List.find?_eq_none]
    intro e _
    rw [equals_eq_false]
    exact Bool.false_ne_true
  unfold Screen.setEntryActiveLabel
  simp only [hshown, hml, hnone, Option.bind_eq_bind, Option.bind_some, Option.pure_def]

/-- **Looking up by label** does what it should exactly if there is no entry to be found. -/
theorem lookupFinds_iff (s : Screen) (shown : ListId) (ml : MenuList) (label : Bytes)
    (hshown : s.menu.menuList = some shown) (hml : s.lists shown = some ml) :
    s.LookupFinds ml label ↔ ∀ entry ∈ ml.entries, entry.label ≠ label := by
  have hresult := setEntryActiveLabel_eq hshown hml label
  constructor
  · intro hfinds entry hentry hlabel
    obtain ⟨e, found, -, -, -, -, htrue⟩ := hfinds.found ⟨entry, hentry, hlabel⟩
    rw [hresult] at htrue
    cases htrue
  · intro hother
    refine ⟨?_, fun _ => ⟨atLabel_eq ml label, hresult⟩⟩
    rintro ⟨entry, hentry, hlabel⟩
    exact absurd hlabel (hother entry hentry)

/-- A label that no entry of the main menu has. -/
theorem lookupFinds_main :
    App.start.toScreen.LookupFinds App.mainMenuListInit (lit "delete") ↔
      ∀ entry ∈ App.mainMenuListInit.entries, entry.label ≠ lit "delete" :=
  lookupFinds_iff App.start.toScreen .mainMenuList App.mainMenuListInit (lit "delete") rfl rfl

/-- The entry "update" of the main menu is not found by its label. -/
theorem not_lookupFinds :
    ¬ (∀ (s : Screen) (shown : ListId) (ml : MenuList) (label : Bytes),
      s.menu.menuList = some shown → s.lists shown = some ml → s.LookupFinds ml label) := by
  intro h
  have hfinds := h App.start.toScreen .mainMenuList App.mainMenuListInit (lit "update") rfl rfl
  have hexists : ∃ entry ∈ App.mainMenuListInit.entries, entry.label = lit "update" :=
    ⟨{ label := lit "update", callback := some .updateFromFeedFile },
      by simp [App.mainMenuListInit], rfl⟩
  obtain ⟨e, entry, -, hfound, -, hdefault, -⟩ := hfinds.found hexists
  rw [atLabel_eq] at hfound
  exact hdefault hfound.symm

/-! ## The loop of `erase` -/

/-- The loop at an element that it looks at, with those before it in `front`. -/
theorem eraseLoop_append_cons (isMatch : MenuEntry → Bool) (fuel : ℕ) (front rest : List MenuEntry)
    (entry : MenuEntry) :
    MenuList.eraseLoop isMatch (fuel + 1) front.length (front ++ entry :: rest) =
      MenuList.eraseLoop isMatch fuel (front.length + 1)
        (if isMatch entry then front ++ rest else front ++ entry :: rest) := by
  have hlt : front.length < (front ++ entry :: rest).length := by simp
  have hentry : (front ++ entry :: rest)[front.length]? = some entry := by simp
  have herase : (front ++ entry :: rest).eraseIdx front.length = front ++ rest := by
    rw [List.eraseIdx_append_of_length_le le_rfl, Nat.sub_self, List.eraseIdx_cons_zero]
  rw [MenuList.eraseLoop, if_pos hlt, hentry, herase]
  rfl

/-- At the end of the list the loop stops. -/
theorem eraseLoop_end (isMatch : MenuEntry → Bool) (fuel : ℕ) {e : ℕ} {entries : List MenuEntry}
    (he : entries.length ≤ e) :
    MenuList.eraseLoop isMatch (fuel + 1) e entries = some entries := by
  rw [MenuList.eraseLoop, if_neg (Nat.not_lt.mpr he)]

/-- The loop from any position on, with enough fuel: what is in front stays, the rest is scanned. -/
theorem eraseLoop_eq (isMatch : MenuEntry → Bool) (fuel : ℕ) (front rest : List MenuEntry)
    (hfuel : rest.length < fuel) :
    MenuList.eraseLoop isMatch fuel front.length (front ++ rest) =
      some (front ++ eraseScan isMatch rest) := by
  induction fuel generalizing front rest with
  | zero => exact absurd hfuel (Nat.not_lt_zero _)
  | succ fuel ih =>
    cases rest with
    | nil => exact eraseLoop_end isMatch fuel (by simp)
    | cons entry rest =>
      rw [eraseLoop_append_cons]
      have hrest : rest.length < fuel := Nat.lt_of_succ_lt_succ hfuel
      by_cases hmatch : isMatch entry = true
      · rw [if_pos hmatch]
        cases rest with
        | nil =>
          obtain ⟨fuel, rfl⟩ := Nat.exists_eq_succ_of_ne_zero (Nat.ne_of_gt hrest)
          rw [eraseLoop_end isMatch fuel (by simp), eraseScan, if_pos hmatch]
        -- the element behind the match is now under the index, which moves on
        | cons next rest =>
          have hunseen := ih (front ++ [next]) rest (Nat.lt_of_succ_lt hrest)
          rw [eraseScan_cons_cons hmatch]
          simpa using hunseen
      · rw [if_neg hmatch, eraseScan_cons_of_not (Bool.not_eq_true _ ▸ hmatch)]
        have hseen := ih (front ++ [entry]) rest hrest
        simpa using hseen

/-- Erasing scans the entries, and never reads behind their end. -/
theorem eraseWhere_eq (isMatch : MenuEntry → Bool) (ml : MenuList) :
    ml.eraseWhere isMatch = some { ml with entries := eraseScan isMatch ml.entries } := by
  have hloop := eraseLoop_eq isMatch (ml.entries.length + 1) [] ml.entries (Nat.lt_succ_self _)
  rw [List.length_nil, List.nil_append, List.nil_append] at hloop
  unfold MenuList.eraseWhere
  rw [hloop]
  rfl

/-- **Erasing by a test**: the loop ends and reads inside the list; what it leaves is the list
without its matches, and no match is left, exactly if no two matches are adjacent. -/
theorem eraseWhere_filter_iff (isMatch : MenuEntry → Bool) (ml : MenuList) :
    ∃ left, ml.eraseWhere isMatch = some { ml with entries := left } ∧
      (left = ml.entries.filter (fun entry => !isMatch entry) ↔
        ml.entries.IsChain fun entry next => ¬ (isMatch entry = true ∧ isMatch next = true)) ∧
      ((∀ entry ∈ left, isMatch entry = false) ↔
        ml.entries.IsChain fun entry next => ¬ (isMatch entry = true ∧ isMatch next = true)) := by
  refine ⟨_, eraseWhere_eq isMatch ml, ?_, ?_⟩
  · exact eraseScan_eq_filter_iff ml.entries
  · exact eraseScan_all_iff ml.entries

/-- Of two adjacent matches the second stays. -/
theorem not_eraseWhere_filter :
    ¬ (∀ (isMatch : MenuEntry → Bool) (ml : MenuList),
      ml.eraseWhere isMatch =
        some { ml with entries := ml.entries.filter fun entry => !isMatch entry }) := by
  intro h
  have herase := h (fun _ => true) { entries := [{}, {}] }
  exact absurd herase (by decide)

/-- With the comparison that the list has, nothing is erased. -/
theorem eraseLabel_eq (ml : MenuList) (label : Bytes) : ml.eraseLabel label = some ml := by
  rw [MenuList.eraseLabel, eraseWhere_eq, eraseScan_eq_self]
  intro entry _
  exact equals_eq_false entry label

end Analysis

end PsCast
