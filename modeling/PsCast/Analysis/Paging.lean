import PsCast.Model.Menu
import Mathlib.Data.List.Range

/-!
# One page of a list

`Menu::drawList` bounds its loop by the entries left and by the pixels left. Counting the rows
still to come instead of the pixels gives its rows as one interval of the entries
(`drawRows_eq`): a page holds at most eight of them, the first one at the top.
-/

set_option autoImplicit false

namespace PsCast

/-- The row drawn for entry `k` when the cursor is at `index`. -/
def Screen.rowOf (ml : MenuList) (index k : ℕ) : Screen.Row where
  entry := k
  start := 112 + 54 * (k % 8)
  label := (ml.atIndex k).label
  highlighted := index == k

/-- The rows of the page of `index`: its entries in order, each in its place between the
header and the lower edge of the screen, and the highlight behind the one at `index`. -/
structure Screen.Paged (ml : MenuList) (index : ℕ) (rows : List Screen.Row) : Prop where
  entries : rows.map Screen.Row.entry = (List.range ml.size).filter fun k => k / 8 = index / 8
  offsets : ∀ row ∈ rows, row.start = 112 + 54 * (row.entry % 8)
  labels : ∀ row ∈ rows, row.label = (ml.atIndex row.entry).label
  inside : ∀ row ∈ rows, infoHeight + currentContextHeight ≤ row.start ∧
    row.start + entryHeight ≤ displayHeight
  apart : rows.Pairwise fun row below => row.start + entryHeight ≤ below.start
  highlight : (rows.filter Screen.Row.highlighted).map Screen.Row.entry =
    if index < ml.size then [index] else []

namespace Analysis

open Screen

/-- The numbers below `n` in an interval. -/
theorem filter_range_interval (n base k : ℕ) :
    (List.range n).filter (fun i => base ≤ i ∧ i < base + k) =
      List.range' base (min k (n - base)) := by
  induction n with
  | zero => simp
  | succ n ih =>
    rw [List.range_succ, List.filter_append, ih]
    by_cases hin : base ≤ n ∧ n < base + k
    · have hmin : min k (n + 1 - base) = min k (n - base) + 1 := by omega
      have hlast : base + 1 * min k (n - base) = n := by omega
      rw [hmin, List.range'_concat, hlast]
      simp [hin]
    · have hmin : min k (n + 1 - base) = min k (n - base) := by omega
      rw [hmin]
      simp [hin]

/-- The loop of `drawList` when `left` more rows fit below `start`. -/
theorem drawRows_eq (ml : MenuList) (index left i start : ℕ) {fuel : ℕ} (hfuel : left ≤ fuel)
    (hstart : start + 54 * left = 544) (hplace : left = 0 ∨ i % 8 + left = 8) :
    drawRows ml index fuel i start =
      (List.range' i (min left (ml.size - i))).map (rowOf ml index) := by
  induction fuel generalizing left i start with
  | zero =>
    obtain rfl : left = 0 := by omega
    simp [drawRows]
  | succ fuel ih =>
    cases left with
    | zero =>
      have hbelow : ¬ start < displayHeight := by
        unfold displayHeight
        omega
      rw [drawRows, if_neg fun h => hbelow h.2]
      simp
    | succ left =>
      have habove : start < displayHeight := by
        unfold displayHeight
        omega
      by_cases hi : i < ml.size
      · have hrow : start = 112 + 54 * (i % 8) := by omega
        have hcount : min (left + 1) (ml.size - i) = min left (ml.size - (i + 1)) + 1 := by omega
        have hnext := ih left (i + 1) (start + 54) (by omega) (by omega) (by omega)
        have hheight : entryHeight = 54 := rfl
        rw [drawRows, if_pos ⟨hi, habove⟩, hcount, List.range'_succ, List.map_cons, hheight, hnext,
          rowOf, ← hrow]
      · have hcount : min (left + 1) (ml.size - i) = 0 := by omega
        rw [drawRows, if_neg fun h => hi h.1, hcount]
        rfl

/-- **The rows of `drawList`** are those of the entries on the page of the cursor. -/
theorem drawList_eq {s : Screen} {shown : ListId} {ml : MenuList}
    (hshown : s.menu.menuList = some shown) (hml : s.lists shown = some ml) (index : ℕ) :
    s.drawList index =
      some (((List.range ml.size).filter fun k => k / 8 = index % UInt32.size / 8).map
        (rowOf ml (index % UInt32.size))) := by
  have hlt : index % UInt32.size < UInt32.size := Nat.mod_lt _ (by decide)
  have hfirst : index % UInt32.size / entryCount * entryCount % UInt32.size =
      index % UInt32.size / 8 * 8 := by
    apply Nat.mod_eq_of_lt
    show index % UInt32.size / 8 * 8 < UInt32.size
    omega
  have hsome : ¬ (index % UInt32.size / 8 * 8 < ml.size ∧ ml.size < 1) := by omega
  have hpage : (fun k => decide (k / 8 = index % UInt32.size / 8)) =
      fun k => decide (index % UInt32.size / 8 * 8 ≤ k ∧ k < index % UInt32.size / 8 * 8 + 8) := by
    funext k
    apply decide_eq_decide.mpr
    omega
  have hrows := drawRows_eq ml (index % UInt32.size) 8 (index % UInt32.size / 8 * 8) 112
    (show 8 ≤ displayHeight by decide) (by omega) (by omega)
  rw [drawList, hshown]
  simp only [Option.bind_eq_bind, hml, Option.bind_some, hfirst, hsome, if_false, Option.pure_def]
  rw [hpage, filter_range_interval]
  exact congrArg some hrows

/-- The rows of the page with the cursor are a page. -/
theorem rows_paged (ml : MenuList) (index : ℕ) :
    Paged ml index (((List.range ml.size).filter fun k => k / 8 = index / 8).map
      (rowOf ml index)) := by
  have hrow : ∀ row ∈ ((List.range ml.size).filter fun k => k / 8 = index / 8).map
      (rowOf ml index), ∃ k, rowOf ml index k = row := by
    intro row hmem
    obtain ⟨k, -, hk⟩ := List.mem_map.mp hmem
    exact ⟨k, hk⟩
  constructor
  case entries =>
    rw [List.map_map]
    exact List.map_id _
  case offsets =>
    intro row hmem
    obtain ⟨k, rfl⟩ := hrow row hmem
    rfl
  case labels =>
    intro row hmem
    obtain ⟨k, rfl⟩ := hrow row hmem
    rfl
  case inside =>
    intro row hmem
    obtain ⟨k, rfl⟩ := hrow row hmem
    show 112 ≤ 112 + 54 * (k % 8) ∧ 112 + 54 * (k % 8) + 54 ≤ 544
    omega
  case apart =>
    rw [List.pairwise_map]
    have hsorted : ((List.range ml.size).filter fun k => k / 8 = index / 8).Pairwise (· < ·) :=
      List.pairwise_lt_range.filter _
    refine hsorted.imp_of_mem ?_
    intro j k hj hk hjk
    have hj' : j / 8 = index / 8 := by simpa using (List.mem_filter.mp hj).2
    have hk' : k / 8 = index / 8 := by simpa using (List.mem_filter.mp hk).2
    show 112 + 54 * (j % 8) + 54 ≤ 112 + 54 * (k % 8)
    omega
  case highlight =>
    have hcursor : ((List.range ml.size).filter fun k => k / 8 = index / 8).filter
        (Row.highlighted ∘ rowOf ml index) =
        (List.range ml.size).filter fun k => index ≤ k ∧ k < index + 1 := by
      rw [List.filter_filter]
      apply List.filter_congr
      intro k _
      show ((index == k) && decide (k / 8 = index / 8)) = decide (index ≤ k ∧ k < index + 1)
      by_cases hk : index = k
      · simp [hk]
      · have hout : ¬ (index ≤ k ∧ k < index + 1) := by omega
        rw [beq_eq_false_iff_ne.mpr hk, decide_eq_false hout, Bool.false_and]
    rw [List.filter_map, hcursor, filter_range_interval, List.map_map]
    by_cases hin : index < ml.size
    · have hone : min 1 (ml.size - index) = 1 := by omega
      rw [hone, if_pos hin]
      rfl
    · have hnone : min 1 (ml.size - index) = 0 := by omega
      rw [hnone, if_neg hin]
      rfl

/-- **Paging**: for every list and every cursor `drawList` draws the page of the cursor, and
the pages partition the list. -/
theorem drawList_paged (s : Screen) (shown : ListId) (ml : MenuList)
    (hshown : s.menu.menuList = some shown) (hml : s.lists shown = some ml) :
    ∀ index : UInt32, ∃ rows, s.drawList index.toNat = some rows ∧ Paged ml index.toNat rows ∧
      ∀ k, k < ml.size →
        ((∃ row ∈ rows, row.entry = k) ↔ index.toNat / 8 = k / 8) := by
  intro index
  have hindex : index.toNat % UInt32.size = index.toNat := Nat.mod_eq_of_lt index.toNat_lt
  have hdraw := drawList_eq hshown hml index.toNat
  have hpaged := rows_paged ml index.toNat
  rw [hindex] at hdraw
  refine ⟨_, hdraw, hpaged, ?_⟩
  intro k hk
  rw [← List.mem_map, hpaged.entries]
  simp only [List.mem_filter, List.mem_range, hk, true_and, decide_eq_true_eq]
  exact eq_comm

/-- A list of eleven entries, three of which are on its second page. -/
def elevenEntries : MenuList := { entries := List.replicate 11 { label := lit "entry" } }

/-- A screen that shows this list. -/
def elevenScreen : Screen :=
  { menu := { menuList := some .optionsList }, lists := fun _ => some elevenEntries }

/-- The second page, with the cursor on its middle row. -/
theorem drawList_paged_second :
    ∃ rows, elevenScreen.drawList (9 : UInt32).toNat = some rows ∧
      Paged elevenEntries (9 : UInt32).toNat rows ∧
      ∀ k, k < elevenEntries.size →
        ((∃ row ∈ rows, row.entry = k) ↔ (9 : UInt32).toNat / 8 = k / 8) :=
  drawList_paged elevenScreen .optionsList elevenEntries rfl rfl 9

end Analysis

end PsCast
