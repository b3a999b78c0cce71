import Mathlib.Data.List.Induction

/-!
# Scans of a list of fields

A scan goes through a list of fields and writes what it finds into a record. A member of the
record that each field either overwrites or leaves alone holds, at the end, what the last
field that wrote it had (`foldl_last`); a member to which fields append holds their values in
order (`foldl_collect`). A scan that a field can stop stops at the first one that does, and
is otherwise the scan without that check (`foldlM_check`).
-/

set_option autoImplicit false

namespace PsCast.Library

variable {σ α β ε : Type*}

/-- The value of the last field that has one. -/
def lastOf (value : α → Option β) (l : List α) : Option β := (l.filterMap value).getLast?

@[simp] theorem lastOf_nil (value : α → Option β) : lastOf value [] = none := rfl

/-- The last element is looked at first. -/
theorem lastOf_concat (value : α → Option β) (l : List α) (a : α) :
    lastOf value (l ++ [a]) = (value a).or (lastOf value l) := by
  unfold lastOf
  rw [List.filterMap_append]
  cases h : value a with
  | none => simp [h]
  | some b => simp [h]

/-- The last field that has a value is the last one. -/
theorem lastOf_append_cons {value : α → Option β} {a : α} {b : β} (ha : value a = some b)
    {rest : List α} (hrest : ∀ c ∈ rest, value c = none) (front : List α) :
    lastOf value (front ++ a :: rest) = some b := by
  unfold lastOf
  rw [List.filterMap_append, List.filterMap_cons_some ha, List.filterMap_eq_nil_iff.mpr hrest]
  exact List.getLast?_concat

/-- Nothing is found where no element has a value. -/
theorem lastOf_eq_none {value : α → Option β} {l : List α} (h : ∀ a ∈ l, value a = none) :
    lastOf value l = none := by
  unfold lastOf
  rw [List.filterMap_eq_nil_iff.mpr h]
  rfl

/-- **The last write stays.** -/
theorem foldl_last {step : σ → α → σ} (get : σ → β) (value : α → Option β)
    (h : ∀ s a, get (step s a) = (value a).getD (get s)) (l : List α) (s : σ) :
    get (l.foldl step s) = (lastOf value l).getD (get s) := by
  induction l using List.reverseRecOn with
  | nil => rfl
  | append_singleton l a ih =>
    rw [List.foldl_append, List.foldl_cons, List.foldl_nil, h, ih, lastOf_concat]
    cases value a <;> rfl

/-- A part of the state that no step changes is that of the beginning. -/
theorem foldl_keep {step : σ → α → σ} (get : σ → β) (h : ∀ s a, get (step s a) = get s) (l : List α)
    (s : σ) : get (l.foldl step s) = get s := by
  induction l generalizing s with
  | nil => rfl
  | cons a l ih => rw [List.foldl_cons, ih, h]

/-- **A scan of scans** is a scan of all that they go through. -/
theorem foldl_nested {τ γ : Type*} {step : σ → α → σ} (get : σ → τ) (inner : τ → γ → τ)
    (f : α → List γ) (h : ∀ s a, get (step s a) = (f a).foldl inner (get s)) (l : List α) (s : σ) :
    get (l.foldl step s) = (l.flatMap f).foldl inner (get s) := by
  induction l generalizing s with
  | nil => rfl
  | cons a l ih => rw [List.foldl_cons, ih, h, List.flatMap_cons, List.foldl_append]

/-- **What is appended is collected.** -/
theorem foldl_collect {step : σ → α → σ} (get : σ → List β) (value : α → Option β) (l : List α)
    (h : ∀ s, ∀ a ∈ l, get (step s a) = get s ++ (value a).toList) (s : σ) :
    get (l.foldl step s) = get s ++ l.filterMap value := by
  induction l generalizing s with
  | nil => simp
  | cons a l ih =>
    have hrest := ih fun s b hb => h s b (List.mem_cons_of_mem a hb)
    rw [List.foldl_cons, hrest, h s a List.mem_cons_self, List.append_assoc]
    cases hv : value a <;> simp [hv]

/-- **A scan that a field can stop.** -/
theorem foldlM_check {step : σ → α → Except ε σ} (check : α → Option ε) (update : σ → α → σ)
    (h : ∀ s a, step s a = (check a).elim (.ok (update s a)) .error) (l : List α) (s : σ) :
    l.foldlM step s = (l.findSome? check).elim (.ok (l.foldl update s)) .error := by
  induction l generalizing s with
  | nil => rfl
  | cons a l ih =>
    rw [List.foldlM_cons, h, List.findSome?_cons]
    cases hc : check a with
    | none => exact ih (update s a)
    | some e => rfl

/-- A check with one failure finds it where some element fails. -/
theorem findSome?_ite (p : α → Prop) [DecidablePred p] (e : ε) (l : List α)
    [Decidable (∃ a ∈ l, p a)] :
    (l.findSome? fun a => if p a then some e else none) =
      if ∃ a ∈ l, p a then some e else none := by
  split
  · rename_i h
    obtain ⟨a, ha, hp⟩ := h
    cases hfind : l.findSome? fun a => if p a then some e else none with
    | none =>
      have hnone := List.findSome?_eq_none_iff.mp hfind a ha
      rw [if_pos hp] at hnone
      cases hnone
    | some e' =>
      obtain ⟨b, -, hb⟩ := List.exists_of_findSome?_eq_some hfind
      split at hb
      · exact hb.symm
      · cases hb
  · rename_i h
    rw [List.findSome?_eq_none_iff]
    intro a ha
    exact if_neg fun hp => h ⟨a, ha, hp⟩

end PsCast.Library
