import PsCast.Library.History

/-!
# Histories with one captured place

A browser whose back step knows a single place, the one entered last: a step back leaves
that place if it is the current one and does nothing otherwise. `Trail` is this machine.
It follows the history (`Trail.InStep.next_path`) as long as the captured place is the
current one whenever there is something to leave. One entry at depth two breaks this: the
first step back leaves the place that was entered, and after that no step back does
anything (`Trail.backs_length`).
-/

set_option autoImplicit false

namespace PsCast.Library.History

variable {α : Type*} [DecidableEq α]

/-- The places entered and not left, the current one first, and the place captured by the
back step. -/
structure Trail (α : Type*) where
  path : List α
  captured : α

namespace Trail

/-- The trail after a move. Back leaves a place only if it is the one that was captured. -/
def next (t : Trail α) : Move α → Trail α
  | .stay => t
  | .enter a => { path := a :: t.path, captured := a }
  | .back => if t.path.head? = some t.captured then { t with path := Move.back.apply t.path } else t

/-- The trail after some moves. -/
def nextAll (t : Trail α) (moves : List (Move α)) : Trail α := moves.foldl next t

@[simp] theorem nextAll_nil (t : Trail α) : t.nextAll [] = t := rfl

/-- The first move comes first. -/
@[simp] theorem nextAll_cons (t : Trail α) (m : Move α) (moves : List (Move α)) :
    t.nextAll (m :: moves) = (t.next m).nextAll moves := rfl

/-- Back leaves the captured place. -/
theorem next_back_of_current {t : Trail α} (h : t.path.head? = some t.captured) :
    t.next .back = { t with path := Move.back.apply t.path } := if_pos h

/-- Back does nothing in a place that was not captured. -/
theorem next_back_of_other {t : Trail α} (h : t.path.head? ≠ some t.captured) : t.next .back = t :=
  if_neg h

/-- There is nothing to leave, or the captured place is the current one. -/
def InStep (t : Trail α) : Prop := t.path.length ≤ 1 ∨ t.path.head? = some t.captured

/-- A trail in step moves as the history does. -/
theorem InStep.next_path {t : Trail α} (h : t.InStep) (m : Move α) :
    (t.next m).path = m.apply t.path := by
  cases m with
  | stay => rfl
  | enter a => rfl
  | back =>
    rcases h with hshort | hcurrent
    · by_cases hhead : t.path.head? = some t.captured
      · rw [next_back_of_current hhead]
      · rw [next_back_of_other hhead]
        match hpath : t.path, hshort with
        | [], _ => rfl
        | [a], _ => rfl
    · rw [next_back_of_current hcurrent]

/-- Up to depth two, a trail in step stays in step. -/
theorem InStep.next {t : Trail α} (h : t.InStep) (hshort : t.path.length ≤ 2) (m : Move α) :
    (t.next m).InStep := by
  cases m with
  | stay => exact h
  | enter a => exact .inr rfl
  | back =>
    refine .inl ?_
    rw [h.next_path]
    match hpath : t.path, hshort with
    | [], _ => simp [Move.apply]
    | [a], _ => simp [Move.apply]
    | [a, b], _ => simp [Move.apply]

/-- In step with the path, a trail of at most two places goes back as the path does. -/
theorem InStep.backs_path {t : Trail α} (h : t.InStep) (hshort : t.path.length ≤ 2) (k : ℕ) :
    (t.nextAll (List.replicate k .back)).path = applyAll (List.replicate k .back) t.path := by
  induction k generalizing t with
  | zero => rfl
  | succ k ih =>
    have hpath : (t.next .back).path = Move.back.apply t.path := h.next_path .back
    have hshorter := Move.length_back_apply_le t.path
    rw [List.replicate_succ, nextAll_cons, applyAll_cons,
      ih (h.next hshort .back) (by rw [hpath]; omega), hpath]

/-- Where the captured place is not on the path, steps back do nothing. -/
theorem nextAll_backs_of_not_mem (t : Trail α) (h : t.captured ∉ t.path) (k : ℕ) :
    t.nextAll (List.replicate k .back) = t := by
  induction k with
  | zero => rfl
  | succ k ih =>
    have hidle : t.next .back = t :=
      next_back_of_other fun hhead => h (List.mem_of_mem_head? hhead)
    rw [List.replicate_succ, nextAll_cons, hidle, ih]

/-- **Stuck**: once a place is entered on top of two others, no number of steps back leads to
the first place. -/
theorem backs_length {t : Trail α} (hnodup : t.path.Nodup)
    (hcurrent : t.path.head? = some t.captured) (hdeep : 3 ≤ t.path.length) (k : ℕ) :
    2 ≤ (t.nextAll (List.replicate k .back)).path.length := by
  cases k with
  | zero =>
    show 2 ≤ t.path.length
    omega
  | succ k =>
    match hpath : t.path, hdeep with
    | a :: b :: c :: rest, _ =>
      rw [hpath] at hnodup hcurrent
      have hnot : t.captured ∉ b :: c :: rest := by
        rw [← Option.some.inj hcurrent]
        exact (List.nodup_cons.mp hnodup).1
      have hleft : t.next .back = { t with path := b :: c :: rest } := by
        rw [next_back_of_current (by rw [hpath]; exact hcurrent), hpath]
        rfl
      -- the first step back leaves the captured place, all others are idle
      rw [List.replicate_succ, nextAll_cons, hleft, nextAll_backs_of_not_mem _ hnot]
      simp

end Trail

end PsCast.Library.History
