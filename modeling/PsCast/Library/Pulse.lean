import Mathlib.Data.Nat.Count
import Mathlib.Data.Set.Card

/-!
# Pulses of a signal

A signal is on or off at each time, and off before time zero. A pulse is a stretch in which
it is on, from the time it goes on to the time it is off again. `falls` marks the times at
which the signal is off and was on right before: there a pulse ends (`falls_iff_exists_pulse`),
and since a pulse is known by its end, the marks before a time count the pulses that are
complete by then (`ncard_pulses`).
-/

set_option autoImplicit false

namespace PsCast.Library

/-- The signal goes on at `i`, stays on before `j`, and is off at `j`. -/
structure Pulse (signal : ℕ → Bool) (i j : ℕ) : Prop where
  begins : ∀ t, t + 1 = i → signal t = false
  lasts : i < j
  stays : ∀ t, i ≤ t → t < j → signal t = true
  ends : signal j = false

/-- The signal is off and was on right before. -/
def falls (signal : ℕ → Bool) : ℕ → Bool
  | 0 => false
  | t + 1 => signal t && !signal (t + 1)

variable {signal : ℕ → Bool}

/-- A signal that is on went on some time before. -/
theorem exists_begin {t : ℕ} (ht : signal t = true) :
    ∃ i, i ≤ t ∧ (∀ s, i ≤ s → s ≤ t → signal s = true) ∧
      ∀ s, s + 1 = i → signal s = false := by
  induction t with
  | zero =>
    refine ⟨0, le_rfl, ?_, ?_⟩
    · intro s _ hs
      rwa [Nat.le_zero.mp hs]
    · intro s hs
      omega
  | succ t ih =>
    by_cases hbefore : signal t = true
    · obtain ⟨i, hi, hstays, hbegins⟩ := ih hbefore
      refine ⟨i, by omega, ?_, hbegins⟩
      intro s his hs
      by_cases hlast : s = t + 1
      · rwa [hlast]
      · apply hstays s his
        omega
    · refine ⟨t + 1, le_rfl, ?_, ?_⟩
      · intro s his hs
        obtain rfl : s = t + 1 := by omega
        exact ht
      · intro s hs
        obtain rfl : s = t := by omega
        exact Bool.not_eq_true _ ▸ hbefore

/-- A pulse ends where the signal falls. -/
theorem falls_iff_exists_pulse (j : ℕ) : falls signal j = true ↔ ∃ i, Pulse signal i j := by
  cases j with
  | zero =>
    apply iff_of_false
    · exact Bool.false_ne_true
    · rintro ⟨i, hpulse⟩
      exact absurd hpulse.lasts (Nat.not_lt_zero i)
  | succ t =>
    rw [falls, Bool.and_eq_true, Bool.not_eq_true']
    constructor
    · rintro ⟨hon, hoff⟩
      obtain ⟨i, hi, hstays, hbegins⟩ := exists_begin hon
      refine ⟨i, hbegins, by omega, ?_, hoff⟩
      intro s his hs
      exact hstays s his (by omega)
    · rintro ⟨i, hpulse⟩
      have hlasts := hpulse.lasts
      exact ⟨hpulse.stays t (by omega) (by omega), hpulse.ends⟩

/-- Of two pulses with the same end neither begins inside the other. -/
theorem Pulse.begin_unique {i i' j : ℕ} (h : Pulse signal i j) (h' : Pulse signal i' j) :
    i = i' := by
  have hle : ∀ {i i' : ℕ}, Pulse signal i j → Pulse signal i' j → i' ≤ i := by
    intro i i' h h'
    by_contra hlt
    have hlasts := h'.lasts
    have hoff := h'.begins (i' - 1) (by omega)
    have hon := h.stays (i' - 1) (by omega) (by omega)
    rw [hoff] at hon
    cases hon
  exact Nat.le_antisymm (hle h' h) (hle h h')

/-- **Counting pulses** by their ends. -/
theorem ncard_pulses (signal : ℕ → Bool) (n : ℕ) :
    {p : ℕ × ℕ | p.2 < n ∧ Pulse signal p.1 p.2}.ncard =
      Nat.count (fun j => falls signal j = true) n := by
  rw [Nat.count_eq_card_filter_range, ← Set.ncard_coe_finset]
  apply Set.ncard_congr fun p _ => p.2
  · rintro ⟨i, j⟩ ⟨hj, hpulse⟩
    rw [Finset.mem_coe, Finset.mem_filter, Finset.mem_range]
    exact ⟨hj, (falls_iff_exists_pulse j).mpr ⟨i, hpulse⟩⟩
  · rintro ⟨i, j⟩ ⟨i', j'⟩ ⟨-, hpulse⟩ ⟨-, hpulse'⟩ heq
    obtain rfl : j = j' := heq
    obtain rfl : i = i' := hpulse.begin_unique hpulse'
    rfl
  · intro j hj
    rw [Finset.mem_coe, Finset.mem_filter, Finset.mem_range] at hj
    obtain ⟨i, hpulse⟩ := (falls_iff_exists_pulse j).mp hj.2
    exact ⟨(i, j), ⟨hj.1, hpulse⟩, rfl⟩

end PsCast.Library
