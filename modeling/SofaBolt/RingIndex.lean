import Mathlib.Tactic

namespace SofaBolt.RingIndex

/-- `idx & _mask`. -/
def slot (capacity i : ℕ) : ℕ := i &&& (capacity - 1)

/-- `write >= read + _capacity`. -/
def isFull (capacity read write : ℕ) : Bool := (read + capacity) % 2 ^ 64 ≤ write

/-- `idx + 1`. -/
def next (i : ℕ) : ℕ := (i + 1) % 2 ^ 64

variable {k i j read write : ℕ}

theorem slot_two_pow (k i : ℕ) : slot (2 ^ k) i = i % 2 ^ k := Nat.and_two_pow_sub_one_eq_mod i k

theorem slot_lt (k i : ℕ) : slot (2 ^ k) i < 2 ^ k := by
  rw [slot_two_pow]
  exact Nat.mod_lt _ (Nat.two_pow_pos k)

theorem slot_add_capacity (k i : ℕ) : slot (2 ^ k) (i + 2 ^ k) = slot (2 ^ k) i := by
  rw [slot_two_pow, slot_two_pow, Nat.add_mod_right]

theorem slot_ne_of_window (lo : ℕ) (hi : lo ≤ i) (hi' : i < lo + 2 ^ k) (hj : lo ≤ j)
    (hj' : j < lo + 2 ^ k) (hne : i ≠ j) : slot (2 ^ k) i ≠ slot (2 ^ k) j := by
  rw [slot_two_pow, slot_two_pow]
  intro hmod
  apply hne
  apply Nat.ModEq.eq_of_abs_lt (m := 2 ^ k) hmod
  rw [abs_lt]
  zify at *
  constructor <;> linarith

theorem exists_slot_eq (lo : ℕ) (hj : j < 2 ^ k) :
    ∃ i, lo ≤ i ∧ i < lo + 2 ^ k ∧ slot (2 ^ k) i = j := by
  have hmod := Nat.mod_lt lo (Nat.two_pow_pos k)
  have hdiv := Nat.div_add_mod lo (2 ^ k)
  by_cases hle : lo % 2 ^ k ≤ j
  · refine ⟨2 ^ k * (lo / 2 ^ k) + j, by omega, by omega, ?_⟩
    rw [slot_two_pow, Nat.mul_add_mod, Nat.mod_eq_of_lt hj]
  · refine ⟨2 ^ k * (lo / 2 ^ k) + j + 2 ^ k, by omega, by omega, ?_⟩
    rw [slot_add_capacity, slot_two_pow, Nat.mul_add_mod, Nat.mod_eq_of_lt hj]

/-- A ring that is not full has a slot left for `write`, which does not wrap. -/
theorem lt_of_not_isFull {capacity : ℕ} (h : isFull capacity read write = false) :
    write < read + capacity ∧ write + 1 < 2 ^ 64 := by
  have hlt : write < (read + capacity) % 2 ^ 64 := by simpa [isFull] using h
  have h₁ := Nat.mod_le (read + capacity) (2 ^ 64)
  have h₂ := Nat.mod_lt (read + capacity) (Nat.two_pow_pos 64)
  omega

theorem next_eq (h : i + 1 < 2 ^ 64) : next i = i + 1 := Nat.mod_eq_of_lt h

end SofaBolt.RingIndex
