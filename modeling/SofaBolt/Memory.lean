import Mathlib.Tactic

namespace SofaBolt.Memory

variable {α : Type*}

def readAt (m : ℕ → α) (o n : ℕ) : List α := (List.range n).map fun i => m (o + i)

/-- `xs` laid down from offset `o` on; every other cell keeps its value. -/
def writeAt (m : ℕ → α) (o : ℕ) (xs : List α) : ℕ → α := fun i =>
  if o ≤ i then xs[i - o]?.getD (m i) else m i

@[simp] theorem readAt_length (m : ℕ → α) (o n : ℕ) : (readAt m o n).length = n := by
  simp [readAt]

theorem readAt_congr {m m' : ℕ → α} {o n : ℕ}
    (h : ∀ i, o ≤ i → i < o + n → m i = m' i) : readAt m o n = readAt m' o n := by
  refine List.map_congr_left ?_
  intro i hi
  have hi' : i < n := by simpa using hi
  exact h (o + i) (by omega) (by omega)

theorem readAt_add (m : ℕ → α) (o a b : ℕ) :
    readAt m o (a + b) = readAt m o a ++ readAt m (o + a) b := by
  simp [readAt, List.range_add, Function.comp_def, Nat.add_assoc]

theorem readAt_take (m : ℕ → α) (o : ℕ) {k n : ℕ} (h : k ≤ n) :
    (readAt m o n).take k = readAt m o k := by
  obtain ⟨c, rfl⟩ := Nat.exists_eq_add_of_le h
  rw [readAt_add]
  exact List.take_left' (readAt_length m o k)

theorem readAt_drop (m : ℕ → α) (o : ℕ) {k n : ℕ} (h : k ≤ n) :
    (readAt m o n).drop k = readAt m (o + k) (n - k) := by
  obtain ⟨c, rfl⟩ := Nat.exists_eq_add_of_le h
  rw [readAt_add, List.drop_left' (readAt_length m o k)]
  simp

theorem writeAt_of_lt (m : ℕ → α) {o i : ℕ} (xs : List α) (h : i < o) :
    writeAt m o xs i = m i := if_neg (by omega)

theorem readAt_writeAt (m : ℕ → α) (o : ℕ) (xs : List α) :
    readAt (writeAt m o xs) o xs.length = xs := by
  refine List.ext_getElem (by simp) ?_
  intro i h₁ h₂
  simp [readAt, writeAt, List.getElem?_eq_getElem h₂]

end SofaBolt.Memory
