import Mathlib.Data.List.Flatten
import Mathlib.Tactic

namespace SofaBolt.Framing

variable {α : Type*}

def complete : List (List α) → ℕ → List (List α)
  | [], _ => []
  | f :: fs, n => if f.length ≤ n then f :: complete fs (n - f.length) else []

def Pending : List (List α) → List α → Prop
  | [], b => b = []
  | f :: _, b => b.length < f.length

theorem complete_eq {todo : List (List α)} {b : List α} (hb : Pending todo b)
    (done : List (List α)) : complete (done ++ todo) (done.flatten ++ b).length = done := by
  induction done with
  | nil =>
    cases todo with
    | nil => rfl
    | cons f fs =>
      have hlt : ¬ f.length ≤ b.length := not_le.mpr hb
      simp [complete, hlt]
  | cons f done ih =>
    have hle : f.length ≤ ((f :: done).flatten ++ b).length := by simp
    have hsub : ((f :: done).flatten ++ b).length - f.length = (done.flatten ++ b).length := by
      simp
    rw [List.cons_append, complete, if_pos hle, hsub, ih]

theorem complete_flatten (fs : List (List α)) : complete fs fs.flatten.length = fs := by
  have h := complete_eq (show Pending ([] : List (List α)) [] from rfl) fs
  simpa using h

theorem exists_rest {f b : List α} {fs : List (List α)} (hb : b <+: (f :: fs).flatten)
    (hle : f.length ≤ b.length) : ∃ rest, b = f ++ rest ∧ rest <+: fs.flatten := by
  rw [List.flatten_cons] at hb
  obtain ⟨rest, rfl⟩ := List.prefix_of_prefix_length_le (List.prefix_append f fs.flatten) hb hle
  exact ⟨rest, rfl, (List.prefix_append_right_inj f).mp hb⟩

/-- Of a first part of the stream some frames are complete, and less than the next one is left. -/
theorem exists_pending {todo : List (List α)} {b : List α} (hb : b <+: todo.flatten) :
    ∃ done rest part, todo = done ++ rest ∧ b = done.flatten ++ part ∧ part <+: rest.flatten ∧
      Pending rest part := by
  induction todo generalizing b with
  | nil => exact ⟨[], [], b, rfl, rfl, hb, List.prefix_nil.mp hb⟩
  | cons f fs ih =>
    by_cases hle : f.length ≤ b.length
    · obtain ⟨b', rfl, hb'⟩ := exists_rest hb hle
      obtain ⟨done, rest, part, rfl, rfl, hpart, hpend⟩ := ih hb'
      exact ⟨f :: done, rest, part, rfl, by simp, hpart, hpend⟩
    · exact ⟨[], f :: fs, b, rfl, rfl, hb, not_le.mp hle⟩

end SofaBolt.Framing
