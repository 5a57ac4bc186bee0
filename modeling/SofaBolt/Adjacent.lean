import Mathlib.Data.List.Nodup
import Mathlib.Tactic

namespace SofaBolt.Adjacent

variable {α : Type*} {l us vs : List α} {a b c p n x : α}

def Adj (l : List α) (a b : α) : Prop := ∃ us vs, l = us ++ a :: b :: vs

theorem Adj.mem_left (h : Adj l a b) : a ∈ l := by
  obtain ⟨us, vs, rfl⟩ := h
  simp

theorem Adj.mem_right (h : Adj l a b) : b ∈ l := by
  obtain ⟨us, vs, rfl⟩ := h
  simp

theorem not_adj_nil : ¬ Adj [] a b := by
  rintro ⟨us, vs, h⟩
  simp at h

theorem not_adj_singleton : ¬ Adj [x] a b := by
  rintro ⟨us, vs, h⟩
  have := congrArg List.length h
  simp at this
  omega

theorem adj_cons_cons : Adj (x :: n :: l) a b ↔ (a = x ∧ b = n) ∨ Adj (n :: l) a b := by
  constructor
  · rintro ⟨us, vs, h⟩
    cases us with
    | nil =>
      simp only [List.nil_append, List.cons.injEq] at h
      exact Or.inl ⟨h.1.symm, h.2.1.symm⟩
    | cons u us =>
      simp only [List.cons_append, List.cons.injEq] at h
      exact Or.inr ⟨us, vs, h.2⟩
  · rintro (⟨rfl, rfl⟩ | ⟨us, vs, h⟩)
    · exact ⟨[], l, rfl⟩
    · exact ⟨x :: us, vs, by rw [h]; rfl⟩

theorem adj_append_cons : Adj (us ++ c :: vs) a b ↔ Adj (us ++ [c]) a b ∨ Adj (c :: vs) a b := by
  induction us with
  | nil =>
    rw [List.nil_append, List.nil_append]
    exact ⟨Or.inr, fun h => h.elim (fun h => absurd h not_adj_singleton) id⟩
  | cons u us ih =>
    cases us with
    | nil =>
      simp only [List.cons_append, List.nil_append, adj_cons_cons]
      simp only [not_adj_singleton, or_false]
    | cons w us =>
      simp only [List.cons_append, adj_cons_cons] at ih ⊢
      rw [ih, or_assoc]

theorem Adj.mem_tail (h : Adj (x :: l) a b) : b ∈ l := by
  obtain ⟨us, vs, h⟩ := h
  cases us with
  | nil =>
    simp only [List.nil_append, List.cons.injEq] at h
    simp [h.2]
  | cons u us =>
    simp only [List.cons_append, List.cons.injEq] at h
    simp [h.2]

theorem exists_adj_of_mem_cons (h : b ∈ l) : ∃ a, Adj (x :: l) a b := by
  obtain ⟨us, vs, rfl⟩ := List.append_of_mem h
  rcases List.eq_nil_or_concat us with rfl | ⟨ws, u, rfl⟩
  · exact ⟨x, [], vs, rfl⟩
  · exact ⟨u, x :: ws, vs, by simp⟩

theorem exists_adj_of_mem_append (h : a ∈ l) : ∃ b, Adj (l ++ [x]) a b := by
  obtain ⟨us, vs, rfl⟩ := List.append_of_mem h
  cases vs with
  | nil => exact ⟨x, us, [], by simp⟩
  | cons v vs => exact ⟨v, us, vs ++ [x], by simp⟩

theorem Adj.unique_right (hn : l.Nodup) (h : Adj l a b) (h' : Adj l a c) : b = c := by
  induction l with
  | nil => exact absurd h not_adj_nil
  | cons x l ih =>
    cases l with
    | nil => exact absurd h not_adj_singleton
    | cons n l =>
      obtain ⟨hx, hn⟩ := List.nodup_cons.mp hn
      rw [adj_cons_cons] at h h'
      rcases h with ⟨rfl, rfl⟩ | h
      · rcases h' with ⟨-, rfl⟩ | h'
        · rfl
        · exact absurd h'.mem_left hx
      · rcases h' with ⟨rfl, -⟩ | h'
        · exact absurd h.mem_left hx
        · exact ih hn h h'

theorem Adj.unique_left (hn : l.Nodup) (h : Adj l a c) (h' : Adj l b c) : a = b := by
  induction l with
  | nil => exact absurd h not_adj_nil
  | cons x l ih =>
    cases l with
    | nil => exact absurd h not_adj_singleton
    | cons n l =>
      obtain ⟨-, hn⟩ := List.nodup_cons.mp hn
      have hhead : ∀ {d}, ¬ Adj (n :: l) d n := fun h => (List.nodup_cons.mp hn).1 h.mem_tail
      rw [adj_cons_cons] at h h'
      rcases h with ⟨rfl, rfl⟩ | h
      · rcases h' with ⟨rfl, -⟩ | h'
        · rfl
        · exact absurd h' hhead
      · rcases h' with ⟨rfl, rfl⟩ | h'
        · exact absurd h hhead
        · exact ih hn h h'

theorem Adj.ne (hn : l.Nodup) (h : Adj l a b) : a ≠ b := by
  obtain ⟨us, vs, rfl⟩ := h
  rintro rfl
  rw [List.nodup_append] at hn
  simp at hn

/-- The neighbours before `p` are those of a list that ends there. -/
theorem adj_append_cons_cons (hn : (us ++ p :: n :: vs).Nodup) :
    (Adj (us ++ [p]) a b ∨ Adj (n :: vs) a b) ↔ a ≠ p ∧ Adj (us ++ p :: n :: vs) a b := by
  constructor
  · rintro (h | h)
    · have hall : Adj (us ++ p :: n :: vs) a b := adj_append_cons.mpr (Or.inl h)
      refine ⟨?_, hall⟩
      rintro rfl
      obtain rfl := hall.unique_right hn ⟨us, vs, rfl⟩
      have hb := h.mem_right
      rw [List.nodup_append] at hn
      rw [List.mem_append, List.mem_singleton] at hb
      rcases hb with hb | rfl
      · exact hn.2.2 b hb b (by simp) rfl
      · simp at hn
    · refine ⟨?_, adj_append_cons.mpr (Or.inr (adj_cons_cons.mpr (Or.inr h)))⟩
      rintro rfl
      rw [List.nodup_append, List.nodup_cons] at hn
      exact hn.2.1.1 h.mem_left
  · rintro ⟨hne, h⟩
    rcases adj_append_cons.mp h with h | h
    · exact Or.inl h
    · rcases adj_cons_cons.mp h with ⟨rfl, -⟩ | h
      · exact absurd rfl hne
      · exact Or.inr h

theorem adj_insert (hn : (us ++ p :: n :: vs).Nodup) :
    Adj (us ++ p :: x :: n :: vs) a b ↔
      (a = p ∧ b = x) ∨ (a = x ∧ b = n) ∨ (a ≠ p ∧ Adj (us ++ p :: n :: vs) a b) := by
  rw [← adj_append_cons_cons hn, adj_append_cons, adj_cons_cons, adj_cons_cons]
  tauto

theorem adj_erase (hn : (us ++ p :: x :: n :: vs).Nodup) :
    Adj (us ++ p :: n :: vs) a b ↔
      (a = p ∧ b = n) ∨ (a ≠ p ∧ a ≠ x ∧ Adj (us ++ p :: x :: n :: vs) a b) := by
  have hn' : (us ++ p :: n :: vs).Nodup := hn.sublist (by simp)
  have hx : x ∉ us ++ p :: n :: vs := by
    rw [List.nodup_append, List.nodup_cons, List.nodup_cons] at hn
    obtain ⟨-, ⟨hp, hx, -⟩, hdis⟩ := hn
    rw [List.mem_append, List.mem_cons]
    rintro (h | rfl | h)
    · exact hdis x h x (by simp) rfl
    · simp at hp
    · exact hx h
  rw [adj_insert hn']
  constructor
  · intro h
    by_cases ha : a = p
    · subst ha
      exact Or.inl ⟨rfl, h.unique_right hn' ⟨us, vs, rfl⟩⟩
    · refine Or.inr ⟨ha, ?_, Or.inr (Or.inr ⟨ha, h⟩)⟩
      rintro rfl
      exact hx h.mem_left
  · rintro (⟨rfl, rfl⟩ | ⟨hp, hx', ⟨rfl, -⟩ | ⟨rfl, -⟩ | ⟨-, h⟩⟩)
    · exact ⟨us, vs, rfl⟩
    · exact absurd rfl hp
    · exact absurd rfl hx'
    · exact h

theorem eq_singleton (hn : l.Nodup) (hh : l.head? = some a) (hl : l.getLast? = some a) :
    l = [a] := by
  cases l with
  | nil => cases hh
  | cons b l =>
    obtain rfl := Option.some.inj hh
    rcases List.eq_nil_or_concat l with rfl | ⟨l, c, rfl⟩
    · rfl
    · rw [List.concat_eq_append, ← List.cons_append, List.getLast?_append_of_ne_nil _ (by simp)] at hl
      obtain rfl : c = b := by simpa using hl
      rw [List.concat_eq_append, List.nodup_cons] at hn
      simp at hn

theorem not_adj_last (hn : l.Nodup) (hl : l.getLast? = some a) : ¬ Adj l a b := by
  rintro ⟨us, vs, rfl⟩
  rw [List.getLast?_append_of_ne_nil _ (by simp), List.getLast?_cons_cons] at hl
  have hmem := List.mem_of_getLast? hl
  rw [List.nodup_append, List.nodup_cons] at hn
  exact hn.2.1.1 hmem

theorem not_adj_head (hn : l.Nodup) (hh : l.head? = some b) : ¬ Adj l a b := by
  cases l with
  | nil => cases hh
  | cons x l =>
    obtain rfl := Option.some.inj hh
    exact fun h => (List.nodup_cons.mp hn).1 h.mem_tail

theorem eq_last_or_adj (h : a ∈ l) : l.getLast? = some a ∨ ∃ b, Adj l a b := by
  obtain ⟨us, vs, rfl⟩ := List.append_of_mem h
  cases vs with
  | nil => exact Or.inl (by simp)
  | cons b vs => exact Or.inr ⟨b, us, vs, rfl⟩

theorem adj_concat (hl : l.getLast? = some p) : Adj (l ++ [x]) a b ↔ Adj l a b ∨ (a = p ∧ b = x) := by
  obtain ⟨us, rfl⟩ : ∃ us, l = us ++ [p] := by
    rw [List.getLast?_eq_some_iff] at hl
    exact hl
  rw [List.append_assoc, List.singleton_append, adj_append_cons, adj_cons_cons]
  simp only [not_adj_singleton, or_false]

end SofaBolt.Adjacent
