import Mathlib.Data.List.TakeWhile

namespace CString

structure Holds (m : List UInt8) (p : ℕ) (s : List UInt8) : Prop where
  zero_notMem : 0 ∉ s
  drop_eq : ∃ rest, m.drop p = s ++ 0 :: rest

namespace Holds

variable {m s t : List UInt8} {p : ℕ} {c : UInt8}

theorem getElem?_nil (h : Holds m p []) : m[p]? = some 0 := by
  obtain ⟨rest, hrest⟩ := h.drop_eq
  rw [← List.head?_drop, hrest]
  rfl

theorem getElem?_cons (h : Holds m p (c :: s)) : m[p]? = some c := by
  obtain ⟨rest, hrest⟩ := h.drop_eq
  rw [← List.head?_drop, hrest]
  rfl

theorem ne_zero (h : Holds m p (c :: s)) : c ≠ 0 := by
  rintro rfl
  exact h.zero_notMem List.mem_cons_self

theorem advance (h : Holds m p (s ++ t)) : Holds m (p + s.length) t := by
  obtain ⟨rest, hrest⟩ := h.drop_eq
  refine ⟨fun hmem => h.zero_notMem (List.mem_append_right s hmem), rest, ?_⟩
  rw [← List.drop_drop, hrest, List.append_assoc, List.drop_left]

theorem next (h : Holds m p (c :: s)) : Holds m (p + 1) s := advance (s := [c]) h

theorem length_lt (h : Holds m p s) : s.length < m.length := by
  obtain ⟨rest, hrest⟩ := h.drop_eq
  have hlen := congrArg List.length hrest
  rw [List.length_drop, List.length_append, List.length_cons] at hlen
  omega

theorem append (a : List UInt8) (h : 0 ∉ s) (rest : List UInt8) :
    Holds (a ++ (s ++ 0 :: rest)) a.length s :=
  ⟨h, rest, List.drop_left⟩

theorem exists_append (h : Holds m p s) :
    ∃ a rest, m = a ++ (s ++ 0 :: rest) ∧ a.length = p := by
  obtain ⟨rest, hrest⟩ := h.drop_eq
  have hlen := congrArg List.length hrest
  rw [List.length_drop, List.length_append, List.length_cons] at hlen
  refine ⟨m.take p, rest, ?_, ?_⟩
  · rw [← hrest, List.take_append_drop]
  · rw [List.length_take]
    omega

theorem takeWhile_eq (h : Holds m p s) : (m.drop p).takeWhile (· ≠ 0) = s := by
  obtain ⟨rest, hrest⟩ := h.drop_eq
  have hall : ∀ c ∈ s, decide (c ≠ 0) = true := by
    intro c hc
    refine decide_eq_true ?_
    rintro rfl
    exact h.zero_notMem hc
  rw [hrest, List.takeWhile_append_of_pos hall]
  simp

theorem unique (h : Holds m p s) (h' : Holds m p t) : s = t :=
  h.takeWhile_eq.symm.trans h'.takeWhile_eq

end Holds

structure Replaced (m m' : List UInt8) (p : ℕ) (s s' : List UInt8) : Prop where
  holds : Holds m' p s'
  length_eq : m'.length = m.length
  before : m'.take p = m.take p
  behind : m'.drop (p + s.length + 1) = m.drop (p + s.length + 1)

theorem Replaced.append {a s s' mid rest : List UInt8} (h : 0 ∉ s')
    (hlen : s'.length + mid.length = s.length) :
    Replaced (a ++ (s ++ 0 :: rest)) (a ++ (s' ++ 0 :: (mid ++ rest))) a.length s s' := by
  refine ⟨.append a h _, ?_, ?_, ?_⟩
  · simp only [List.length_append, List.length_cons]
    omega
  · rw [List.take_left, List.take_left]
  · have hold : (s ++ 0 :: rest).drop (s.length + 1) = rest := by
      rw [← List.drop_drop, List.drop_left]
      rfl
    have hnew : (s' ++ 0 :: (mid ++ rest)).drop (s.length + 1) = rest := by
      rw [← hlen, Nat.add_assoc, ← List.drop_drop, List.drop_left, List.drop_succ_cons,
        List.drop_left]
    rw [Nat.add_assoc, List.drop_length_add_append, List.drop_length_add_append, hold, hnew]

structure Points (m : List UInt8) (p : ℕ) (s : List UInt8) : Prop where
  zero_notMem : 0 ∉ s
  drop_eq : m.drop p = s ++ [0]

namespace Points

variable {m s t : List UInt8} {p : ℕ} {c : UInt8}

theorem start (h : 0 ∉ s) : Points (s ++ [0]) 0 s := ⟨h, rfl⟩

theorem holds (h : Points m p s) : Holds m p s := ⟨h.zero_notMem, [], h.drop_eq⟩

theorem getElem?_nil (h : Points m p []) : m[p]? = some 0 := h.holds.getElem?_nil

theorem getElem?_cons (h : Points m p (c :: s)) : m[p]? = some c := h.holds.getElem?_cons

theorem ne_zero (h : Points m p (c :: s)) : c ≠ 0 := h.holds.ne_zero

theorem advance (h : Points m p (s ++ t)) : Points m (p + s.length) t := by
  refine ⟨fun hmem => h.zero_notMem (List.mem_append_right s hmem), ?_⟩
  rw [← List.drop_drop, h.drop_eq, List.append_assoc, List.drop_left]

theorem next (h : Points m p (c :: s)) : Points m (p + 1) s := advance (s := [c]) h

theorem length_eq (h : Points m p s) : m.length = p + s.length + 1 := by
  have hlen := congrArg List.length h.drop_eq
  rw [List.length_drop, List.length_append, List.length_singleton] at hlen
  omega

theorem length_lt (h : Points m p s) : s.length < m.length := h.holds.length_lt

theorem take_eq (h : Points m p (s ++ t)) : (m.drop p).take s.length = s := by
  rw [h.drop_eq, List.append_assoc, List.take_left]

end Points

end CString
