import SofaBolt.StringSplit
import SofaBolt.Trim

namespace SofaBolt.Utils

def pred (length : ℕ) : ℕ := if length = 0 then 2 ^ 64 - 1 else length - 1

/-- `while (std::isspace(*data)) { ++data; --length; }`, with the places that it reads. -/
def skipLeft (m : Bytes) : ℕ → ℕ → ℕ → Except Fault (ℕ × ℕ × List ℕ)
  | 0, _, _ => .error .endless
  | fuel + 1, data, length => do
    let c ← read m data
    let blank ← isspace c
    if blank then do
      let (data', length', reads) ← skipLeft m fuel (data + 1) (pred length)
      .ok (data', length', data :: reads)
    else .ok (data, length, [data])

/-- `while (p != data && std::isspace(*--p)) --length`, with the places that it reads. -/
def skipRight (m : Bytes) (data : ℕ) : ℕ → ℕ → Except Fault (ℕ × List ℕ)
  -- `--p` would leave the text in front
  | 0, length => if data = 0 then .ok (length, []) else .error .outside
  | p + 1, length =>
    if p + 1 = data then .ok (length, [])
    else do
      let c ← read m p
      let blank ← isspace c
      if blank then do
        let (length', reads) ← skipRight m data p (pred length)
        .ok (length', p :: reads)
      else .ok (length, [p])

/-- `data + length`, which has to stay in the text or right behind it. -/
def pointer (m : Bytes) (data length : ℕ) : Except Fault ℕ :=
  if data + length ≤ m.length then .ok (data + length) else .error .outside

/-- `trim(string_view&)`: the new view and the places that were read. -/
def trimView (m : Bytes) (view : View) : Except Fault (View × List ℕ) := do
  let (data, length, left) ← skipLeft m (m.length + 1) view.pos view.length
  let p ← pointer m data length
  let (length, right) ← skipRight m data p length
  .ok (⟨data, length⟩, left ++ right)

variable {m s t rest : Bytes} {data length fuel : ℕ} {c : UInt8}

theorem pred_succ (n : ℕ) : pred (n + 1) = n := rfl

theorem skipLeft_blank (hread : m.drop data = c :: rest) (hc : isBlank c) :
    skipLeft m (fuel + 1) data length =
      (skipLeft m fuel (data + 1) (pred length)).map fun r => (r.1, r.2.1, data :: r.2.2) := by
  simp only [skipLeft, read_of_drop hread, isspace_blank hc, bind, Except.bind, if_true]
  cases skipLeft m fuel (data + 1) (pred length) <;> rfl

theorem skipLeft_blanks (fuel length : ℕ) (hs : ∀ c ∈ s, isBlank c) (hm : m.drop data = s ++ rest) :
    skipLeft m (fuel + s.length) data (length + s.length) =
      (skipLeft m fuel (data + s.length) length).map
        fun r => (r.1, r.2.1, List.range' data s.length ++ r.2.2) := by
  induction s generalizing data with
  | nil =>
    rw [List.length_nil, Nat.add_zero, Nat.add_zero, Nat.add_zero]
    cases skipLeft m fuel data length <;> rfl
  | cons c s ih =>
    have hnext : m.drop (data + 1) = s ++ rest := by
      rw [← List.drop_drop, hm]
      rfl
    rw [List.length_cons, ← Nat.add_assoc, ← Nat.add_assoc,
      skipLeft_blank hm (hs c List.mem_cons_self), pred_succ,
      ih (fun c hc => hs c (List.mem_cons_of_mem _ hc)) hnext, Nat.add_right_comm, Nat.add_assoc]
    cases skipLeft m fuel (data + (s.length + 1)) length <;> rfl

theorem skipLeft_other (hread : m.drop data = c :: rest) (hc : ¬ isBlank c) :
    skipLeft m (fuel + 1) data length =
      if InDomain (some c) then .ok (data, length, [data]) else .error .isspace := by
  simp only [skipLeft, read_of_drop hread, isspace_other hc, bind, Except.bind]
  split_ifs <;> rfl

theorem skipLeft_first (fuel length : ℕ) (hs : ∀ c ∈ s, isBlank c) (hc : ¬ isBlank c)
    (hm : m.drop data = s ++ c :: rest) :
    skipLeft m (fuel + 1 + s.length) data (length + s.length) =
      if InDomain (some c) then
        .ok (data + s.length, length, List.range' data (s.length + 1))
      else .error .isspace := by
  have hread : m.drop (data + s.length) = c :: rest := by
    rw [← List.drop_drop, hm, List.drop_left]
  rw [skipLeft_blanks _ _ hs hm, skipLeft_other hread hc, List.range'_1_concat]
  split_ifs <;> rfl

theorem ok_of_bind {α β : Type} {x : Except Fault α} {f : α → Except Fault β} {b : β}
    (h : x.bind f = .ok b) : ∃ a, x = .ok a ∧ f a = .ok b := by
  cases x with
  | error e => cases h
  | ok a => exact ⟨a, rfl, h⟩

theorem skipLeft_reads {r : ℕ × ℕ × List ℕ} (h : skipLeft m fuel data length = .ok r) :
    data ∈ r.2.2 := by
  cases fuel with
  | zero => cases h
  | succ fuel =>
    obtain ⟨c, -, h⟩ := ok_of_bind h
    obtain ⟨blank, -, h⟩ := ok_of_bind h
    cases blank with
    | false =>
      cases h
      exact List.mem_cons_self
    | true =>
      obtain ⟨r', -, h⟩ := ok_of_bind h
      cases h
      exact List.mem_cons_self

theorem skipRight_self (length : ℕ) : skipRight m data data length = .ok (length, []) := by
  cases data with
  | zero => rfl
  | succ data => rw [skipRight, if_pos rfl]

theorem skipRight_eq (hm : m.drop data = t ++ rest) :
    ∃ reads, (∀ i ∈ reads, data ≤ i ∧ i < data + t.length) ∧
      skipRight m data (data + t.length) t.length =
        if InDomain (t.rdropWhile isBlank).getLast? then
          .ok ((t.rdropWhile isBlank).length, reads)
        else .error .isspace := by
  induction t using List.reverseRecOn generalizing rest with
  | nil => exact ⟨[], by simp, skipRight_self 0⟩
  | append_singleton t x ih =>
    rw [List.append_assoc, List.singleton_append] at hm
    have hread : m.drop (data + t.length) = x :: rest := by
      rw [← List.drop_drop, hm, List.drop_left]
    have hne : data + t.length + 1 ≠ data := by omega
    rw [List.length_append, List.length_singleton, ← Nat.add_assoc, skipRight, if_neg hne]
    simp only [read_of_drop hread, bind, Except.bind]
    by_cases hx : isBlank x
    · obtain ⟨reads, hreads, heq⟩ := ih hm
      refine ⟨(data + t.length) :: reads, ?_, ?_⟩
      · intro i hi
        rcases List.mem_cons.mp hi with rfl | hi
        · omega
        · have := hreads i hi
          omega
      · rw [List.rdropWhile_concat_pos _ _ _ hx, isspace_blank hx, pred_succ, heq]
        split_ifs <;> rfl
    · refine ⟨[data + t.length], ?_, ?_⟩
      · intro i hi
        rw [List.mem_singleton] at hi
        omega
      · rw [List.rdropWhile_concat_neg _ _ _ hx, List.getLast?_concat, isspace_other hx,
          List.length_append, List.length_singleton]
        split_ifs <;> rfl

def View.trimmed (m : Bytes) (v : View) : View :=
  ⟨v.pos + ((v.content m).takeWhile isBlank).length, (Utils.trimmed (v.content m)).length⟩

variable {v : View}

theorem View.drop_eq (m : Bytes) (v : View) :
    m.drop v.pos = v.content m ++ m.drop (v.pos + v.length) := by
  rw [View.content, substr, ← List.drop_drop, List.take_append_drop]

theorem View.length_content (hv : v.pos + v.length ≤ m.length) :
    (v.content m).length = v.length := by
  rw [View.content, substr, List.length_take, List.length_drop]
  omega

/-- A view of blanks `w` and then of the characters `c` and `u`: the first loop stops at
`c`, and the second runs down to it at most. -/
theorem trimView_split {w u : Bytes} (hw : ∀ x ∈ w, isBlank x) (hc : ¬ isBlank c)
    (hm : m.drop v.pos = w ++ (c :: u ++ rest)) (hlen : w.length + (c :: u).length = v.length)
    (hv : v.pos + v.length ≤ m.length) :
    ∃ reads, (∀ i ∈ reads, v.pos ≤ i ∧ i < v.pos + v.length) ∧
      trimView m v =
        if InDomain (some c) ∧ InDomain ((c :: u).rdropWhile isBlank).getLast? then
          .ok (⟨v.pos + w.length, ((c :: u).rdropWhile isBlank).length⟩, reads)
        else .error .isspace := by
  have hrest : m.drop (v.pos + w.length) = c :: u ++ rest := by
    rw [← List.drop_drop, hm, List.drop_left]
  have hfuel : m.length + 1 = m.length - w.length + 1 + w.length := by omega
  have hp : pointer m (v.pos + w.length) (c :: u).length =
      .ok (v.pos + w.length + (c :: u).length) := if_pos (by omega)
  have hleft := skipLeft_first (m.length - w.length) (c :: u).length hw hc hm
  obtain ⟨right, hright, heq⟩ := skipRight_eq hrest
  rw [← hfuel, Nat.add_comm (c :: u).length, hlen] at hleft
  refine ⟨List.range' v.pos (w.length + 1) ++ right, ?_, ?_⟩
  · intro i hi
    rw [List.length_cons] at hlen hright
    rcases List.mem_append.mp hi with hi | hi
    · rw [List.mem_range'_1] at hi
      omega
    · have := hright i hi
      omega
  · by_cases hdom : InDomain (some c)
    · rw [if_pos hdom] at hleft
      simp only [trimView, hleft, hp, heq, bind, Except.bind, hdom, true_and]
      split_ifs <;> rfl
    · rw [if_neg hdom] at hleft
      rw [trimView, hleft, if_neg fun h => hdom h.1]
      rfl

theorem trimView_eq (hv : v.pos + v.length ≤ m.length) (h : ∃ c ∈ v.content m, ¬ isBlank c) :
    ∃ reads, (∀ i ∈ reads, v.pos ≤ i ∧ i < v.pos + v.length) ∧
      trimView m v = if InDomain (trimmed (v.content m)).head? ∧
          InDomain (trimmed (v.content m)).getLast? then .ok (v.trimmed m, reads)
        else .error .isspace := by
  have hlen := v.length_content hv
  have hdrop := v.drop_eq m
  have hsplit := List.takeWhile_append_dropWhile (p := isBlank) (l := v.content m)
  have hhead := head?_kept ((v.content m).dropWhile isBlank)
  rw [kept_dropWhile] at hhead
  rw [View.trimmed, hhead, trimmed]
  cases hother : (v.content m).dropWhile isBlank with
  | nil =>
    obtain ⟨c, hc, hne⟩ := h
    exact absurd (List.dropWhile_eq_nil_iff.mp hother c hc) hne
  | cons c u =>
    rw [← hsplit, hother, List.append_assoc] at hdrop
    rw [← hsplit, hother, List.length_append] at hlen
    exact trimView_split (fun x hx => List.mem_takeWhile_imp hx)
      (not_isBlank_of_dropWhile hother) hdrop hlen hv

/-- A view of white space: the first loop reads the place behind it. -/
theorem skipLeft_all_blank {r : ℕ × ℕ × List ℕ} (hv : v.pos + v.length ≤ m.length)
    (hblank : ∀ c ∈ v.content m, isBlank c)
    (h : skipLeft m (m.length + 1) v.pos v.length = .ok r) : v.pos + v.length ∈ r.2.2 := by
  have hlen := v.length_content hv
  obtain ⟨fuel, hfuel⟩ := Nat.exists_eq_add_of_le' (show v.length ≤ m.length + 1 by omega)
  have hskip := skipLeft_blanks fuel 0 hblank (v.drop_eq m)
  rw [hlen, ← hfuel, Nat.zero_add, h] at hskip
  cases hr' : skipLeft m fuel (v.pos + v.length) 0 with
  | error e =>
    rw [hr'] at hskip
    cases hskip
  | ok r' =>
    rw [hr'] at hskip
    cases hskip
    exact List.mem_append_right _ (skipLeft_reads hr')

theorem trimView_reads {v' : View} {reads : List ℕ} (h : trimView m v = .ok (v', reads)) :
    ∃ r, skipLeft m (m.length + 1) v.pos v.length = .ok r ∧ r.2.2 ⊆ reads := by
  obtain ⟨r, hleft, h⟩ := ok_of_bind h
  obtain ⟨p, -, h⟩ := ok_of_bind h
  obtain ⟨r', -, h⟩ := ok_of_bind h
  cases h
  exact ⟨r, hleft, List.subset_append_left _ _⟩

/-- The view is trimmed without a read outside it exactly when it has a character that
is not white space, and `isspace` is defined for the first and the last of them. -/
theorem trimView_inside_iff (m : Bytes) (v : View) (hv : v.pos + v.length ≤ m.length) :
    (∃ reads, trimView m v = .ok (v.trimmed m, reads) ∧
      ∀ i ∈ reads, v.pos ≤ i ∧ i < v.pos + v.length) ↔
    (∃ c ∈ v.content m, ¬ isBlank c) ∧ InDomain (trimmed (v.content m)).head? ∧
      InDomain (trimmed (v.content m)).getLast? := by
  by_cases h : ∃ c ∈ v.content m, ¬ isBlank c
  · obtain ⟨reads, hinside, heq⟩ := trimView_eq hv h
    constructor
    · rintro ⟨reads', hok, -⟩
      rw [heq] at hok
      split_ifs at hok with hdom
      exact ⟨h, hdom⟩
    · rintro ⟨-, hdom⟩
      exact ⟨reads, by rw [heq, if_pos hdom], hinside⟩
  · refine iff_of_false ?_ fun hall => h hall.1
    rintro ⟨reads, hok, hinside⟩
    have hblank : ∀ c ∈ v.content m, isBlank c := fun c hc => not_not.mp fun hne => h ⟨c, hc, hne⟩
    obtain ⟨r, hr, hsub⟩ := trimView_reads hok
    exact Nat.lt_irrefl _ (hinside _ (hsub (skipLeft_all_blank hv hblank hr))).2

theorem trimView_inside_sample :
    ∃ reads, trimView [120, 32, 97, 32, 32] ⟨1, 3⟩ = .ok (⟨2, 1⟩, reads) ∧
      ∀ i ∈ reads, 1 ≤ i ∧ i < 1 + 3 :=
  (trimView_inside_iff [120, 32, 97, 32, 32] ⟨1, 3⟩ (by decide)).mpr
    ⟨⟨97, by decide, by decide⟩, by decide, by decide⟩

/-- Views of white space.  The first reads the character behind it, also if the view is
empty; the length of the second goes below zero, and `data + length` leaves the text. -/
theorem trimView_blank :
    trimView [32, 120] ⟨0, 1⟩ = .ok (⟨1, 0⟩, [0, 1]) ∧
      trimView [120] ⟨0, 0⟩ = .ok (⟨0, 0⟩, [0]) ∧
      skipLeft [32, 32, 120] 4 0 1 = .ok (2, 2 ^ 64 - 1, [0, 1, 2]) ∧
      trimView [32, 32, 120] ⟨0, 1⟩ = .error .outside :=
  ⟨rfl, rfl, rfl, rfl⟩

end SofaBolt.Utils
