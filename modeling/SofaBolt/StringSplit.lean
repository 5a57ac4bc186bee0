import SofaBolt.Block

/- Each function is a loop over `find`, which for a string need not end, so that it has a
number of rounds here. -/

namespace SofaBolt.Utils

/-- `src.find(d, pos)`. -/
def findChar (src : Bytes) (d : UInt8) (pos : ℕ) : Option ℕ :=
  ((src.drop pos).findIdx? (· = d)).map (pos + ·)

def findFirst (delimiter : Bytes) : Bytes → Option ℕ
  | [] => if delimiter = [] then some 0 else none
  | c :: s =>
    if delimiter.isPrefixOf (c :: s) then some 0 else (findFirst delimiter s).map (1 + ·)

/-- `src.find(delimiter, pos)`. -/
def findString (src delimiter : Bytes) (pos : ℕ) : Option ℕ :=
  if pos ≤ src.length then (findFirst delimiter (src.drop pos)).map (pos + ·) else none

/-- `src.substr(pos, n)`. -/
def substr (src : Bytes) (pos n : ℕ) : Bytes := (src.drop pos).take n

/-- The loop that the functions share, from `pos1` on: `step` is the length of the
delimiter and `piece` what is kept of a piece. -/
def splitLoop {β : Type} (find : ℕ → Option ℕ) (step length : ℕ) (piece : ℕ → ℕ → β) :
    ℕ → ℕ → Option (List β)
  | 0, _ => none
  | fuel + 1, pos1 =>
    match find pos1 with
    | some pos2 =>
      (splitLoop find step length piece fuel (pos2 + step)).map (piece pos1 (pos2 - pos1) :: ·)
    | none => some (if pos1 ≠ length then [piece pos1 (length - pos1)] else [])

def stringSplit (fuel : ℕ) (src : Bytes) (delimiter : UInt8) : Option (List Bytes) :=
  splitLoop (findChar src delimiter) 1 src.length (substr src) fuel 0

def stringSplitBy (fuel : ℕ) (src delimiter : Bytes) : Option (List Bytes) :=
  splitLoop (findString src delimiter) delimiter.length src.length (substr src) fuel 0

structure View where
  pos : ℕ
  length : ℕ
deriving DecidableEq, Repr

def View.content (src : Bytes) (v : View) : Bytes := substr src v.pos v.length

def stringSlice (fuel : ℕ) (src : Bytes) (delimiter : UInt8) : Option (List View) :=
  splitLoop (findChar src delimiter) 1 src.length View.mk fuel 0

def stringSliceBy (fuel : ℕ) (src delimiter : Bytes) : Option (List View) :=
  splitLoop (findString src delimiter) delimiter.length src.length View.mk fuel 0

def numLoop (find : ℕ → Option ℕ) (length num : ℕ) : ℕ → ℕ → Option ℕ
  | 0, _ => none
  | fuel + 1, pos1 =>
    match find pos1 with
    | some pos2 => numLoop find length (num + 1) fuel (pos2 + 1)
    | none => some (if pos1 ≠ length then num + 1 else num)

def splitNum (fuel : ℕ) (src : Bytes) (delimiter : UInt8) : Option ℕ :=
  numLoop (findChar src delimiter) src.length 0 fuel 0

section Loops

variable {β γ : Type} {find : ℕ → Option ℕ} {step length fuel pos : ℕ} {piece : ℕ → ℕ → β}

theorem splitLoop_map (f : β → γ) :
    (splitLoop find step length piece fuel pos).map (List.map f) =
      splitLoop find step length (fun p n => f (piece p n)) fuel pos := by
  induction fuel generalizing pos with
  | zero => rfl
  | succ fuel ih =>
    simp only [splitLoop]
    cases find pos with
    | none =>
      simp only [Option.map_some]
      split_ifs <;> rfl
    | some pos2 =>
      simp only [← ih, Option.map_map]
      rfl

theorem numLoop_eq (piece : ℕ → ℕ → β) (num : ℕ) :
    numLoop find length num fuel pos =
      (splitLoop find 1 length piece fuel pos).map fun l => num + l.length := by
  induction fuel generalizing pos num with
  | zero => rfl
  | succ fuel ih =>
    simp only [numLoop, splitLoop]
    cases find pos with
    | none =>
      simp only [Option.map_some]
      split_ifs <;> rfl
    | some pos2 =>
      simp only [ih, Option.map_map]
      congr 1
      funext l
      simp only [Function.comp_apply, List.length_cons]
      omega

end Loops

theorem findFirst_singleton (d : UInt8) (s : Bytes) : findFirst [d] s = s.findIdx? (· = d) := by
  induction s with
  | nil => rfl
  | cons c s ih =>
    rw [findFirst, ih, List.findIdx?_cons]
    by_cases hc : c = d
    · simp [hc]
    · simp [hc, Ne.symm hc, Nat.add_comm]

theorem findString_singleton (src : Bytes) (d : UInt8) :
    findString src [d] = findChar src d := by
  funext pos
  unfold findString findChar
  split_ifs with hpos
  · rw [findFirst_singleton]
  · rw [List.drop_eq_nil_of_le (by omega)]
    rfl

def pieces (d : UInt8) (s : Bytes) : List Bytes :=
  if (s.splitOn d).getLast? = some [] then (s.splitOn d).dropLast else s.splitOn d

variable {d : UInt8} {src a s : Bytes} {fuel pos : ℕ}

theorem split_induction (d : UInt8) {motive : Bytes → Prop} (last : ∀ s, d ∉ s → motive s)
    (cut : ∀ a s, d ∉ a → motive s → motive (a ++ d :: s)) (s : Bytes) : motive s := by
  induction hn : s.length using Nat.strong_induction_on generalizing s with
  | _ n ih =>
    by_cases hd : d ∈ s
    · obtain ⟨a, t, rfl, ha⟩ := List.eq_append_cons_of_mem hd
      rw [List.length_append, List.length_cons] at hn
      exact cut a t ha (ih t.length (by omega) t rfl)
    · exact last s hd

theorem pieces_last (hs : d ∉ s) : pieces d s = if s = [] then [] else [s] := by
  rw [pieces, List.splitOn_eq_singleton hs]
  simp

theorem pieces_cut (ha : d ∉ a) (s : Bytes) : pieces d (a ++ d :: s) = a :: pieces d s := by
  have hne := List.splitOn_ne_nil d s
  have hlast : (a :: s.splitOn d).getLast? = (s.splitOn d).getLast? := by
    obtain ⟨b, l, hl⟩ := List.exists_cons_of_ne_nil hne
    rw [hl, List.getLast?_cons_cons]
  rw [pieces, pieces, List.splitOn_append_cons_self, List.splitOn_eq_singleton ha,
    List.singleton_append, hlast, List.dropLast_cons_of_ne_nil hne]
  split_ifs <;> rfl

theorem findChar_last (hs : d ∉ src.drop pos) : findChar src d pos = none := by
  rw [findChar, List.findIdx?_eq_none_iff.mpr, Option.map_none]
  intro c hc
  refine decide_eq_false ?_
  rintro rfl
  exact hs hc

theorem findChar_cut (hsrc : src.drop pos = a ++ d :: s) (ha : d ∉ a) :
    findChar src d pos = some (pos + a.length) := by
  have hnone : a.findIdx? (· = d) = none := by
    rw [List.findIdx?_eq_none_iff]
    intro c hc
    refine decide_eq_false ?_
    rintro rfl
    exact ha hc
  have hfirst : (a ++ d :: s).findIdx? (· = d) = some a.length := by
    rw [List.findIdx?_append, hnone, List.findIdx?_cons]
    simp
  rw [findChar, hsrc, hfirst, Option.map_some]

/-- The last round, which keeps what is left unless that is nothing. -/
theorem splitLoop_last {find : ℕ → Option ℕ} {step : ℕ} (hfind : find pos = none)
    (hsrc : src.drop pos = s) (hpos : pos ≤ src.length) :
    splitLoop find step src.length (substr src) (fuel + 1) pos =
      some (if s = [] then [] else [s]) := by
  have hlen := congrArg List.length hsrc
  rw [List.length_drop] at hlen
  have hnil : s = [] ↔ ¬ pos ≠ src.length := by
    rw [← List.length_eq_zero_iff]
    omega
  have hpiece : substr src pos (src.length - pos) = s := by
    rw [substr, hsrc, hlen, List.take_length]
  rw [splitLoop, hfind]
  simp only [hpiece, hnil, ite_not]

theorem splitLoop_cut {find : ℕ → Option ℕ} {step : ℕ} {l : List Bytes}
    (hsrc : src.drop pos = a ++ s) (hfind : find pos = some (pos + a.length))
    (hrest : splitLoop find step src.length (substr src) fuel (pos + a.length + step) = some l) :
    splitLoop find step src.length (substr src) (fuel + 1) pos = some (a :: l) := by
  have hpiece : substr src pos (pos + a.length - pos) = a := by
    rw [substr, hsrc, Nat.add_sub_cancel_left, List.take_left]
  rw [splitLoop, hfind]
  simp only [hrest, hpiece, Option.map_some]

theorem splitLoop_pieces (hsrc : src.drop pos = s) (hpos : pos ≤ src.length)
    (hfuel : s.length < fuel) :
    splitLoop (findChar src d) 1 src.length (substr src) fuel pos = some (pieces d s) := by
  obtain ⟨fuel, rfl⟩ : ∃ n, fuel = n + 1 := Nat.exists_eq_succ_of_ne_zero (by omega)
  induction s using split_induction d generalizing pos fuel with
  | last s hs =>
    rw [pieces_last hs]
    exact splitLoop_last (findChar_last (hsrc ▸ hs)) hsrc hpos
  | cut a s ha ih =>
    have hlen := congrArg List.length hsrc
    rw [List.length_drop, List.length_append, List.length_cons] at hlen
    rw [List.length_append, List.length_cons] at hfuel
    have hrest : src.drop (pos + a.length + 1) = s := by
      rw [Nat.add_assoc, ← List.drop_drop, hsrc]
      simp
    obtain ⟨fuel, rfl⟩ : ∃ n, fuel = n + 1 := Nat.exists_eq_succ_of_ne_zero (by omega)
    rw [pieces_cut ha]
    exact splitLoop_cut hsrc (findChar_cut hsrc ha) (ih hrest (by omega) fuel (by omega))

theorem notMem_of_mem_pieces {p : Bytes} (h : p ∈ pieces d s) : d ∉ p := by
  induction s using split_induction d with
  | last s hs =>
    rw [pieces_last hs] at h
    split_ifs at h
    · cases h
    · rwa [List.mem_singleton.mp h]
  | cut a s ha ih =>
    rw [pieces_cut ha] at h
    rcases List.mem_cons.mp h with rfl | h
    · exact ha
    · exact ih h

theorem pieces_ne_nil (d : UInt8) (hs : s ≠ []) : pieces d s ≠ [] := by
  by_cases hd : d ∈ s
  · obtain ⟨a, t, rfl, ha⟩ := List.eq_append_cons_of_mem hd
    rw [pieces_cut ha]
    exact List.cons_ne_nil _ _
  · rw [pieces_last hd, if_neg hs]
    exact List.cons_ne_nil _ _

theorem intercalate_pieces (d : UInt8) (s : Bytes) :
    [d].intercalate (pieces d s) = if s.getLast? = some d then s.dropLast else s := by
  induction s using split_induction d with
  | last s hs =>
    have hlast : s.getLast? ≠ some d := fun h => hs (List.mem_of_getLast? h)
    rw [pieces_last hs, if_neg hlast]
    split_ifs with hnil
    · exact hnil.symm
    · simp
  | cut a s ha ih =>
    rw [pieces_cut ha]
    cases s with
    | nil => simp [pieces_last]
    | cons c s =>
      obtain ⟨p, l, hl⟩ := List.exists_cons_of_ne_nil (pieces_ne_nil d (List.cons_ne_nil c s))
      have hlast : (a ++ d :: c :: s).getLast? = (c :: s).getLast? := by
        rw [List.getLast?_append_cons, List.getLast?_cons_cons]
      have hdrop : (a ++ d :: c :: s).dropLast = a ++ [d] ++ (c :: s).dropLast := by
        simp
      rw [hl, List.intercalate_cons_cons, ← hl, ih, hlast, hdrop]
      split_ifs <;> simp

/-- The five functions agree on the pieces of a string between the places of a
character: they end after at most one round more than there are characters. -/
theorem splitting_helpers_agree (s : Bytes) (d : UInt8) (fuel : ℕ) (hfuel : s.length < fuel) :
    ∃ l, stringSplit fuel s d = some l ∧ stringSplitBy fuel s [d] = some l ∧
      (stringSlice fuel s d).map (List.map (View.content s)) = some l ∧
      (stringSliceBy fuel s [d]).map (List.map (View.content s)) = some l ∧
      splitNum fuel s d = some l.length ∧ (∀ p ∈ l, d ∉ p) ∧
      [d].intercalate l = if s.getLast? = some d then s.dropLast else s := by
  have hsplit : stringSplit fuel s d = some (pieces d s) :=
    splitLoop_pieces List.drop_zero (Nat.zero_le _) hfuel
  have hslice : (stringSlice fuel s d).map (List.map (View.content s)) = some (pieces d s) :=
    (splitLoop_map _).trans hsplit
  refine ⟨pieces d s, hsplit, ?_, hslice, ?_, ?_, fun p => notMem_of_mem_pieces,
    intercalate_pieces d s⟩
  · rw [stringSplitBy, findString_singleton]
    exact hsplit
  · rw [stringSliceBy, findString_singleton]
    exact hslice
  · rw [splitNum, numLoop_eq (substr s)]
    refine (congrArg _ hsplit).trans ?_
    simp

theorem splitting_helpers_agree_sample :
    ∃ l, stringSplit 5 [44, 97, 44, 44] 44 = some l ∧ stringSplitBy 5 [44, 97, 44, 44] [44] = some l ∧
      (stringSlice 5 [44, 97, 44, 44] 44).map (List.map (View.content [44, 97, 44, 44])) = some l ∧
      (stringSliceBy 5 [44, 97, 44, 44] [44]).map (List.map (View.content [44, 97, 44, 44])) =
        some l ∧
      splitNum 5 [44, 97, 44, 44] 44 = some l.length ∧ (∀ p ∈ l, 44 ∉ p) ∧
      [44].intercalate l = [44, 97, 44] :=
  splitting_helpers_agree [44, 97, 44, 44] 44 5 (by decide)

variable {delimiter : Bytes}

theorem findFirst_cut {i : ℕ} (h : findFirst delimiter s = some i) :
    ∃ a t, s = a ++ delimiter ++ t ∧ a.length = i := by
  induction s generalizing i with
  | nil =>
    rw [findFirst] at h
    split_ifs at h with hnil
    obtain rfl := Option.some.inj h
    exact ⟨[], [], by rw [hnil]; rfl, rfl⟩
  | cons c s ih =>
    rw [findFirst] at h
    split_ifs at h with hhere
    · obtain rfl := Option.some.inj h
      obtain ⟨t, ht⟩ := List.isPrefixOf_iff_prefix.mp hhere
      exact ⟨[], t, ht.symm, rfl⟩
    · obtain ⟨j, hj, rfl⟩ := Option.map_eq_some_iff.mp h
      obtain ⟨a, t, rfl, rfl⟩ := ih hj
      exact ⟨c :: a, t, rfl, Nat.add_comm _ _⟩

def Joined (delimiter : Bytes) (l : List Bytes) (s : Bytes) : Prop :=
  delimiter.intercalate l = s ∨ l ≠ [] ∧ delimiter.intercalate l ++ delimiter = s

theorem Joined.last (s : Bytes) : Joined delimiter (if s = [] then [] else [s]) s := by
  left
  split_ifs with hs
  · exact hs.symm
  · simp

theorem Joined.cut {l : List Bytes} (h : Joined delimiter l s) (a : Bytes) :
    Joined delimiter (a :: l) (a ++ delimiter ++ s) := by
  cases l with
  | nil =>
    rcases h with rfl | ⟨hl, -⟩
    · exact .inr ⟨List.cons_ne_nil _ _, by simp⟩
    · exact absurd rfl hl
  | cons b l =>
    rw [Joined, List.intercalate_cons_cons]
    rcases h with rfl | ⟨-, rfl⟩
    · exact .inl rfl
    · exact .inr ⟨List.cons_ne_nil _ _, by simp⟩

/-- Each round leaves less of the string, so that there are no more rounds than it has
characters. -/
theorem splitLoop_joined (hne : delimiter ≠ []) (hsrc : src.drop pos = s)
    (hpos : pos ≤ src.length) :
    ∃ l, (∀ fuel, s.length ≤ fuel → splitLoop (findString src delimiter) delimiter.length
        src.length (substr src) (fuel + 1) pos = some l) ∧ Joined delimiter l s := by
  induction hn : s.length using Nat.strong_induction_on generalizing s pos with
  | _ n ih =>
    have hfind : findString src delimiter pos = (findFirst delimiter s).map (pos + ·) := by
      rw [findString, if_pos hpos, hsrc]
    cases hfirst : findFirst delimiter s with
    | none =>
      rw [hfirst, Option.map_none] at hfind
      exact ⟨_, fun fuel _ => splitLoop_last hfind hsrc hpos, Joined.last s⟩
    | some i =>
      obtain ⟨a, t, rfl, rfl⟩ := findFirst_cut hfirst
      rw [hfirst, Option.map_some] at hfind
      have hlen := congrArg List.length hsrc
      have hstep := List.length_pos_of_ne_nil hne
      rw [List.length_drop, List.length_append, List.length_append] at hlen
      rw [List.length_append, List.length_append] at hn
      have hrest : src.drop (pos + a.length + delimiter.length) = t := by
        rw [Nat.add_assoc, ← List.drop_drop, hsrc, ← List.length_append, List.drop_left]
      obtain ⟨l, hl, hjoined⟩ := ih t.length (by omega) hrest (by omega) rfl
      refine ⟨a :: l, fun fuel hfuel => ?_, hjoined.cut a⟩
      obtain ⟨fuel, rfl⟩ : ∃ k, fuel = k + 1 := Nat.exists_eq_succ_of_ne_zero (by omega)
      rw [List.append_assoc] at hsrc
      exact splitLoop_cut hsrc hfind (hl fuel (by omega))

/-- The empty string is found where the search begins, and the next search begins
there again. -/
theorem splitLoop_endless {β : Type} (piece : ℕ → ℕ → β) (fuel : ℕ) (hpos : pos ≤ src.length) :
    splitLoop (findString src []) 0 src.length piece fuel pos = none := by
  have hfirst : findFirst [] (src.drop pos) = some 0 := by
    cases src.drop pos <;> rfl
  have hfind : findString src [] pos = some pos := by
    rw [findString, if_pos hpos, hfirst]
    rfl
  induction fuel with
  | zero => rfl
  | succ fuel ih =>
    rw [splitLoop, hfind]
    simp only [Nat.add_zero, ih, Option.map_none]

/-- Splitting at a string ends, with pieces that joined by the delimiter are the string
up to a delimiter at its end, exactly when the delimiter is not empty. -/
theorem splitting_at_string_iff (src delimiter : Bytes) :
    (∃ rounds l, (∀ fuel, rounds < fuel → stringSplitBy fuel src delimiter = some l ∧
        (stringSliceBy fuel src delimiter).map (List.map (View.content src)) = some l) ∧
      (delimiter.intercalate l = src ∨ delimiter.intercalate l ++ delimiter = src)) ↔
    delimiter ≠ [] := by
  constructor
  · rintro ⟨rounds, l, hends, -⟩ rfl
    have hsplit := (hends (rounds + 1) (Nat.lt_succ_self _)).1
    rw [stringSplitBy, List.length_nil, splitLoop_endless _ _ (Nat.zero_le _)] at hsplit
    cases hsplit
  · intro hne
    obtain ⟨l, hl, hjoined⟩ := splitLoop_joined hne (List.drop_zero (l := src)) (Nat.zero_le _)
    refine ⟨src.length, l, fun fuel hfuel => ?_, hjoined.imp_right And.right⟩
    obtain ⟨fuel, rfl⟩ : ∃ k, fuel = k + 1 := Nat.exists_eq_succ_of_ne_zero (by omega)
    have hsplit := hl fuel (by omega)
    exact ⟨hsplit, (splitLoop_map _).trans hsplit⟩

/-- An empty delimiter: no number of rounds suffices. -/
theorem splitting_at_empty_string_endless :
    (¬ ∃ fuel l, stringSplitBy fuel [97] [] = some l) ∧
      ¬ ∃ fuel l, stringSliceBy fuel [97] [] = some l := by
  constructor
  · rintro ⟨fuel, l, h⟩
    rw [stringSplitBy, List.length_nil, splitLoop_endless _ _ (Nat.zero_le _)] at h
    cases h
  · rintro ⟨fuel, l, h⟩
    rw [stringSliceBy, List.length_nil, splitLoop_endless _ _ (Nat.zero_le _)] at h
    cases h

end SofaBolt.Utils
