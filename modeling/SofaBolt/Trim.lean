import SofaBolt.Block
import SofaBolt.CString
import Mathlib.Data.List.DropRight

/- A pointer is an index into the buffer, every read and write is checked, and a loop that runs
upwards may take as many rounds as there are characters. -/

namespace SofaBolt.Utils

open CString (Holds Replaced)

/-- What a run may not do: leave the buffer, call `isspace` with a value that it is not
defined for, or run on. -/
inductive Fault where
  | outside
  | isspace
  | endless
deriving DecidableEq, Repr

def isBlank (c : UInt8) : Bool := c = 32 ∨ 9 ≤ c ∧ c ≤ 13

/-- `std::isspace(c)`.  A `char` is signed, and `isspace` is defined for the values of
an `unsigned char` and for `EOF`, which is -1. -/
def isspace (c : UInt8) : Except Fault Bool :=
  if c < 128 ∨ c = 255 then .ok (isBlank c) else .error .isspace

def read (m : Bytes) (p : ℕ) : Except Fault UInt8 :=
  match m[p]? with
  | some c => .ok c
  | none => .error .outside

def write (m : Bytes) (p : ℕ) (c : UInt8) : Except Fault Bytes :=
  if p < m.length then .ok (m.set p c) else .error .outside

/-- `std::memmove(dest, src, n)`. -/
def memmove (m : Bytes) (dest src n : ℕ) : Except Fault Bytes :=
  if dest + n ≤ m.length ∧ src + n ≤ m.length then
    .ok (m.take dest ++ ((m.drop src).take n ++ m.drop (dest + n)))
  else .error .outside

def strlen (m : Bytes) : ℕ → ℕ → Except Fault ℕ
  | 0, _ => .error .endless
  | fuel + 1, p => do
    let c ← read m p
    if c = 0 then .ok 0
    else do
      let n ← strlen m fuel (p + 1)
      .ok (n + 1)

/-- `while (*p && std::isspace(*p)) ++p`. -/
def skipBlanks (m : Bytes) : ℕ → ℕ → Except Fault ℕ
  | 0, _ => .error .endless
  | fuel + 1, p => do
    let c ← read m p
    if c = 0 then .ok p
    else do
      let blank ← isspace c
      if blank then skipBlanks m fuel (p + 1) else .ok p

def leftTrim (m : Bytes) : Option ℕ → Except Fault Bytes
  | none => .ok m
  | some str => do
    let p ← skipBlanks m m.length str
    if p = str then .ok m
    else do
      let len ← strlen m m.length p
      let m ← memmove m str p len
      write m (str + len) 0

/-- `while (*(p + 1)) ++p`. -/
def lastChar (m : Bytes) : ℕ → ℕ → Except Fault ℕ
  | 0, _ => .error .endless
  | fuel + 1, p => do
    let c ← read m (p + 1)
    if c = 0 then .ok p else lastChar m fuel (p + 1)

/-- `while (p != str && std::isspace(*p)) *(p--) = '\0'`. -/
def clearBlanks (str : ℕ) (m : Bytes) : ℕ → Except Fault Bytes
  -- `p--` would leave the buffer in front
  | 0 => if str = 0 then .ok m else .error .outside
  | p + 1 =>
    if p + 1 = str then .ok m
    else do
      let c ← read m (p + 1)
      let blank ← isspace c
      if blank then do
        let m ← write m (p + 1) 0
        clearBlanks str m p
      else .ok m

def rightTrim (m : Bytes) : Option ℕ → Except Fault Bytes
  | none => .ok m
  | some str => do
    let c ← read m str
    if c = 0 then .ok m
    else do
      let p ← lastChar m m.length str
      clearBlanks str m p

def trim (m : Bytes) (str : Option ℕ) : Except Fault Bytes := do
  let m ← leftTrim m str
  rightTrim m str

/-- The character, if there is one, is one that `isspace` is defined for. -/
def InDomain : Option UInt8 → Prop
  | none => True
  | some c => c < 128 ∨ c = 255

instance : DecidablePred InDomain
  | none => isTrue trivial
  | some c => inferInstanceAs (Decidable (c < 128 ∨ c = 255))

variable {m a s t z rest : Bytes} {p str fuel : ℕ} {c : UInt8}

theorem isspace_blank (h : isBlank c) : isspace c = .ok true := by
  have hlt : c < 128 := by
    simp only [isBlank, decide_eq_true_eq] at h
    rcases h with rfl | ⟨-, h⟩
    · decide
    · exact UInt8.lt_of_le_of_lt h (by decide)
  rw [isspace, if_pos (.inl hlt), h]

theorem isspace_other (h : ¬ isBlank c) :
    isspace c = if InDomain (some c) then .ok false else .error .isspace := by
  rw [isspace, Bool.eq_false_of_not_eq_true h]
  rfl

theorem read_of_drop (h : m.drop p = c :: rest) : read m p = .ok c := by
  rw [read, ← List.head?_drop, h]
  rfl

theorem read_nil (h : Holds m p []) : read m p = .ok 0 := by
  rw [read, h.getElem?_nil]

theorem read_cons (h : Holds m p (c :: s)) : read m p = .ok c := by
  rw [read, h.getElem?_cons]

theorem write_append (c' : UInt8) :
    write (a ++ c :: z) a.length c' = .ok (a ++ c' :: z) := by
  have hlt : a.length < (a ++ c :: z).length := by simp
  rw [write, if_pos hlt, List.set_append_right _ _ (Nat.le_refl _), Nat.sub_self,
    List.set_cons_zero]

theorem memmove_append :
    memmove (a ++ (s ++ (t ++ z))) a.length (a.length + s.length) t.length =
      .ok (a ++ (t ++ (s ++ (t ++ z)).drop t.length)) := by
  have hdest : a.length + t.length ≤ (a ++ (s ++ (t ++ z))).length := by
    simp only [List.length_append]
    omega
  have hsrc : a.length + s.length + t.length ≤ (a ++ (s ++ (t ++ z))).length := by
    simp only [List.length_append]
    omega
  rw [memmove, if_pos ⟨hdest, hsrc⟩, List.take_left, List.drop_length_add_append, List.drop_left,
    List.take_left, List.drop_length_add_append]

theorem strlen_eq (h : Holds m p s) (hfuel : s.length < fuel) : strlen m fuel p = .ok s.length := by
  induction s generalizing p fuel with
  | nil =>
    obtain ⟨fuel, rfl⟩ : ∃ n, fuel = n + 1 := Nat.exists_eq_succ_of_ne_zero (by omega)
    simp only [strlen, read_nil h, bind, Except.bind]
    rfl
  | cons c s ih =>
    obtain ⟨fuel, rfl⟩ : ∃ n, fuel = n + 1 := Nat.exists_eq_succ_of_ne_zero (by omega)
    have hrest := ih h.next (by simpa using hfuel)
    simp only [strlen, read_cons h, bind, Except.bind, if_neg h.ne_zero, hrest, List.length_cons]

theorem skipBlanks_eq (h : Holds m p s) (hfuel : s.length < fuel) :
    skipBlanks m fuel p = if InDomain (s.dropWhile isBlank).head? then
      .ok (p + (s.takeWhile isBlank).length) else .error .isspace := by
  induction s generalizing p fuel with
  | nil =>
    obtain ⟨fuel, rfl⟩ : ∃ n, fuel = n + 1 := Nat.exists_eq_succ_of_ne_zero (by omega)
    simp only [skipBlanks, read_nil h, bind, Except.bind]
    rfl
  | cons c s ih =>
    obtain ⟨fuel, rfl⟩ : ∃ n, fuel = n + 1 := Nat.exists_eq_succ_of_ne_zero (by omega)
    simp only [skipBlanks, read_cons h, bind, Except.bind, if_neg h.ne_zero]
    by_cases hc : isBlank c
    · rw [isspace_blank hc, List.dropWhile_cons_of_pos hc, List.takeWhile_cons_of_pos hc]
      simp only [if_true, ih h.next (by simpa using hfuel), List.length_cons]
      rw [Nat.add_right_comm, Nat.add_assoc]
    · rw [isspace_other hc, List.dropWhile_cons_of_neg hc, List.takeWhile_cons_of_neg hc,
        List.head?_cons]
      split_ifs <;> rfl

/-- The string behind the blanks `s` moves down, and what lay behind its new end stays. -/
theorem leftTrim_moves (hs : s ≠ []) :
    ((memmove (a ++ (s ++ (t ++ 0 :: rest))) a.length (a.length + s.length) t.length).bind
      fun m => write m (a.length + t.length) 0) =
      .ok (a ++ (t ++ 0 :: ((s ++ t ++ [0]).drop (t.length + 1) ++ rest))) := by
  have hlt : t.length < (s ++ (t ++ 0 :: rest)).length := by
    simp only [List.length_append, List.length_cons]
    omega
  have hpos := List.length_pos_of_ne_nil hs
  have hle : t.length + 1 ≤ (s ++ t ++ [0]).length := by
    simp only [List.length_append, List.length_singleton]
    omega
  have hbehind : (s ++ (t ++ 0 :: rest)).drop (t.length + 1) =
      (s ++ t ++ [0]).drop (t.length + 1) ++ rest := by
    rw [← List.drop_append_of_le_length hle]
    simp
  rw [memmove_append, List.drop_eq_getElem_cons hlt, hbehind, ← List.append_assoc,
    ← List.length_append, Except.bind, write_append, List.append_assoc]

theorem leftTrim_eq (h : 0 ∉ s) :
    leftTrim (a ++ (s ++ 0 :: rest)) (some a.length) =
      if InDomain (s.dropWhile isBlank).head? then
        .ok (a ++ (s.dropWhile isBlank ++
          0 :: ((s ++ [0]).drop ((s.dropWhile isBlank).length + 1) ++ rest)))
      else .error .isspace := by
  have hholds := Holds.append a h rest
  have hsplit := List.takeWhile_append_dropWhile (p := isBlank) (l := s)
  simp only [leftTrim, skipBlanks_eq hholds hholds.length_lt, bind]
  split_ifs with hdom
  · generalize s.dropWhile isBlank = t at hsplit ⊢
    generalize s.takeWhile isBlank = w at hsplit ⊢
    subst hsplit
    by_cases hw : w = []
    · simp [hw, Except.bind]
    · have hne : a.length + w.length ≠ a.length := by
        have := List.length_pos_of_ne_nil hw
        omega
      have hlen := strlen_eq hholds.advance hholds.advance.length_lt
      rw [Except.bind, if_neg hne, hlen, Except.bind, List.append_assoc w]
      exact leftTrim_moves hw
  · rfl

theorem lastChar_eq (h : Holds m (p + 1) s) (hfuel : s.length < fuel) :
    lastChar m fuel p = .ok (p + s.length) := by
  induction s generalizing p fuel with
  | nil =>
    obtain ⟨fuel, rfl⟩ : ∃ n, fuel = n + 1 := Nat.exists_eq_succ_of_ne_zero (by omega)
    simp only [lastChar, read_nil h, bind, Except.bind]
    rfl
  | cons c s ih =>
    obtain ⟨fuel, rfl⟩ : ∃ n, fuel = n + 1 := Nat.exists_eq_succ_of_ne_zero (by omega)
    simp only [lastChar, read_cons h, bind, Except.bind, if_neg h.ne_zero,
      ih h.next (by simpa using hfuel), List.length_cons]
    rw [Nat.add_right_comm, Nat.add_assoc]

theorem clearBlanks_self (str : ℕ) (m : Bytes) : clearBlanks str m str = .ok m := by
  cases str with
  | zero => rfl
  | succ str => rw [clearBlanks, if_pos rfl]

/-- A blank that is not the first character becomes a null character. -/
theorem clearBlanks_blank (hc : isBlank c) (hp : a.length = p + 1) (hne : p + 1 ≠ str) :
    clearBlanks str (a ++ c :: z) (p + 1) = clearBlanks str (a ++ 0 :: z) p := by
  have hread : read (a ++ c :: z) (p + 1) = .ok c := read_of_drop (hp ▸ List.drop_left)
  have hwrite : write (a ++ c :: z) (p + 1) 0 = .ok (a ++ 0 :: z) := hp ▸ write_append 0
  rw [clearBlanks, if_neg hne]
  simp only [hread, isspace_blank hc, hwrite, bind, Except.bind, if_true]

theorem clearBlanks_other (hc : ¬ isBlank c) (hp : a.length = p + 1) (hne : p + 1 ≠ str) :
    clearBlanks str (a ++ c :: z) (p + 1) =
      if InDomain (some c) then .ok (a ++ c :: z) else .error .isspace := by
  have hread : read (a ++ c :: z) (p + 1) = .ok c := read_of_drop (hp ▸ List.drop_left)
  rw [clearBlanks, if_neg hne]
  simp only [hread, isspace_other hc, bind, Except.bind]
  split_ifs <;> rfl

/-- The characters behind the first one, from the last one down. -/
theorem clearBlanks_eq (a : Bytes) (c : UInt8) (t z : Bytes) :
    clearBlanks a.length (a ++ c :: (t ++ z)) (a.length + t.length) =
      if InDomain (t.rdropWhile isBlank).getLast? then
        .ok (a ++ c :: (t.rdropWhile isBlank ++
          (List.replicate (t.length - (t.rdropWhile isBlank).length) 0 ++ z)))
      else .error .isspace := by
  induction t using List.reverseRecOn generalizing z with
  | nil => exact clearBlanks_self a.length _
  | append_singleton t x ih =>
    have hm (x : UInt8) : a ++ c :: (t ++ x :: z) = (a ++ c :: t) ++ x :: z := by simp
    have hp : (a ++ c :: t).length = a.length + t.length + 1 := by simp [Nat.add_assoc]
    have hne : a.length + t.length + 1 ≠ a.length := by omega
    rw [List.length_append, List.length_singleton, ← Nat.add_assoc, List.append_assoc,
      List.singleton_append, hm]
    by_cases hx : isBlank x
    · have hle := (List.rdropWhile_prefix isBlank t).length_le
      rw [clearBlanks_blank hx hp hne, ← hm, ih, List.rdropWhile_concat_pos _ _ _ hx,
        Nat.sub_add_comm hle, List.replicate_succ', List.append_assoc, List.singleton_append]
    · rw [clearBlanks_other hx hp hne, ← hm, List.rdropWhile_concat_neg _ _ _ hx,
        List.getLast?_concat]
      simp

def kept : Bytes → Bytes
  | [] => []
  | c :: t => c :: t.rdropWhile isBlank

theorem rightTrim_eq (h : 0 ∉ s) :
    rightTrim (a ++ (s ++ 0 :: rest)) (some a.length) =
      if InDomain (s.tail.rdropWhile isBlank).getLast? then
        .ok (a ++ (kept s ++ 0 :: (List.replicate (s.length - (kept s).length) 0 ++ rest)))
      else .error .isspace := by
  cases s with
  | nil =>
    have hholds := Holds.append a h rest
    simp only [rightTrim, read_nil hholds, bind, Except.bind]
    rfl
  | cons c t =>
    have hholds : Holds (a ++ c :: (t ++ 0 :: rest)) a.length (c :: t) := .append a h rest
    have hlast := lastChar_eq hholds.next hholds.next.length_lt
    have hend (n : ℕ) : List.replicate n (0 : UInt8) ++ 0 :: rest =
        0 :: (List.replicate n 0 ++ rest) := by
      rw [List.append_cons, ← List.replicate_succ', List.replicate_succ, List.cons_append]
    simp only [rightTrim, read_cons hholds, bind, Except.bind, if_neg hholds.ne_zero, hlast,
      List.cons_append, clearBlanks_eq, hend, kept, List.tail_cons, List.length_cons,
      Nat.add_sub_add_right]

def trimmed (s : Bytes) : Bytes := (s.dropWhile isBlank).rdropWhile isBlank

theorem rdropWhile_cons (c : UInt8) (t : Bytes) : (c :: t).rdropWhile isBlank =
    if t.rdropWhile isBlank = [] ∧ isBlank c then [] else c :: t.rdropWhile isBlank := by
  rw [List.rdropWhile, List.rdropWhile, List.reverse_cons, List.dropWhile_append]
  cases htail : t.reverse.dropWhile isBlank with
  | nil => cases hc : isBlank c <;> simp [hc]
  | cons x l => simp

theorem kept_eq_iff (s : Bytes) :
    kept s = s.rdropWhile isBlank ↔ s = [] ∨ ∃ c ∈ s, ¬ isBlank c := by
  cases s with
  | nil => simp [kept]
  | cons c t =>
    have hall : (t.rdropWhile isBlank = [] ∧ isBlank c) ↔ ¬ ∃ x ∈ c :: t, ¬ isBlank x := by
      rw [List.rdropWhile_eq_nil_iff]
      simp [and_comm]
    rw [kept, rdropWhile_cons]
    split_ifs with hblank
    · refine iff_of_false not_false ?_
      rintro (hnil | hother)
      · cases hnil
      · exact hall.mp hblank hother
    · exact iff_of_true rfl (.inr (not_not.mp fun h => hblank (hall.mpr h)))

theorem kept_kept (s : Bytes) : kept (kept s) = kept s := by
  cases s with
  | nil => rfl
  | cons c t => rw [kept, kept, List.rdropWhile_idempotent]

theorem tail_kept (s : Bytes) : (kept s).tail = s.tail.rdropWhile isBlank := by
  cases s <;> rfl

theorem kept_length_le (s : Bytes) : (kept s).length ≤ s.length := by
  cases s with
  | nil => exact Nat.le_refl _
  | cons c t => exact Nat.succ_le_succ (List.rdropWhile_prefix isBlank t).length_le

theorem notMem_kept {x : UInt8} (h : x ∉ s) : x ∉ kept s := by
  cases s with
  | nil => exact h
  | cons c t =>
    intro hmem
    rcases List.mem_cons.mp hmem with rfl | hmem
    · exact h List.mem_cons_self
    · exact h (List.mem_cons_of_mem _ ((List.rdropWhile_prefix isBlank t).subset hmem))

/-- The function leaves `s'` where the string `s` is and changes nothing else, and
leaves the buffer alone when it is called again. -/
def TrimsTo (f : Bytes → Option ℕ → Except Fault Bytes) (m : Bytes) (str : ℕ) (s s' : Bytes) :
    Prop :=
  ∃ m', f m (some str) = .ok m' ∧ Replaced m m' str s s' ∧ f m' (some str) = .ok m'

theorem trimsTo_iff {f : Bytes → Option ℕ → Except Fault Bytes} {P : Prop} [Decidable P]
    {m' s' : Bytes} (hf : f m (some str) = if P then .ok m' else .error .isspace)
    (hm : Replaced m m' str s t) (hagain : P → f m' (some str) = .ok m') :
    TrimsTo f m str s s' ↔ P ∧ s' = t := by
  constructor
  · rintro ⟨m'', hok, hreplaced, -⟩
    rw [hf] at hok
    split_ifs at hok with hP
    cases hok
    exact ⟨hP, hreplaced.holds.unique hm.holds⟩
  · rintro ⟨hP, rfl⟩
    exact ⟨m', by rw [hf, if_pos hP], hm, hagain hP⟩

theorem leftTrim_trimsTo_iff {s' : Bytes} (h : Holds m str s) :
    TrimsTo leftTrim m str s s' ↔
      InDomain (s.dropWhile isBlank).head? ∧ s' = s.dropWhile isBlank := by
  obtain ⟨a, rest, rfl, rfl⟩ := h.exists_append
  have hsub : (s.dropWhile isBlank).length ≤ s.length := (List.dropWhile_suffix _).length_le
  have h0 : 0 ∉ s.dropWhile isBlank := fun hmem =>
    h.zero_notMem ((List.dropWhile_suffix _).subset hmem)
  refine trimsTo_iff (leftTrim_eq h.zero_notMem) (.append h0 ?_) fun hdom => ?_
  · rw [List.length_drop, List.length_append, List.length_singleton]
    omega
  · rw [leftTrim_eq h0, List.dropWhile_idempotent, if_pos hdom]
    simp

theorem rightTrim_trimsTo_iff {s' : Bytes} (h : Holds m str s) :
    TrimsTo rightTrim m str s s' ↔
      InDomain (s.tail.rdropWhile isBlank).getLast? ∧ s' = kept s := by
  obtain ⟨a, rest, rfl, rfl⟩ := h.exists_append
  have hle := kept_length_le s
  refine trimsTo_iff (rightTrim_eq h.zero_notMem) (.append (notMem_kept h.zero_notMem) ?_)
    fun hdom => ?_
  · rw [List.length_replicate]
    omega
  · rw [rightTrim_eq (notMem_kept h.zero_notMem), tail_kept, List.rdropWhile_idempotent,
      if_pos hdom, kept_kept, Nat.sub_self]
    rfl

theorem not_isBlank_of_dropWhile (h : s.dropWhile isBlank = c :: t) : ¬ isBlank c := by
  have hhead := List.head?_dropWhile_not isBlank s
  rw [h] at hhead
  exact Bool.eq_false_iff.mp hhead

theorem kept_dropWhile (s : Bytes) : kept (s.dropWhile isBlank) = trimmed s := by
  rw [trimmed, kept_eq_iff]
  cases hdrop : s.dropWhile isBlank with
  | nil => exact .inl rfl
  | cons c t => exact .inr ⟨c, List.mem_cons_self, not_isBlank_of_dropWhile hdrop⟩

theorem dropWhile_kept_dropWhile (s : Bytes) :
    (kept (s.dropWhile isBlank)).dropWhile isBlank = kept (s.dropWhile isBlank) := by
  cases hdrop : s.dropWhile isBlank with
  | nil => rfl
  | cons c t => exact List.dropWhile_cons_of_neg (not_isBlank_of_dropWhile hdrop)

theorem head?_kept (s : Bytes) : (kept s).head? = s.head? := by
  cases s <;> rfl

theorem trim_eq (a rest : Bytes) (h : 0 ∉ s) (ht : s.dropWhile isBlank = t) :
    trim (a ++ (s ++ 0 :: rest)) (some a.length) =
      if InDomain t.head? ∧ InDomain (t.tail.rdropWhile isBlank).getLast? then
        .ok (a ++ (kept t ++ 0 :: (List.replicate (t.length - (kept t).length) 0 ++
          ((s ++ [0]).drop (t.length + 1) ++ rest))))
      else .error .isspace := by
  have h0 : 0 ∉ t := by
    rw [← ht]
    exact fun hmem => h ((List.dropWhile_suffix _).subset hmem)
  simp only [trim, leftTrim_eq h, ht, bind]
  by_cases hhead : InDomain t.head?
  · rw [if_pos hhead, Except.bind, rightTrim_eq h0]
    simp only [hhead, true_and]
  · rw [if_neg hhead, if_neg (fun h => hhead h.1)]
    rfl

theorem trim_trimsTo_iff {s' : Bytes} (h : Holds m str s) (ht : s.dropWhile isBlank = t) :
    TrimsTo trim m str s s' ↔
      (InDomain t.head? ∧ InDomain (t.tail.rdropWhile isBlank).getLast?) ∧ s' = kept t := by
  obtain ⟨a, rest, rfl, rfl⟩ := h.exists_append
  have hlen : t.length ≤ s.length := ht ▸ (List.dropWhile_suffix _).length_le
  have hle := kept_length_le t
  have h0 : 0 ∉ kept t := by
    rw [← ht]
    exact notMem_kept fun hmem => h.zero_notMem ((List.dropWhile_suffix _).subset hmem)
  have hkept : (kept t).dropWhile isBlank = kept t := ht ▸ dropWhile_kept_dropWhile s
  have heq := trim_eq a rest h.zero_notMem ht
  rw [← List.append_assoc (List.replicate _ _)] at heq
  refine trimsTo_iff heq (.append h0 ?_) fun hdom => ?_
  · rw [List.length_append, List.length_replicate, List.length_drop, List.length_append,
      List.length_singleton]
    omega
  · rw [trim_eq _ _ h0 hkept, head?_kept, tail_kept, List.rdropWhile_idempotent, if_pos hdom,
      kept_kept, Nat.sub_self]
    simp

/-- Each function trims the string and then leaves it alone exactly when `isspace` is defined for
the first and the last character that stay, as far as they are looked at, and for `rightTrim`
the string is empty or not all white space. -/
theorem trims_in_place_iff (m : Bytes) (str : ℕ) (s : Bytes) (h : Holds m str s) :
    (TrimsTo leftTrim m str s (s.dropWhile isBlank) ↔ InDomain (s.dropWhile isBlank).head?) ∧
    (TrimsTo rightTrim m str s (s.rdropWhile isBlank) ↔
      InDomain (s.tail.rdropWhile isBlank).getLast? ∧ (s = [] ∨ ∃ c ∈ s, ¬ isBlank c)) ∧
    (TrimsTo trim m str s (trimmed s) ↔
      InDomain (s.dropWhile isBlank).head? ∧
        InDomain ((s.dropWhile isBlank).tail.rdropWhile isBlank).getLast?) := by
  refine ⟨?_, ?_, ?_⟩
  · rw [leftTrim_trimsTo_iff h, and_iff_left rfl]
  · rw [rightTrim_trimsTo_iff h, ← kept_eq_iff, eq_comm]
  · rw [trim_trimsTo_iff h rfl, and_iff_left (kept_dropWhile s).symm]

theorem trims_in_place_sample :
    Holds [32, 97, 32, 0] 0 [32, 97, 32] ∧
      TrimsTo leftTrim [32, 97, 32, 0] 0 [32, 97, 32] [97, 32] ∧
      TrimsTo rightTrim [32, 97, 32, 0] 0 [32, 97, 32] [32, 97] ∧
      TrimsTo trim [32, 97, 32, 0] 0 [32, 97, 32] [97] := by
  have hholds : Holds [32, 97, 32, 0] 0 [32, 97, 32] := ⟨by decide, [], rfl⟩
  obtain ⟨hleft, hright, hboth⟩ := trims_in_place_iff _ _ _ hholds
  exact ⟨hholds, hleft.mpr (by decide),
    hright.mpr ⟨by decide, .inr ⟨97, by decide, by decide⟩⟩, hboth.mpr (by decide)⟩

/-- One space, and a space, a tab and a space: `rightTrim` leaves the first one. -/
theorem rightTrim_leaves_blank :
    Holds [32, 0] 0 [32] ∧ List.rdropWhile isBlank [32] = [] ∧
      rightTrim [32, 0] (some 0) = .ok [32, 0] ∧ ¬ TrimsTo rightTrim [32, 0] 0 [32] [] ∧
      rightTrim [32, 9, 32, 0] (some 0) = .ok [32, 0, 0, 0] := by
  have hholds : Holds [32, 0] 0 [32] := ⟨by decide, [], rfl⟩
  refine ⟨hholds, by decide, rfl, fun h => ?_, rfl⟩
  cases ((rightTrim_trimsTo_iff hholds).mp h).2

end SofaBolt.Utils
