import Mathlib.Data.List.TakeWhile
import Mathlib.Data.Nat.Digits.Lemmas
import Mathlib.Tactic

namespace SofaBolt.HttpMessage

abbrev Field := List UInt8 × List UInt8

structure RequestMessage where
  method : List UInt8
  target : List UInt8
  fields : List Field
  body : List UInt8
deriving DecidableEq, Repr

def crlf : List UInt8 := [13, 10]

def isDigit (c : UInt8) : Bool := 48 ≤ c && c ≤ 57

def isTokenChar (c : UInt8) : Bool :=
  isDigit c || (65 ≤ c && c ≤ 90) || (97 ≤ c && c ≤ 122) ||
    [33, 35, 36, 37, 38, 39, 42, 43, 45, 46, 94, 95, 96, 124, 126].contains c

def isControl (c : UInt8) : Bool := c < 32 || c == 127

def isTargetChar (c : UInt8) : Bool := !isControl c && c != 32

def isBlank (c : UInt8) : Bool := c == 32 || c == 9

def isFieldChar (c : UInt8) : Bool := !isControl c || c == 9

def toLower (c : UInt8) : UInt8 := if 65 ≤ c && c ≤ 90 then c + 32 else c

def takeLine : List UInt8 → Option (List UInt8 × List UInt8)
  | [] => none
  | [_] => none
  | c :: d :: bs =>
    if c = 13 then if d = 10 then some ([], bs) else none
    else if c = 10 then none
    else (takeLine (d :: bs)).map fun r => (c :: r.1, r.2)

def cutAt (c : UInt8) (bs : List UInt8) : Option (List UInt8 × List UInt8) :=
  match bs.dropWhile (· ≠ c) with
  | [] => none
  | _ :: rest => some (bs.takeWhile (· ≠ c), rest)

def version : List UInt8 := [72, 84, 84, 80, 47, 49, 46, 49]

def decodeRequestLine (line : List UInt8) : Option (List UInt8 × List UInt8) := do
  let (method, bs) ← cutAt 32 line
  let (target, v) ← cutAt 32 bs
  if method ≠ [] ∧ method.all isTokenChar ∧ target ≠ [] ∧ target.all isTargetChar ∧
      v = version then
    some (method, target)
  else none

def trim (bs : List UInt8) : List UInt8 :=
  ((bs.dropWhile isBlank).reverse.dropWhile isBlank).reverse

def decodeField (line : List UInt8) : Option Field := do
  let (name, value) ← cutAt 58 line
  if name ≠ [] ∧ name.all isTokenChar ∧ value.all isFieldChar then
    some (name, trim value)
  else none

def decodeFields : ℕ → List UInt8 → Option (List Field × List UInt8)
  | 0, _ => none
  | fuel + 1, bs => do
    let (line, bs) ← takeLine bs
    if line = [] then some ([], bs)
    else do
      let f ← decodeField line
      let (fs, bs) ← decodeFields fuel bs
      some (f :: fs, bs)

def fieldValues (fields : List Field) (name : List UInt8) : List (List UInt8) :=
  (fields.filter fun f => f.1.map toLower == name.map toLower).map Prod.snd

def decodeDecimal (bs : List UInt8) : Option ℕ :=
  if bs ≠ [] ∧ bs.all isDigit then
    some (Nat.ofDigits 10 (bs.reverse.map fun c => c.toNat - 48))
  else none

def hostName : List UInt8 := [72, 111, 115, 116]

def contentLengthName : List UInt8 :=
  [67, 111, 110, 116, 101, 110, 116, 45, 76, 101, 110, 103, 116, 104]

def transferEncodingName : List UInt8 :=
  [84, 114, 97, 110, 115, 102, 101, 114, 45, 69, 110, 99, 111, 100, 105, 110, 103]

def bodyLength (fields : List Field) : Option ℕ :=
  match fieldValues fields contentLengthName with
  | [] => some 0
  | [v] => decodeDecimal v
  | _ => none

def decodeRequest (bs : List UInt8) : Option RequestMessage := do
  let (line, bs) ← takeLine bs
  let (method, target) ← decodeRequestLine line
  let (fields, bs) ← decodeFields bs.length bs
  let n ← bodyLength fields
  if (fieldValues fields hostName).length = 1 ∧ fieldValues fields transferEncodingName = [] ∧
      bs.length = n then
    some { method, target, fields, body := bs }
  else none

def decimal (n : ℕ) : List UInt8 :=
  if n = 0 then [48] else (Nat.digits 10 n).reverse.map fun d => UInt8.ofNat (48 + d)

def encodeLine (f : Field) : List UInt8 := f.1 ++ 58 :: (f.2 ++ crlf)

def encodeRequest (m : RequestMessage) : List UInt8 :=
  m.method ++ 32 :: (m.target ++ 32 :: (version ++ crlf)) ++
    (m.fields.flatMap encodeLine ++ (crlf ++ m.body))

def readFields (fields : List Field) : List Field := fields.map fun f => (f.1, trim f.2)

variable {c : UInt8} {bs line rest : List UInt8}

theorem takeLine_append (h : ∀ c ∈ line, c ≠ 13 ∧ c ≠ 10) (rest : List UInt8) :
    takeLine (line ++ (crlf ++ rest)) = some (line, rest) := by
  induction line with
  | nil => rfl
  | cons c line ih =>
    obtain ⟨hc, hline⟩ := List.forall_mem_cons.mp h
    have ih := ih hline
    cases line with
    | nil => simp [takeLine, crlf, hc.1, hc.2]
    | cons d line =>
      rw [List.cons_append, List.cons_append, takeLine, if_neg hc.1, if_neg hc.2,
        ← List.cons_append, ih]
      rfl

theorem takeLine_eq_some_iff :
    takeLine bs = some (line, rest) ↔
      bs = line ++ (crlf ++ rest) ∧ ∀ c ∈ line, c ≠ 13 ∧ c ≠ 10 := by
  refine ⟨fun h => ?_, fun h => h.1 ▸ takeLine_append h.2 rest⟩
  fun_induction takeLine bs generalizing line with
  | case1 => cases h
  | case2 => cases h
  | case3 =>
    obtain ⟨rfl, rfl⟩ := Prod.mk.inj (Option.some.inj h)
    exact ⟨rfl, by simp⟩
  | case4 => cases h
  | case5 => cases h
  | case6 c d bs hc hc' ih =>
    obtain ⟨⟨line', rest'⟩, htake, hr⟩ := Option.map_eq_some_iff.mp h
    obtain ⟨rfl, rfl⟩ := Prod.mk.inj hr
    obtain ⟨hbs, hline⟩ := ih htake
    exact ⟨by rw [hbs]; rfl, List.forall_mem_cons.mpr ⟨⟨hc, hc'⟩, hline⟩⟩

theorem cutAt_eq_some_iff {a b : List UInt8} :
    cutAt c bs = some (a, b) ↔ bs = a ++ c :: b ∧ c ∉ a := by
  have hpos {a : List UInt8} (h : c ∉ a) : ∀ d ∈ a, decide (d ≠ c) = true := by
    intro d hd
    refine decide_eq_true ?_
    rintro rfl
    exact h hd
  constructor
  · intro h
    have hsplit := List.takeWhile_append_dropWhile (p := (decide <| · ≠ c)) (l := bs)
    unfold cutAt at h
    cases hdrop : bs.dropWhile (decide <| · ≠ c) with
    | nil =>
      rw [hdrop] at h
      cases h
    | cons d rest =>
      have hd := List.head?_dropWhile_not (decide <| · ≠ c) bs
      rw [hdrop] at h hsplit hd
      obtain rfl : d = c := by simpa using hd
      obtain ⟨rfl, rfl⟩ := Prod.mk.inj (Option.some.inj h)
      exact ⟨hsplit.symm, fun hmem => absurd (List.mem_takeWhile_imp hmem) (by simp)⟩
  · rintro ⟨rfl, h⟩
    unfold cutAt
    rw [List.dropWhile_append_of_pos (hpos h), List.takeWhile_append_of_pos (hpos h)]
    simp

theorem append_cons_inj {a b a' b' : List UInt8} (ha : c ∉ a) (ha' : c ∉ a')
    (h : a ++ c :: b = a' ++ c :: b') : a = a' ∧ b = b' := by
  have hcut := cutAt_eq_some_iff.mpr ⟨h, ha'⟩
  rw [cutAt_eq_some_iff.mpr ⟨rfl, ha⟩] at hcut
  exact Prod.mk.inj (Option.some.inj hcut)

theorem isTokenChar_ne (h : isTokenChar c = true) :
    c ≠ 13 ∧ c ≠ 10 ∧ c ≠ 32 ∧ c ≠ 58 := by
  refine ⟨?_, ?_, ?_, ?_⟩ <;>
    · rintro rfl
      revert h
      decide

theorem isTargetChar_ne (h : isTargetChar c = true) : c ≠ 13 ∧ c ≠ 10 ∧ c ≠ 32 := by
  refine ⟨?_, ?_, ?_⟩ <;>
    · rintro rfl
      revert h
      decide

theorem isFieldChar_ne (h : isFieldChar c = true) : c ≠ 13 ∧ c ≠ 10 := by
  refine ⟨?_, ?_⟩ <;>
    · rintro rfl
      revert h
      decide

theorem decodeRequestLine_eq_some_iff {method target : List UInt8} :
    decodeRequestLine line = some (method, target) ↔
      line = method ++ 32 :: (target ++ 32 :: version) ∧ method ≠ [] ∧ method.all isTokenChar ∧
        target ≠ [] ∧ target.all isTargetChar := by
  constructor
  · intro h
    obtain ⟨⟨m, bs⟩, hm, h⟩ := Option.bind_eq_some_iff.mp h
    obtain ⟨⟨t, v⟩, ht, h⟩ := Option.bind_eq_some_iff.mp h
    dsimp only at h
    split_ifs at h with hok
    obtain ⟨rfl, rfl⟩ := Prod.mk.inj (Option.some.inj h)
    obtain ⟨hne, hmethod, htne, htarget, rfl⟩ := hok
    exact ⟨by rw [(cutAt_eq_some_iff.mp hm).1, (cutAt_eq_some_iff.mp ht).1], hne, hmethod, htne,
      htarget⟩
  · rintro ⟨rfl, hne, hmethod, htne, htarget⟩
    have h₁ : (32 : UInt8) ∉ method := fun h =>
      (isTokenChar_ne (List.all_eq_true.mp hmethod _ h)).2.2.1 rfl
    have h₂ : (32 : UInt8) ∉ target := fun h =>
      (isTargetChar_ne (List.all_eq_true.mp htarget _ h)).2.2 rfl
    simp only [decodeRequestLine, cutAt_eq_some_iff.mpr ⟨rfl, h₁⟩,
      cutAt_eq_some_iff.mpr ⟨rfl, h₂⟩, Option.bind_eq_bind, Option.bind_some]
    exact if_pos ⟨hne, hmethod, htne, htarget, trivial⟩

theorem requestLine_inj {method target target' rest' : List UInt8} (ht : (32 : UInt8) ∉ target)
    (ht' : (32 : UInt8) ∉ target')
    (h : method ++ 32 :: (target ++ 32 :: (version ++ crlf)) ++ rest =
      method ++ 32 :: (target' ++ 32 :: (version ++ crlf)) ++ rest') :
    target = target' ∧ rest = rest' := by
  obtain ⟨htarget, hrest⟩ := append_cons_inj ht ht'
    (show target ++ 32 :: (version ++ (crlf ++ rest)) =
      target' ++ 32 :: (version ++ (crlf ++ rest')) by simpa using h)
  exact ⟨htarget, List.append_cancel_left (List.append_cancel_left hrest)⟩

structure Writable (f : Field) : Prop where
  name_ne : f.1 ≠ []
  name : f.1.all isTokenChar
  value : f.2.all isFieldChar

theorem Writable.colon_notMem {f : Field} (hf : Writable f) : (58 : UInt8) ∉ f.1 := fun h =>
  (isTokenChar_ne (List.all_eq_true.mp hf.name _ h)).2.2.2 rfl

theorem writable_mk {name value : List UInt8} (hname : name ≠ [] ∧ name.all isTokenChar)
    (hvalue : value.all isFieldChar) : Writable (name, value) := ⟨hname.1, hname.2, hvalue⟩

theorem trim_cons_blank (hc : isBlank c = true) (bs : List UInt8) : trim (c :: bs) = trim bs := by
  unfold trim
  rw [List.dropWhile_cons_of_pos hc]

theorem trim_concat (hc : isBlank c = false) (bs : List UInt8) :
    trim (bs ++ [c]) = bs.dropWhile isBlank ++ [c] := by
  have hdrop : (bs ++ [c]).dropWhile isBlank = bs.dropWhile isBlank ++ [c] := by
    rw [List.dropWhile_append]
    split_ifs with h
    · rw [List.isEmpty_iff.mp h, List.dropWhile_cons_of_neg (by simp [hc])]
      rfl
    · rfl
  rw [trim, hdrop, List.reverse_append, List.reverse_singleton, List.singleton_append,
    List.dropWhile_cons_of_neg (by simp [hc]), List.reverse_cons, List.reverse_reverse]

theorem trim_sublist (bs : List UInt8) : (trim bs).Sublist bs := by
  unfold trim
  refine List.Sublist.trans ?_ (List.dropWhile_sublist isBlank)
  simpa using (List.dropWhile_sublist isBlank (l := (bs.dropWhile isBlank).reverse)).reverse

theorem trim_of_forall_not_blank (h : ∀ c ∈ bs, isBlank c = false) : trim bs = bs := by
  rcases List.eq_nil_or_concat bs with rfl | ⟨init, c, rfl⟩
  · rfl
  · rw [List.concat_eq_append] at *
    rw [trim_concat (h c (by simp)), List.dropWhile_eq_self_iff.mpr]
    intro hpos
    simpa using h _ (List.mem_append_left [c] (List.getElem_mem hpos))

theorem decodeField_eq_some_iff {f : Field} :
    decodeField line = some f ↔
      ∃ g : Field, Writable g ∧ line = g.1 ++ 58 :: g.2 ∧ f = (g.1, trim g.2) := by
  constructor
  · intro h
    obtain ⟨⟨name, value⟩, hcut, h⟩ := Option.bind_eq_some_iff.mp h
    dsimp only at h
    split_ifs at h with hok
    exact ⟨(name, value), ⟨hok.1, hok.2.1, hok.2.2⟩, (cutAt_eq_some_iff.mp hcut).1,
      (Option.some.inj h).symm⟩
  · rintro ⟨g, hg, rfl, rfl⟩
    simp only [decodeField, cutAt_eq_some_iff.mpr ⟨rfl, hg.colon_notMem⟩, Option.bind_eq_bind,
      Option.bind_some]
    exact if_pos ⟨hg.name_ne, hg.name, hg.value⟩

theorem Writable.noLineEnd {f : Field} (hf : Writable f) :
    ∀ c ∈ f.1 ++ 58 :: f.2, c ≠ 13 ∧ c ≠ 10 := by
  intro c hc
  rcases List.mem_append.mp hc with hc | hc
  · obtain ⟨h₁, h₂, -⟩ := isTokenChar_ne (List.all_eq_true.mp hf.name c hc)
    exact ⟨h₁, h₂⟩
  · rcases List.mem_cons.mp hc with rfl | hc
    · decide
    · exact isFieldChar_ne (List.all_eq_true.mp hf.value c hc)

theorem encodeLine_append (f : Field) (rest : List UInt8) :
    encodeLine f ++ rest = (f.1 ++ 58 :: f.2) ++ (crlf ++ rest) := by
  simp [encodeLine]

theorem decodeFields_eq_some {fuel : ℕ} {fs : List Field}
    (h : decodeFields fuel bs = some (fs, rest)) :
    ∃ fields, (∀ f ∈ fields, Writable f) ∧
      bs = fields.flatMap encodeLine ++ (crlf ++ rest) ∧ fs = readFields fields := by
  induction fuel generalizing bs fs with
  | zero => cases h
  | succ fuel ih =>
    obtain ⟨⟨line, bs'⟩, hline, h⟩ := Option.bind_eq_some_iff.mp h
    obtain ⟨hbs, -⟩ := takeLine_eq_some_iff.mp hline
    dsimp only at h
    rw [hbs]
    split_ifs at h with hnil
    · obtain ⟨rfl, rfl⟩ := Prod.mk.inj (Option.some.inj h)
      exact ⟨[], by simp, by simp [hnil], rfl⟩
    · obtain ⟨f, hf, h⟩ := Option.bind_eq_some_iff.mp h
      obtain ⟨⟨fs', rest'⟩, hfs, h⟩ := Option.bind_eq_some_iff.mp h
      obtain ⟨rfl, rfl⟩ := Prod.mk.inj (Option.some.inj h)
      obtain ⟨g, hg, rfl, rfl⟩ := decodeField_eq_some_iff.mp hf
      obtain ⟨fields, hall, rfl, rfl⟩ := ih hfs
      exact ⟨g :: fields, List.forall_mem_cons.mpr ⟨hg, hall⟩, by simp [encodeLine], rfl⟩

theorem decodeFields_encode {fields : List Field} (hf : ∀ f ∈ fields, Writable f)
    (rest : List UInt8) {fuel : ℕ} (hfuel : fields.length < fuel) :
    decodeFields fuel (fields.flatMap encodeLine ++ (crlf ++ rest)) =
      some (readFields fields, rest) := by
  induction fields generalizing fuel with
  | nil =>
    obtain ⟨fuel, rfl⟩ := Nat.exists_eq_succ_of_ne_zero (Nat.ne_of_gt hfuel)
    rfl
  | cons f fields ih =>
    obtain ⟨fuel, rfl⟩ := Nat.exists_eq_succ_of_ne_zero (Nat.ne_of_gt (Nat.zero_lt_of_lt hfuel))
    obtain ⟨hf, hfields⟩ := List.forall_mem_cons.mp hf
    have hne : f.1 ++ 58 :: f.2 ≠ [] := by simp
    rw [List.flatMap_cons, List.append_assoc, encodeLine_append, decodeFields,
      takeLine_append hf.noLineEnd]
    simp only [Option.bind_eq_bind, Option.bind_some, if_neg hne,
      decodeField_eq_some_iff.mpr ⟨f, hf, rfl, rfl⟩, ih hfields (Nat.lt_of_succ_lt_succ hfuel)]
    rfl

theorem length_le_flatMap_encodeLine (fields : List Field) :
    fields.length ≤ (fields.flatMap encodeLine).length := by
  induction fields with
  | nil => exact le_rfl
  | cons f fields ih =>
    rw [List.flatMap_cons, List.length_append, List.length_cons, encodeLine, List.length_append,
      List.length_cons]
    omega

theorem isDigit_ofNat {d : ℕ} (h : d < 10) : isDigit (UInt8.ofNat (48 + d)) = true := by
  interval_cases d <;> rfl

theorem toNat_ofNat_digit {d : ℕ} (h : d < 10) : (UInt8.ofNat (48 + d)).toNat - 48 = d := by
  interval_cases d <;> rfl

theorem isFieldChar_of_isDigit (h : isDigit c = true) : isFieldChar c = true := by
  simp only [isDigit, Bool.and_eq_true, decide_eq_true_eq, UInt8.le_iff_toNat_le] at h
  have h₁ : ¬ c < 32 := by
    rw [UInt8.lt_iff_toNat_lt]
    exact Nat.not_lt.mpr (le_trans (by decide) h.1)
  have h₂ : c ≠ 127 := by
    rintro rfl
    exact absurd h.2 (by decide)
  simp [isFieldChar, isControl, h₁, h₂]

theorem isBlank_of_isDigit (h : isDigit c = true) : isBlank c = false := by
  refine Bool.eq_false_iff.mpr fun hb => ?_
  rcases (by simpa [isBlank] using hb : c = 32 ∨ c = 9) with rfl | rfl
  all_goals exact absurd h (by decide)

theorem isDigit_of_mem_decimal {n : ℕ} (h : c ∈ decimal n) : isDigit c = true := by
  unfold decimal at h
  split_ifs at h
  · rw [List.mem_singleton.mp h]
    rfl
  · obtain ⟨d, hd, rfl⟩ := List.mem_map.mp h
    exact isDigit_ofNat (Nat.digits_lt_base (by decide) (List.mem_reverse.mp hd))

theorem decimal_ne_nil (n : ℕ) : decimal n ≠ [] := by
  unfold decimal
  split_ifs with h0
  · simp
  · simp [Nat.digits_ne_nil_iff_ne_zero.mpr h0]

theorem length_decimal_le {n k : ℕ} (hn : n < 10 ^ k) (hk : 0 < k) : (decimal n).length ≤ k := by
  unfold decimal
  split_ifs with h0
  · exact hk
  · rw [List.length_map, List.length_reverse]
    exact (Nat.digits_length_le_iff (by decide) n).mpr hn

theorem decodeDecimal_decimal (n : ℕ) : decodeDecimal (decimal n) = some n := by
  have hdigit : (decimal n).all isDigit :=
    List.all_eq_true.mpr fun c hc => isDigit_of_mem_decimal hc
  unfold decodeDecimal
  rw [if_pos ⟨decimal_ne_nil n, hdigit⟩]
  unfold decimal
  split_ifs with h0
  · rw [h0]
    rfl
  · have hmap : ((Nat.digits 10 n).reverse.map fun d => UInt8.ofNat (48 + d)).reverse.map
        (fun c => c.toNat - 48) = Nat.digits 10 n := by
      rw [← List.map_reverse, List.reverse_reverse, List.map_map]
      refine (List.map_congr_left fun d hd => ?_).trans (List.map_id _)
      exact toNat_ofNat_digit (Nat.digits_lt_base (by decide) hd)
    rw [hmap, Nat.ofDigits_digits]

theorem fieldValues_append (fs gs : List Field) (name : List UInt8) :
    fieldValues (fs ++ gs) name = fieldValues fs name ++ fieldValues gs name := by
  simp [fieldValues]

theorem fieldValues_eq_nil {fs : List Field} {name : List UInt8}
    (h : ∀ f ∈ fs, f.1.map toLower ≠ name.map toLower) : fieldValues fs name = [] := by
  unfold fieldValues
  rw [List.filter_eq_nil_iff.mpr fun f hf => by simpa using h f hf]
  rfl

theorem fieldValues_cons_self {n v name : List UInt8} (h : n.map toLower = name.map toLower)
    (fs : List Field) : fieldValues ((n, v) :: fs) name = v :: fieldValues fs name := by
  simp [fieldValues, h]

theorem fieldValues_cons_of_ne {n v name : List UInt8} (h : n.map toLower ≠ name.map toLower)
    (fs : List Field) : fieldValues ((n, v) :: fs) name = fieldValues fs name := by
  simp [fieldValues, h]

/-- What the receiver reads: the parts of the message, with the white space around the values of
the fields gone. -/
theorem decodeRequest_eq_some_iff {m : RequestMessage} :
    decodeRequest bs = some m ↔ ∃ fields,
      bs = encodeRequest { m with fields := fields } ∧ m.fields = readFields fields ∧
      (m.method ≠ [] ∧ m.method.all isTokenChar ∧ m.target ≠ [] ∧ m.target.all isTargetChar) ∧
      (∀ f ∈ fields, Writable f) ∧ (fieldValues m.fields hostName).length = 1 ∧
      fieldValues m.fields transferEncodingName = [] ∧
      bodyLength m.fields = some m.body.length := by
  constructor
  · intro h
    obtain ⟨⟨line, bs'⟩, hline, h⟩ := Option.bind_eq_some_iff.mp h
    obtain ⟨⟨method, target⟩, hreq, h⟩ := Option.bind_eq_some_iff.mp h
    obtain ⟨⟨fs, body⟩, hfs, h⟩ := Option.bind_eq_some_iff.mp h
    obtain ⟨n, hn, h⟩ := Option.bind_eq_some_iff.mp h
    split_ifs at h with hok
    obtain rfl := Option.some.inj h
    obtain ⟨hhost, hcoding, rfl⟩ := hok
    obtain ⟨rfl, -⟩ := takeLine_eq_some_iff.mp hline
    obtain ⟨rfl, hvalid⟩ := decodeRequestLine_eq_some_iff.mp hreq
    obtain ⟨fields, hf, rfl, rfl⟩ := decodeFields_eq_some hfs
    exact ⟨fields, by simp [encodeRequest], rfl, hvalid, hf, hhost, hcoding, hn⟩
  · rintro ⟨fields, rfl, hfields, hvalid, hf, hhost, hcoding, hbody⟩
    have hline : ∀ c ∈ m.method ++ 32 :: (m.target ++ 32 :: version), c ≠ 13 ∧ c ≠ 10 := by
      intro c hc
      rcases List.mem_append.mp hc with hc | hc
      · obtain ⟨h₁, h₂, -⟩ := isTokenChar_ne (List.all_eq_true.mp hvalid.2.1 c hc)
        exact ⟨h₁, h₂⟩
      · rcases List.mem_cons.mp hc with rfl | hc
        · decide
        · rcases List.mem_append.mp hc with hc | hc
          · obtain ⟨h₁, h₂, -⟩ := isTargetChar_ne (List.all_eq_true.mp hvalid.2.2.2 c hc)
            exact ⟨h₁, h₂⟩
          · have hv : (32 :: version).all fun c => c != 13 && c != 10 := by decide
            simpa using List.all_eq_true.mp hv c hc
    have htext : encodeRequest { m with fields := fields } =
        (m.method ++ 32 :: (m.target ++ 32 :: version)) ++
          (crlf ++ (fields.flatMap encodeLine ++ (crlf ++ m.body))) := by
      simp [encodeRequest]
    have hfuel : fields.length < (fields.flatMap encodeLine ++ (crlf ++ m.body)).length := by
      have := length_le_flatMap_encodeLine fields
      simp only [List.length_append, crlf, List.length_cons]
      omega
    rw [htext, decodeRequest, takeLine_append hline]
    simp only [Option.bind_eq_bind, Option.bind_some,
      decodeRequestLine_eq_some_iff.mpr ⟨rfl, hvalid⟩, decodeFields_encode hf m.body hfuel,
      ← hfields, hbody]
    exact if_pos ⟨hhost, hcoding, trivial⟩

/-- A line end that is not the last one is the end of some field's line. -/
theorem flatMap_encodeLine_split {fields : List Field} (hf : ∀ f ∈ fields, Writable f)
    {text more : List UInt8} (hne : more ≠ [])
    (h : text ++ (crlf ++ more) = fields.flatMap encodeLine ++ crlf) :
    ∃ fs gs, fields = fs ++ gs ∧ text ++ crlf = fs.flatMap encodeLine ∧
      more = gs.flatMap encodeLine ++ crlf := by
  induction fields generalizing text with
  | nil =>
    have hlen := congrArg List.length h
    have hpos := List.length_pos_iff.mpr hne
    simp only [List.flatMap_nil, List.length_append, List.length_nil, crlf, List.length_cons]
      at hlen
    omega
  | cons f fields ih =>
    obtain ⟨hf, hfields⟩ := List.forall_mem_cons.mp hf
    rw [List.flatMap_cons, List.append_assoc, encodeLine_append] at h
    rcases List.append_eq_append_iff.mp h with ⟨u, hu, hrest⟩ | ⟨u, hu, hrest⟩
    · -- the line end is not inside the line of the field
      cases u with
      | nil =>
        refine ⟨[f], fields, rfl, ?_, ?_⟩
        · rw [List.append_nil] at hu
          simp [← hu, encodeLine]
        · exact (List.append_cancel_left hrest).symm ▸ rfl
      | cons c u =>
        obtain rfl : c = 13 := (List.cons.inj hrest).1.symm
        exact absurd rfl (hf.noLineEnd 13 (by rw [hu]; simp)).1
    · rcases u with _ | ⟨c, _ | ⟨d, u⟩⟩
      · refine ⟨[f], fields, rfl, ?_, ?_⟩
        · rw [List.append_nil] at hu
          simp [hu, encodeLine]
        · exact (List.append_cancel_left hrest).symm
      · -- a second CR instead of the LF
        exact absurd (List.cons.inj (List.cons.inj hrest).2).1 (by decide)
      · obtain ⟨hc, hrest⟩ := List.cons.inj hrest
        obtain ⟨hd, hrest⟩ := List.cons.inj hrest
        obtain ⟨fs, gs, rfl, hfs, hmore⟩ := ih hfields hrest.symm
        refine ⟨f :: fs, gs, rfl, ?_, hmore⟩
        rw [List.flatMap_cons, ← hfs, encodeLine_append, hu, ← hc, ← hd]
        simp [crlf]

theorem flatMap_encodeLine_name {fields : List Field} (hf : ∀ f ∈ fields, Writable f)
    {name text : List UInt8} (hname : (58 : UInt8) ∉ name)
    (h : name ++ 58 :: 32 :: text ++ crlf = fields.flatMap encodeLine) :
    ∃ value more, fields = (name, 32 :: value) :: more ∧
      text ++ crlf = value ++ (crlf ++ more.flatMap encodeLine) := by
  cases fields with
  | nil => simp [crlf] at h
  | cons f fields =>
    obtain ⟨hf, -⟩ := List.forall_mem_cons.mp hf
    obtain ⟨rfl, hv⟩ := append_cons_inj hname hf.colon_notMem
      (show name ++ 58 :: (32 :: (text ++ crlf)) =
        f.1 ++ 58 :: (f.2 ++ (crlf ++ fields.flatMap encodeLine)) by simpa [encodeLine] using h)
    obtain ⟨name, _ | ⟨c, value⟩⟩ := f
    · exact absurd (List.cons.inj hv).1 (by decide)
    · obtain ⟨hc, hv⟩ := List.cons.inj hv
      exact ⟨value, fields, by rw [hc], hv⟩

theorem flatMap_encodeLine_strip {known fields : List Field} (hk : ∀ f ∈ known, Writable f)
    (hf : ∀ f ∈ fields, Writable f) {more : List UInt8}
    (h : known.flatMap encodeLine ++ more = fields.flatMap encodeLine ++ crlf) :
    ∃ gs, fields = known ++ gs ∧ more = gs.flatMap encodeLine ++ crlf := by
  induction known generalizing fields with
  | nil => exact ⟨fields, rfl, h⟩
  | cons k known ih =>
    obtain ⟨hk, hknown⟩ := List.forall_mem_cons.mp hk
    have htake := takeLine_append hk.noLineEnd (known.flatMap encodeLine ++ more)
    rw [← encodeLine_append, ← List.append_assoc, ← List.flatMap_cons, h] at htake
    cases fields with
    | nil =>
      obtain ⟨hline, -⟩ := Prod.mk.inj (Option.some.inj htake)
      simp at hline
    | cons f fields =>
      obtain ⟨hf, hfields⟩ := List.forall_mem_cons.mp hf
      rw [List.flatMap_cons, List.append_assoc, encodeLine_append,
        takeLine_append hf.noLineEnd] at htake
      obtain ⟨hline, hrest⟩ := Prod.mk.inj (Option.some.inj htake)
      obtain ⟨hname, hvalue⟩ := append_cons_inj hf.colon_notMem hk.colon_notMem hline
      obtain ⟨gs, hgs, hmore⟩ := ih hknown hfields hrest.symm
      exact ⟨gs, by rw [Prod.ext hname hvalue, hgs]; rfl, hmore⟩

theorem fieldValues_readFields (fs : List Field) (name : List UInt8) :
    fieldValues (readFields fs) name = (fieldValues fs name).map trim := by
  simp [fieldValues, readFields, List.filter_map, Function.comp_def]

end SofaBolt.HttpMessage
