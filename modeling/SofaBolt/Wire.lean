import Mathlib.Tactic

namespace SofaBolt.Wire

def encodeBE : ℕ → ℕ → List UInt8
  | 0, _ => []
  | w + 1, v => encodeBE w (v / 256) ++ [UInt8.ofNat v]

def decodeBE (bs : List UInt8) : ℕ := bs.foldl (fun a b => a * 256 + b.toNat) 0

@[simp] theorem encodeBE_length (w v : ℕ) : (encodeBE w v).length = w := by
  induction w generalizing v with
  | zero => rfl
  | succ w ih => simp [encodeBE, ih]

@[simp] theorem decodeBE_nil : decodeBE [] = 0 := rfl

@[simp] theorem decodeBE_concat (bs : List UInt8) (b : UInt8) :
    decodeBE (bs ++ [b]) = decodeBE bs * 256 + b.toNat := by
  simp [decodeBE]

theorem decodeBE_lt (bs : List UInt8) : decodeBE bs < 256 ^ bs.length := by
  induction bs using List.reverseRecOn with
  | nil => simp
  | append_singleton bs b ih =>
    have hb : b.toNat < 256 := b.toNat_lt
    rw [decodeBE_concat, List.length_append, List.length_singleton, pow_succ]
    omega

theorem decodeBE_encodeBE (w v : ℕ) : decodeBE (encodeBE w v) = v % 256 ^ w := by
  induction w generalizing v with
  | zero => simp [encodeBE, Nat.mod_one]
  | succ w ih =>
    have hb : (UInt8.ofNat v).toNat = v % 256 := UInt8.toNat_ofNat'
    have hm : v % (256 * 256 ^ w) = v % 256 + 256 * (v / 256 % 256 ^ w) := Nat.mod_mul
    rw [encodeBE, decodeBE_concat, ih, hb, pow_succ, Nat.mul_comm (256 ^ w) 256, hm]
    omega

theorem decodeBE_encodeBE_of_lt {w v : ℕ} (h : v < 256 ^ w) : decodeBE (encodeBE w v) = v := by
  rw [decodeBE_encodeBE, Nat.mod_eq_of_lt h]

theorem encodeBE_decodeBE (bs : List UInt8) : encodeBE bs.length (decodeBE bs) = bs := by
  induction bs using List.reverseRecOn with
  | nil => rfl
  | append_singleton bs b ih =>
    have hb : b.toNat < 256 := b.toNat_lt
    have hdiv : (decodeBE bs * 256 + b.toNat) / 256 = decodeBE bs := by omega
    have hmod : UInt8.ofNat (decodeBE bs * 256 + b.toNat) = b := by
      apply UInt8.toNat_inj.mp
      rw [UInt8.toNat_ofNat']
      omega
    rw [decodeBE_concat, List.length_append, List.length_singleton, encodeBE, hdiv, ih, hmod]

def readExact (n : ℕ) (bs : List UInt8) : Option (List UInt8 × List UInt8) :=
  if n ≤ bs.length then some (bs.take n, bs.drop n) else none

theorem readExact_append {n : ℕ} {xs : List UInt8} (h : xs.length = n) (rest : List UInt8) :
    readExact n (xs ++ rest) = some (xs, rest) := by
  simp [readExact, h, List.take_left' h, List.drop_left' h]

theorem readExact_eq_some {n : ℕ} {bs xs rest : List UInt8}
    (h : readExact n bs = some (xs, rest)) : bs = xs ++ rest ∧ xs.length = n := by
  unfold readExact at h
  split_ifs at h with hn
  obtain ⟨rfl, rfl⟩ := Prod.mk.inj (Option.some.inj h)
  exact ⟨(List.take_append_drop n bs).symm, List.length_take_of_le hn⟩

theorem readExact_eq_none {n : ℕ} {bs : List UInt8} : readExact n bs = none ↔ bs.length < n := by
  simp [readExact]

def encodeFields (fs : List (ℕ × ℕ)) : List UInt8 := fs.flatMap fun f => encodeBE f.1 f.2

def decodeFields : List ℕ → List UInt8 → Option (List ℕ × List UInt8)
  | [], bs => some ([], bs)
  | w :: ws, bs => do
    let (x, bs) ← readExact w bs
    let (vs, bs) ← decodeFields ws bs
    some (decodeBE x :: vs, bs)

theorem encodeFields_length (fs : List (ℕ × ℕ)) :
    (encodeFields fs).length = (fs.map Prod.fst).sum := by
  simp [encodeFields, List.length_flatMap]

theorem decodeFields_lt {ws vs : List ℕ} {bs rest : List UInt8}
    (h : decodeFields ws bs = some (vs, rest)) : List.Forall₂ (fun w v => v < 256 ^ w) ws vs := by
  induction ws generalizing bs vs with
  | nil =>
    obtain ⟨rfl, -⟩ := Prod.mk.inj (Option.some.inj h)
    exact .nil
  | cons w ws ih =>
    obtain ⟨⟨x, bs'⟩, hread, h⟩ := Option.bind_eq_some_iff.mp h
    obtain ⟨⟨vs', bs''⟩, hrec, h⟩ := Option.bind_eq_some_iff.mp h
    obtain ⟨rfl, rfl⟩ := Prod.mk.inj (Option.some.inj h)
    obtain ⟨-, rfl⟩ := readExact_eq_some hread
    exact .cons (decodeBE_lt x) (ih hrec)

theorem decodeFields_encodeFields (fs : List (ℕ × ℕ)) (hf : ∀ f ∈ fs, f.2 < 256 ^ f.1)
    (rest : List UInt8) :
    decodeFields (fs.map Prod.fst) (encodeFields fs ++ rest) = some (fs.map Prod.snd, rest) := by
  induction fs with
  | nil => rfl
  | cons f fs ih =>
    have hrec := ih fun g hg => hf g (List.mem_cons_of_mem f hg)
    have hread : readExact f.1 (encodeFields (f :: fs) ++ rest) =
        some (encodeBE f.1 f.2, encodeFields fs ++ rest) := by
      rw [encodeFields, List.flatMap_cons, List.append_assoc]
      exact readExact_append (encodeBE_length _ _) _
    simp only [List.map_cons, decodeFields, hread, hrec, Option.bind_eq_bind, Option.bind_some,
      decodeBE_encodeBE_of_lt (hf f List.mem_cons_self)]

abbrev Entry := List UInt8 × List UInt8

def encodeString (w : ℕ) (s : List UInt8) : List UInt8 := encodeBE w s.length ++ s

def encodeEntry (w : ℕ) (e : Entry) : List UInt8 := encodeString w e.1 ++ encodeString w e.2

def Entry.Fits (w : ℕ) (e : Entry) : Prop := e.1.length < 256 ^ w ∧ e.2.length < 256 ^ w

instance (w : ℕ) (e : Entry) : Decidable (Entry.Fits w e) := inferInstanceAs (Decidable (_ ∧ _))

def decodeString (w : ℕ) (bs : List UInt8) : Option (List UInt8 × List UInt8) := do
  let (len, bs) ← readExact w bs
  readExact (decodeBE len) bs

def decodeEntry (w : ℕ) (bs : List UInt8) : Option (Entry × List UInt8) := do
  let (k, bs) ← decodeString w bs
  let (v, bs) ← decodeString w bs
  some ((k, v), bs)

def decodeEntries (w : ℕ) : ℕ → List UInt8 → Option (List Entry)
  | _, [] => some []
  | 0, _ :: _ => none
  | fuel + 1, b :: bs => do
    let (e, rest) ← decodeEntry w (b :: bs)
    let es ← decodeEntries w fuel rest
    some (e :: es)

/-- Each entry takes at least its two lengths, so the section's own length
bounds the number of rounds. -/
def decodeSection (w : ℕ) (bs : List UInt8) : Option (List Entry) := decodeEntries w bs.length bs

@[simp] theorem encodeString_length (w : ℕ) (s : List UInt8) :
    (encodeString w s).length = w + s.length := by simp [encodeString]

@[simp] theorem encodeEntry_length (w : ℕ) (e : Entry) :
    (encodeEntry w e).length = w + e.1.length + (w + e.2.length) := by simp [encodeEntry]

theorem fits_of_flatMap_lt {w : ℕ} {es : List Entry}
    (h : (es.flatMap (encodeEntry w)).length < 256 ^ w) : ∀ e ∈ es, e.Fits w := by
  intro e he
  have hsub : (encodeEntry w e).length ≤ (es.flatMap (encodeEntry w)).length :=
    (List.sublist_flatten_of_mem (List.mem_map_of_mem he)).length_le
  rw [encodeEntry_length] at hsub
  exact ⟨by omega, by omega⟩

theorem decodeString_append {w : ℕ} {s : List UInt8} (h : s.length < 256 ^ w)
    (rest : List UInt8) : decodeString w (encodeString w s ++ rest) = some (s, rest) := by
  rw [decodeString, encodeString, List.append_assoc, readExact_append (encodeBE_length w _)]
  simp only [Option.bind_eq_bind, Option.bind_some, decodeBE_encodeBE_of_lt h]
  exact readExact_append rfl rest

theorem decodeString_eq_some {w : ℕ} {bs s rest : List UInt8}
    (h : decodeString w bs = some (s, rest)) :
    bs = encodeString w s ++ rest ∧ s.length < 256 ^ w := by
  simp only [decodeString, Option.bind_eq_bind, Option.bind_eq_some_iff] at h
  obtain ⟨⟨len, bs'⟩, h₁, h₂⟩ := h
  obtain ⟨rfl, hl⟩ := readExact_eq_some h₁
  obtain ⟨rfl, hs⟩ := readExact_eq_some h₂
  have he := encodeBE_decodeBE len
  have hlt := decodeBE_lt len
  rw [hl, ← hs] at he hlt
  exact ⟨by rw [encodeString, he, List.append_assoc], hlt⟩

theorem decodeEntry_append {w : ℕ} {e : Entry} (h : e.Fits w) (rest : List UInt8) :
    decodeEntry w (encodeEntry w e ++ rest) = some (e, rest) := by
  rw [decodeEntry, encodeEntry, List.append_assoc, decodeString_append h.1]
  simp only [Option.bind_eq_bind, Option.bind_some, decodeString_append h.2]

theorem decodeEntry_eq_some {w : ℕ} {bs rest : List UInt8} {e : Entry}
    (h : decodeEntry w bs = some (e, rest)) : bs = encodeEntry w e ++ rest ∧ e.Fits w := by
  simp only [decodeEntry, Option.bind_eq_bind, Option.bind_eq_some_iff] at h
  obtain ⟨⟨k, bs₁⟩, h₁, ⟨v, bs₂⟩, h₂, h₃⟩ := h
  obtain ⟨rfl, rfl⟩ := Prod.mk.inj (Option.some.inj h₃)
  obtain ⟨rfl, hk⟩ := decodeString_eq_some h₁
  obtain ⟨rfl, hv⟩ := decodeString_eq_some h₂
  exact ⟨by rw [encodeEntry, List.append_assoc], hk, hv⟩

theorem decodeEntries_eq_some {w fuel : ℕ} {bs : List UInt8} {es : List Entry}
    (h : decodeEntries w fuel bs = some es) :
    bs = es.flatMap (encodeEntry w) ∧ ∀ e ∈ es, e.Fits w := by
  induction fuel generalizing bs es with
  | zero =>
    cases bs with
    | nil => obtain rfl := Option.some.inj h; simp
    | cons b bs => simp [decodeEntries] at h
  | succ fuel ih =>
    cases bs with
    | nil => obtain rfl := Option.some.inj h; simp
    | cons b bs =>
      simp only [decodeEntries, Option.bind_eq_bind, Option.bind_eq_some_iff] at h
      obtain ⟨⟨e, rest⟩, h₁, es', h₂, h₃⟩ := h
      obtain rfl := Option.some.inj h₃
      obtain ⟨he, hf⟩ := decodeEntry_eq_some h₁
      obtain ⟨rfl, hes⟩ := ih h₂
      exact ⟨by rw [he, List.flatMap_cons], List.forall_mem_cons.mpr ⟨hf, hes⟩⟩

theorem decodeEntries_flatMap {w : ℕ} (hw : 0 < w) {es : List Entry} (hf : ∀ e ∈ es, e.Fits w)
    {fuel : ℕ} (hfuel : (es.flatMap (encodeEntry w)).length ≤ fuel) :
    decodeEntries w fuel (es.flatMap (encodeEntry w)) = some es := by
  induction es generalizing fuel with
  | nil => cases fuel <;> rfl
  | cons e es ih =>
    rw [List.flatMap_cons] at hfuel ⊢
    have hlen : w ≤ (encodeEntry w e).length := by rw [encodeEntry_length]; omega
    obtain ⟨fuel, rfl⟩ : ∃ k, fuel = k + 1 := by
      rw [List.length_append] at hfuel
      exact ⟨fuel - 1, by omega⟩
    obtain ⟨b, bs, hbs⟩ : ∃ b bs, encodeEntry w e ++ es.flatMap (encodeEntry w) = b :: bs := by
      refine List.exists_cons_of_ne_nil fun h0 => ?_
      rw [List.append_eq_nil_iff] at h0
      rw [h0.1, List.length_nil] at hlen
      omega
    have hdec := decodeEntry_append (hf e (by simp)) (es.flatMap (encodeEntry w))
    have hrec : decodeEntries w fuel (es.flatMap (encodeEntry w)) = some es :=
      ih (fun x hx => hf x (by simp [hx])) (by rw [List.length_append] at hfuel; omega)
    rw [hbs] at hdec ⊢
    rw [decodeEntries, hdec]
    simp [hrec]

/-- A section decodes to `es` exactly if it is tiled by the entries of `es`. -/
theorem decodeSection_eq_some_iff {w : ℕ} (hw : 0 < w) {bs : List UInt8} {es : List Entry} :
    decodeSection w bs = some es ↔ bs = es.flatMap (encodeEntry w) ∧ ∀ e ∈ es, e.Fits w := by
  constructor
  · exact decodeEntries_eq_some
  · rintro ⟨rfl, hf⟩
    exact decodeEntries_flatMap hw hf le_rfl

end SofaBolt.Wire
