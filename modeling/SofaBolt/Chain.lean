import Mathlib.Data.Finset.Card
import Mathlib.Tactic

namespace SofaBolt.Chain

variable {ι P K : Type*}

inductive Link (ι P : Type*) where
  | head (i : ι)
  | next (p : P)
deriving DecidableEq, Repr

def IsChain (m : Link ι P → Option P) : Link ι P → List P → Prop
  | l, [] => m l = none
  | l, p :: ps => m l = some p ∧ IsChain m (.next p) ps

instance decidableIsChain [DecidableEq P] (m : Link ι P → Option P) :
    (l : Link ι P) → (ps : List P) → Decidable (IsChain m l ps)
  | l, [] => inferInstanceAs (Decidable (m l = none))
  | l, p :: ps =>
    have := decidableIsChain m (.next p) ps
    inferInstanceAs (Decidable (m l = some p ∧ IsChain m (.next p) ps))

def endLink : Link ι P → List P → Link ι P
  | l, [] => l
  | _, p :: ps => endLink (.next p) ps

/-- Walk from a link to the one that holds the node with the given key, or to the end of
the chain.  It gives up after `fuel` links, or at a node that has no key. -/
def find [DecidableEq K] (m : Link ι P → Option P) (key : P → Option K) (k : K) :
    ℕ → Link ι P → Option (Link ι P)
  | 0, _ => none
  | fuel + 1, l =>
    match m l with
    | none => some l
    | some p => (key p).bind fun k' => if k' = k then some l else find m key k fuel (.next p)

variable {m m' : Link ι P → Option P} {l : Link ι P} {as bs ps : List P} {p : P} {i : ι}

theorem isChain_append : IsChain m l (as ++ bs) → IsChain m (endLink l as) bs := by
  induction as generalizing l with
  | nil => exact id
  | cons a as ih => exact fun h => ih h.2

theorem IsChain.congr (h : IsChain m l ps) (hl : m' l = m l)
    (hps : ∀ p ∈ ps, m' (.next p) = m (.next p)) : IsChain m' l ps := by
  induction ps generalizing l with
  | nil => exact hl.trans h
  | cons p ps ih =>
    exact ⟨hl.trans h.1, ih h.2 (hps p List.mem_cons_self) fun q hq =>
      hps q (List.mem_cons_of_mem p hq)⟩

theorem IsChain.unique (h : IsChain m l as) (h' : IsChain m l bs) : as = bs := by
  induction as generalizing l bs with
  | nil =>
    cases bs with
    | nil => rfl
    | cons b bs => cases h.symm.trans h'.1
  | cons a as ih =>
    cases bs with
    | nil => cases h.1.symm.trans h'
    | cons b bs =>
      obtain rfl := Option.some.inj (h.1.symm.trans h'.1)
      rw [ih h.2 h'.2]

theorem endLink_append (l : Link ι P) (as : List P) (p : P) : endLink l (as ++ [p]) = .next p := by
  induction as generalizing l with
  | nil => rfl
  | cons a as ih => exact ih (.next a)

theorem endLink_head_cases (i : ι) (as : List P) :
    (as = [] ∧ endLink (.head i) as = .head i) ∨
      ∃ init p, as = init ++ [p] ∧ endLink (Link.head i) as = .next p := by
  rcases List.eq_nil_or_concat as with rfl | ⟨init, p, rfl⟩
  · exact Or.inl ⟨rfl, rfl⟩
  · rw [List.concat_eq_append]
    exact Or.inr ⟨init, p, rfl, endLink_append _ _ _⟩

theorem endLink_ne_head {j : ι} (hij : j ≠ i) (as : List P) : endLink (.head i) as ≠ .head j := by
  rcases endLink_head_cases i as with ⟨-, h⟩ | ⟨init, p, -, h⟩
  · rw [h]
    simpa using hij.symm
  · rw [h]
    simp

theorem endLink_ne_next (hp : p ∉ as) : endLink (.head i) as ≠ Link.next p := by
  rcases endLink_head_cases i as with ⟨-, h⟩ | ⟨init, q, rfl, h⟩
  · rw [h]
    simp
  · rw [h]
    rintro ⟨⟩
    simp at hp

section Update

variable [DecidableEq ι] [DecidableEq P] {v : Option P}

/-- The links of a chain up to a node are not the one behind it. -/
theorem IsChain.splice (h : IsChain m (.head i) (as ++ bs)) (hn : as.Nodup)
    (h' : IsChain (Function.update m (endLink (.head i) as) v) (endLink (.head i) as) ps) :
    IsChain (Function.update m (endLink (.head i) as) v) (.head i) (as ++ ps) := by
  rcases List.eq_nil_or_concat as with rfl | ⟨init, p, has⟩
  · exact h'
  rw [List.concat_eq_append] at has
  subst has
  rw [endLink_append] at h' ⊢
  have hp : p ∉ init := by
    rw [List.nodup_append] at hn
    exact fun hp => hn.2.2 p hp p (by simp) rfl
  -- from the head to the node `p`, whose link is the one that is written
  have hgo : ∀ (l : Link ι P) (qs : List P), l ≠ .next p → p ∉ qs →
      IsChain m l (qs ++ p :: bs) →
      IsChain (Function.update m (.next p) v) l (qs ++ p :: ps) := by
    intro l qs hl hqs hch
    induction qs generalizing l with
    | nil => exact ⟨by rw [Function.update_of_ne hl]; exact hch.1, h'⟩
    | cons q qs ih =>
      obtain ⟨hpq, hqs⟩ := List.ne_and_not_mem_of_not_mem_cons hqs
      exact ⟨by rw [Function.update_of_ne hl]; exact hch.1,
        ih (.next q) (by simpa using hpq.symm) hqs hch.2⟩
  rw [List.append_assoc] at h ⊢
  exact hgo (.head i) init (by simp) hp h

/-- A node is put behind the nodes `as`; what was there is cut off. -/
theorem IsChain.put (h : IsChain m (.head i) (as ++ bs)) (hn : as.Nodup) (hp : p ∉ as)
    (hend : m (.next p) = none) :
    IsChain (Function.update m (endLink (.head i) as) (some p)) (.head i) (as ++ [p]) := by
  refine h.splice hn ⟨Function.update_self .., ?_⟩
  change Function.update m (endLink (.head i) as) (some p) (.next p) = none
  rw [Function.update_of_ne (endLink_ne_next hp).symm, hend]

theorem IsChain.erase (h : IsChain m (.head i) (as ++ p :: bs)) (hn : (as ++ p :: bs).Nodup) :
    IsChain (Function.update m (endLink (.head i) as) (m (.next p))) (.head i) (as ++ bs) := by
  rw [List.nodup_append] at hn
  obtain ⟨has, hbs, hdis⟩ := hn
  have hb : ∀ b ∈ bs, endLink (.head i) as ≠ Link.next b := fun b hb =>
    endLink_ne_next fun hmem => hdis b hmem b (List.mem_cons_of_mem p hb) rfl
  have hrest : IsChain m (.next p) bs := (isChain_append h).2
  refine h.splice has ?_
  cases bs with
  | nil => exact (Function.update_self ..).trans hrest
  | cons b bs =>
    refine ⟨(Function.update_self ..).trans hrest.1, hrest.2.congr ?_ ?_⟩
    · rw [Function.update_of_ne (hb b List.mem_cons_self).symm]
    · intro q hq
      rw [Function.update_of_ne (hb q (List.mem_cons_of_mem b hq)).symm]

theorem IsChain.update_other {j : ι} (h : IsChain m (.head j) ps) (hij : j ≠ i)
    (hdis : ∀ p ∈ ps, p ∉ as) :
    IsChain (Function.update m (endLink (.head i) as) v) (.head j) ps := by
  refine h.congr ?_ fun p hp => ?_
  · rw [Function.update_of_ne (endLink_ne_head hij as).symm]
  · rw [Function.update_of_ne (endLink_ne_next (hdis p hp)).symm]

end Update

section Find

variable [DecidableEq K] {key : P → Option K} {k : K}

theorem find_append {fuel : ℕ} (h : IsChain m l (as ++ bs))
    (hkey : ∀ a ∈ as, ∃ k', key a = some k' ∧ k' ≠ k) :
    find m key k (fuel + as.length) l = find m key k fuel (endLink l as) := by
  induction as generalizing l with
  | nil => rfl
  | cons a as ih =>
    obtain ⟨k', hk', hne⟩ := hkey a List.mem_cons_self
    rw [List.length_cons, ← Nat.add_assoc, find, h.1]
    simp only [hk', Option.bind_some, if_neg hne]
    exact ih h.2 fun b hb => hkey b (List.mem_cons_of_mem a hb)

theorem find_absent {fuel : ℕ} (h : IsChain m l as)
    (hkey : ∀ a ∈ as, ∃ k', key a = some k' ∧ k' ≠ k) (hf : as.length < fuel) :
    find m key k fuel l = some (endLink l as) ∧ m (endLink l as) = none := by
  obtain ⟨n, rfl⟩ : ∃ n, fuel = n + 1 + as.length := ⟨fuel - as.length - 1, by omega⟩
  rw [← List.append_nil as] at h
  have hend : m (endLink l as) = none := isChain_append h
  rw [find_append h hkey, find, hend]
  exact ⟨rfl, rfl⟩

theorem find_present {fuel : ℕ} (h : IsChain m l (as ++ p :: bs))
    (hkey : ∀ a ∈ as, ∃ k', key a = some k' ∧ k' ≠ k) (hp : key p = some k)
    (hf : as.length < fuel) :
    find m key k fuel l = some (endLink l as) ∧ m (endLink l as) = some p := by
  obtain ⟨n, rfl⟩ : ∃ n, fuel = n + 1 + as.length := ⟨fuel - as.length - 1, by omega⟩
  have hend : m (endLink l as) = some p := (isChain_append h).1
  rw [find_append h hkey, find, hend]
  simp only [hp, Option.bind_some, if_true, and_self]

end Find

end SofaBolt.Chain
