import SofaBolt.Adjacent

/- The elements of a list know their neighbours by two fields. An operation may have taken a
link off for a while and remember it (`cut`). The forward links are otherwise those of the
list. A backward link may lag behind: it leads to an earlier neighbour, from where the
updates that are still to come (`pending`) lead along a `trail` to the present one. -/

namespace SofaBolt.LaggingLinks

open Adjacent

variable {α : Type*} {adj adj' : α → α → Prop} {a b c p n v x y : α}

structure Forward (adj : α → α → Prop) (next : α → Option α) (cut : α × α → Prop) : Prop where
  link : ∀ a b, adj a b → next a = some b ∨ next a = none ∧ cut (a, b)
  off : ∀ a b, cut (a, b) → next a = none ∧ adj a b

namespace Forward

variable {next next' : α → Option α} {cut cut' : α × α → Prop}

theorem eq_of_next (h : Forward adj next cut) (hab : adj a b) (hac : next a = some c) : c = b := by
  rcases h.link a b hab with hb | ⟨hnone, -⟩
  · exact Option.some.inj (hac.symm.trans hb)
  · rw [hnone] at hac
    cases hac

theorem congr (h : Forward adj next cut) (hnext : ∀ a b, adj a b → next' a = next a) :
    Forward adj next' cut := by
  constructor
  · intro a b hab
    rw [hnext a b hab]
    exact h.link a b hab
  · intro a b hk
    obtain ⟨hnone, hab⟩ := h.off a b hk
    rw [hnext a b hab]
    exact ⟨hnone, hab⟩

variable [DecidableEq α]

theorem takeOff (h : Forward adj next cut) (hcn : adj c n) (hc : next c = some n)
    (hcut : ∀ k, cut' k ↔ k = (c, n) ∨ cut k) :
    Forward adj (Function.update next c none) cut' := by
  constructor
  · intro a b hab
    rw [hcut]
    by_cases hac : a = c
    · subst hac
      rw [h.eq_of_next hab hc, Function.update_self]
      exact Or.inr ⟨rfl, Or.inl rfl⟩
    · rw [Function.update_of_ne hac]
      rcases h.link a b hab with hb | ⟨hnone, hk⟩
      · exact Or.inl hb
      · exact Or.inr ⟨hnone, Or.inr hk⟩
  · intro a b hab
    rcases (hcut _).mp hab with heq | hk
    · obtain ⟨rfl, rfl⟩ := Prod.mk.inj heq
      exact ⟨Function.update_self .., hcn⟩
    · obtain ⟨hnone, hadj⟩ := h.off a b hk
      refine ⟨?_, hadj⟩
      by_cases hac : a = c
      · rw [hac, Function.update_self]
      · rw [Function.update_of_ne hac, hnone]

theorem putBack (h : Forward adj next cut) (hn : ∀ b, adj c b → b = n)
    (hcut : ∀ k, cut' k ↔ cut k ∧ k.1 ≠ c) :
    Forward adj (Function.update next c (some n)) cut' := by
  constructor
  · intro a b hab
    by_cases hac : a = c
    · subst hac
      rw [hn b hab, Function.update_self]
      exact Or.inl rfl
    · rw [Function.update_of_ne hac, hcut]
      exact (h.link a b hab).imp_right fun hb => ⟨hb.1, hb.2, hac⟩
  · intro a b hab
    obtain ⟨hab, hac⟩ := (hcut _).mp hab
    rw [Function.update_of_ne hac]
    exact h.off a b hab

theorem insert (h : Forward adj next cut) (hp : next p = some n) (hx : next x = some n)
    (hxp : x ≠ p)
    (hadj : ∀ a b, adj' a b ↔ (a = p ∧ b = x) ∨ (a = x ∧ b = n) ∨ (a ≠ p ∧ adj a b)) :
    Forward adj' (Function.update next p (some x)) cut := by
  constructor
  · intro a b hab
    rcases (hadj a b).mp hab with ⟨rfl, rfl⟩ | ⟨rfl, rfl⟩ | ⟨hne, hab⟩
    · exact Or.inl (Function.update_self ..)
    · rw [Function.update_of_ne hxp]
      exact Or.inl hx
    · rw [Function.update_of_ne hne]
      exact h.link a b hab
  · intro a b hk
    obtain ⟨hnone, hab⟩ := h.off a b hk
    have hne : a ≠ p := by
      rintro rfl
      rw [hp] at hnone
      cases hnone
    rw [Function.update_of_ne hne]
    exact ⟨hnone, (hadj a b).mpr (Or.inr (Or.inr ⟨hne, hab⟩))⟩

theorem erase (h : Forward adj next cut) (hp : next p = some c)
    (hadj : ∀ a b, adj' a b ↔ (a = p ∧ b = n) ∨ (a ≠ p ∧ a ≠ c ∧ adj a b))
    (hcut : ∀ k, cut' k ↔ cut k ∧ k.1 ≠ c) :
    Forward adj' (Function.update next p (some n)) cut' := by
  constructor
  · intro a b hab
    rcases (hadj a b).mp hab with ⟨rfl, rfl⟩ | ⟨hap, hac, hab⟩
    · exact Or.inl (Function.update_self ..)
    · rw [Function.update_of_ne hap, hcut]
      exact (h.link a b hab).imp_right fun hb => ⟨hb.1, hb.2, hac⟩
  · intro a b hk
    obtain ⟨hk, hac⟩ := (hcut _).mp hk
    obtain ⟨hnone, hab⟩ := h.off a b hk
    have hap : a ≠ p := by
      rintro rfl
      rw [hp] at hnone
      cases hnone
    rw [Function.update_of_ne hap]
    exact ⟨hnone, (hadj a b).mpr (Or.inr ⟨hap, hac, hab⟩)⟩

end Forward

/-- The backward links lead to the head of the trail, where they are not cut; the trail ends
at the present neighbour, and each of its steps is an update that is still to come. -/
structure Backward (adj : α → α → Prop) (prev : α → Option α) (cut : α × α → Prop)
    (pending : α × α × α → Prop) (trail : α → List α) : Prop where
  link : ∀ a b, adj a b → prev b = (trail b).head? ∨ prev b = none ∧ ∃ v, cut (b, v)
  off : ∀ b v, cut (b, v) → (∃ a, adj a b) ∧ prev b = none ∧ (trail b).head? = some v
  nodup : ∀ a b, adj a b → (trail b).Nodup
  last : ∀ a b, adj a b → (trail b).getLast? = some a
  steps : ∀ y a b, pending (y, a, b) ↔ (∃ z, adj z y) ∧ Adj (trail y) a b

namespace Backward

variable {prev prev' : α → Option α} {cut cut' : α × α → Prop} {pending pending' : α × α × α → Prop}
  {trail : α → List α}

theorem head_of_prev (h : Backward adj prev cut pending trail) (hab : adj a b)
    (hv : prev b = some v) : (trail b).head? = some v := by
  rcases h.link a b hab with hb | ⟨hnone, -⟩
  · rw [← hb, hv]
  · rw [hnone] at hv
    cases hv

theorem mem_trail (h : Backward adj prev cut pending trail) (hab : adj a y) (hv : v ∈ trail y) :
    v = a ∨ ∃ b, pending (y, v, b) := by
  rcases eq_last_or_adj hv with hlast | ⟨b, hb⟩
  · exact Or.inl (Option.some.inj (hlast.symm.trans (h.last a y hab)))
  · exact Or.inr ⟨b, (h.steps y v b).mpr ⟨⟨a, hab⟩, hb⟩⟩

/-- Where nothing is under way the link leads to the neighbour. -/
theorem prev_eq (h : Backward adj prev cut pending trail) (hab : adj a y)
    (hcut : ∀ v, ¬ cut (y, v)) (hpend : ∀ v b, ¬ pending (y, v, b)) : prev y = some a := by
  rcases h.link a y hab with hy | ⟨-, v, hk⟩
  · rw [hy]
    cases ht : trail y with
    | nil =>
      have := h.last a y hab
      rw [ht] at this
      cases this
    | cons v t =>
      rcases h.mem_trail hab (ht ▸ List.mem_cons_self ..) with rfl | ⟨b, hb⟩
      · rfl
      · exact absurd hb (hpend v b)
  · exact absurd hk (hcut v)

theorem congr (h : Backward adj prev cut pending trail)
    (hprev : ∀ a b, adj a b → prev' b = prev b) : Backward adj prev' cut pending trail := by
  refine ⟨fun a b hab => ?_, fun b v hk => ?_, h.nodup, h.last, h.steps⟩
  · rw [hprev a b hab]
    exact h.link a b hab
  · obtain ⟨⟨a, hab⟩, hb⟩ := h.off b v hk
    rw [hprev a b hab]
    exact ⟨⟨a, hab⟩, hb⟩

variable [DecidableEq α]

theorem takeOff (h : Backward adj prev cut pending trail) (hac : adj a c) (hv : prev c = some v)
    (hcut : ∀ k, cut' k ↔ k = (c, v) ∨ cut k) :
    Backward adj (Function.update prev c none) cut' pending trail := by
  refine ⟨fun z b hzb => ?_, fun b u hk => ?_, h.nodup, h.last, h.steps⟩
  · by_cases hb : b = c
    · rw [hb, Function.update_self]
      exact Or.inr ⟨rfl, v, (hcut _).mpr (Or.inl rfl)⟩
    · rw [Function.update_of_ne hb]
      rcases h.link z b hzb with hb | ⟨hnone, u, hk⟩
      · exact Or.inl hb
      · exact Or.inr ⟨hnone, u, (hcut _).mpr (Or.inr hk)⟩
  · rcases (hcut _).mp hk with heq | hk
    · obtain ⟨rfl, rfl⟩ := Prod.mk.inj heq
      exact ⟨⟨a, hac⟩, Function.update_self .., h.head_of_prev hac hv⟩
    · obtain ⟨hb, hnone, hhead⟩ := h.off b u hk
      refine ⟨hb, ?_, hhead⟩
      by_cases hbc : b = c
      · rw [hbc, Function.update_self]
      · rw [Function.update_of_ne hbc, hnone]

theorem putBack (h : Backward adj prev cut pending trail) (hk : cut (c, v))
    (hcut : ∀ k, cut' k ↔ cut k ∧ k.1 ≠ c) :
    Backward adj (Function.update prev c (some v)) cut' pending trail := by
  refine ⟨fun z b hzb => ?_, fun b u hk' => ?_, h.nodup, h.last, h.steps⟩
  · by_cases hb : b = c
    · rw [hb, Function.update_self, (h.off c v hk).2.2]
      exact Or.inl rfl
    · rw [Function.update_of_ne hb]
      refine (h.link z b hzb).imp_right ?_
      rintro ⟨hnone, u, hk⟩
      exact ⟨hnone, u, (hcut _).mpr ⟨hk, hb⟩⟩
  · obtain ⟨hk', hb⟩ := (hcut _).mp hk'
    rw [Function.update_of_ne hb]
    exact h.off b u hk'

theorem settle (h : Backward adj prev cut pending trail) (hk : pending (y, a, b))
    (hy : prev y = some a) (hpend : ∀ k, pending' k ↔ pending k ∧ (k.1, k.2.1) ≠ (y, a)) :
    Backward adj (Function.update prev y (some b)) cut pending'
      (Function.update trail y (trail y).tail) := by
  obtain ⟨⟨z, hzy⟩, hab⟩ := (h.steps y a b).mp hk
  have hnd := h.nodup z y hzy
  -- the step starts where the link is, so it is the first of the trail
  obtain ⟨rest, htrail⟩ : ∃ rest, trail y = a :: b :: rest := by
    have hhead := h.head_of_prev hzy hy
    cases ht : trail y with
    | nil =>
      rw [ht] at hhead
      cases hhead
    | cons u t =>
      rw [ht] at hhead hab hnd
      obtain rfl : u = a := Option.some.inj hhead
      cases t with
      | nil => exact absurd hab not_adj_singleton
      | cons w t => rw [hab.unique_right hnd ⟨[], t, rfl⟩]; exact ⟨t, rfl⟩
  rw [htrail] at hnd
  refine ⟨fun u w huw => ?_, fun w u hcut => ?_, fun u w huw => ?_, fun u w huw => ?_,
    fun w u u' => ?_⟩
  · by_cases hw : w = y
    · rw [hw, Function.update_self, Function.update_self, htrail]
      exact Or.inl rfl
    · rw [Function.update_of_ne hw, Function.update_of_ne hw]
      exact h.link u w huw
  · obtain ⟨hpred, hnone, hhead⟩ := h.off w u hcut
    have hw : w ≠ y := by
      rintro rfl
      rw [hy] at hnone
      cases hnone
    rw [Function.update_of_ne hw, Function.update_of_ne hw]
    exact ⟨hpred, hnone, hhead⟩
  · by_cases hw : w = y
    · rw [hw, Function.update_self, htrail]
      exact (List.nodup_cons.mp hnd).2
    · rw [Function.update_of_ne hw]
      exact h.nodup u w huw
  · by_cases hw : w = y
    · have := h.last u w huw
      rw [hw, htrail, List.getLast?_cons_cons] at this
      rw [hw, Function.update_self, htrail]
      exact this
    · rw [Function.update_of_ne hw]
      exact h.last u w huw
  · rw [hpend, h.steps]
    by_cases hw : w = y
    · subst hw
      rw [Function.update_self, htrail, List.tail_cons, adj_cons_cons]
      have hfirst : ∀ {u'}, ¬ Adj (b :: rest) a u' := fun h => (List.nodup_cons.mp hnd).1 h.mem_left
      simp only [ne_eq, Prod.mk.injEq, true_and]
      constructor
      · rintro ⟨⟨hpred, ⟨rfl, -⟩ | hadj⟩, hne⟩
        · exact absurd rfl hne
        · exact ⟨hpred, hadj⟩
      · rintro ⟨hpred, hadj⟩
        refine ⟨⟨hpred, Or.inr hadj⟩, ?_⟩
        rintro rfl
        exact hfirst hadj
    · rw [Function.update_of_ne hw]
      simp only [ne_eq, Prod.mk.injEq, hw, false_and, not_false_eq_true, and_true]

theorem add (h : Backward adj prev cut pending trail) (hx : ∀ a, ¬ adj a x)
    (hxp : prev x = some p) :
    Backward (fun a b => (a = p ∧ b = x) ∨ adj a b) prev cut pending
      (Function.update trail x [p]) := by
  have hne : ∀ {a b}, adj a b → b ≠ x := by
    rintro a b hab rfl
    exact hx a hab
  refine ⟨fun a b hab => ?_, fun b v hk => ?_, fun a b hab => ?_, fun a b hab => ?_,
    fun y a b => ?_⟩
  · rcases hab with ⟨rfl, rfl⟩ | hab
    · rw [Function.update_self]
      exact Or.inl hxp
    · rw [Function.update_of_ne (hne hab)]
      exact h.link a b hab
  · obtain ⟨⟨a, hab⟩, hnone, hv⟩ := h.off b v hk
    rw [Function.update_of_ne (hne hab)]
    exact ⟨⟨a, Or.inr hab⟩, hnone, hv⟩
  · rcases hab with ⟨rfl, rfl⟩ | hab
    · rw [Function.update_self]
      exact List.nodup_singleton _
    · rw [Function.update_of_ne (hne hab)]
      exact h.nodup a b hab
  · rcases hab with ⟨rfl, rfl⟩ | hab
    · rw [Function.update_self]
      rfl
    · rw [Function.update_of_ne (hne hab)]
      exact h.last a b hab
  · rw [h.steps]
    by_cases hy : y = x
    · subst hy
      rw [Function.update_self]
      have hnone : ¬ ∃ z, adj z y := not_exists.mpr hx
      simp only [hnone, false_and, not_adj_singleton, and_false]
    · rw [Function.update_of_ne hy]
      simp only [hy, and_false, false_or]

/-- An element leaves the list; no update of its link is still to come. -/
theorem drop (h : Backward adj prev cut pending trail) (hc : trail c = [p])
    (hcut : ∀ k, cut' k ↔ cut k ∧ k.1 ≠ c) :
    Backward (fun a b => b ≠ c ∧ adj a b) prev cut' pending trail := by
  refine ⟨?_, fun b v hk => ?_, fun a b hab => h.nodup a b hab.2, fun a b hab => h.last a b hab.2,
    fun y a b => ?_⟩
  · rintro a b ⟨hb, hab⟩
    refine (h.link a b hab).imp_right ?_
    rintro ⟨hnone, v, hk⟩
    exact ⟨hnone, v, (hcut _).mpr ⟨hk, hb⟩⟩
  · obtain ⟨hk, hb⟩ := (hcut _).mp hk
    obtain ⟨⟨a, hab⟩, hrest⟩ := h.off b v hk
    exact ⟨⟨a, hb, hab⟩, hrest⟩
  · rw [h.steps]
    by_cases hy : y = c
    · subst hy
      simp only [hc, not_adj_singleton, and_false]
    · simp only [ne_eq, hy, not_false_eq_true, true_and]

theorem retarget (h : Backward adj prev cut pending trail) (hpn : adj p n) (hv : v ∉ trail n)
    (hadj : ∀ a b, adj' a b ↔ (a = v ∧ b = n) ∨ (b ≠ n ∧ adj a b))
    (hpend : ∀ k, pending' k ↔ k = (n, p, v) ∨ pending k) :
    Backward adj' prev cut pending' (Function.update trail n (trail n ++ [v])) := by
  have hlast := h.last p n hpn
  have htn : trail n ≠ [] := by
    intro hnil
    rw [hnil] at hlast
    cases hlast
  have hhead : (trail n ++ [v]).head? = (trail n).head? := List.head?_append_of_ne_nil _ htn
  have hvn : adj' v n := (hadj v n).mpr (Or.inl ⟨rfl, rfl⟩)
  have hpred : ∀ b, (∃ z, adj' z b) ↔ ∃ z, adj z b := by
    intro b
    by_cases hb : b = n
    · rw [hb]
      exact iff_of_true ⟨v, hvn⟩ ⟨p, hpn⟩
    · simp only [hadj, ne_eq, hb, and_false, not_false_eq_true, true_and, false_or]
  refine ⟨fun a b hab => ?_, fun b u hk => ?_, fun a b hab => ?_, fun a b hab => ?_,
    fun y a b => ?_⟩
  · rcases (hadj a b).mp hab with ⟨-, rfl⟩ | ⟨hb, hab⟩
    · rw [Function.update_self, hhead]
      exact h.link p b hpn
    · rw [Function.update_of_ne hb]
      exact h.link a b hab
  · obtain ⟨hb, hnone, hu⟩ := h.off b u hk
    refine ⟨(hpred b).mpr hb, hnone, ?_⟩
    by_cases hbn : b = n
    · rw [hbn, Function.update_self, hhead, ← hbn, hu]
    · rw [Function.update_of_ne hbn, hu]
  · rcases (hadj a b).mp hab with ⟨-, rfl⟩ | ⟨hb, hab⟩
    · rw [Function.update_self, List.nodup_append]
      refine ⟨h.nodup p b hpn, List.nodup_singleton _, fun u hu w hw => ?_⟩
      rw [List.mem_singleton.mp hw]
      rintro rfl
      exact hv hu
    · rw [Function.update_of_ne hb]
      exact h.nodup a b hab
  · rcases (hadj a b).mp hab with ⟨rfl, rfl⟩ | ⟨hb, hab⟩
    · rw [Function.update_self]
      simp
    · rw [Function.update_of_ne hb]
      exact h.last a b hab
  · rw [hpend, h.steps, hpred]
    by_cases hy : y = n
    · subst hy
      rw [Function.update_self, adj_concat hlast]
      have hex : ∃ z, adj z y := ⟨p, hpn⟩
      simp only [Prod.mk.injEq, true_and, hex]
      exact or_comm
    · rw [Function.update_of_ne hy]
      simp only [Prod.mk.injEq, hy, false_and, false_or]

end Backward

end SofaBolt.LaggingLinks
