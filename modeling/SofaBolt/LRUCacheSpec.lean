import SofaBolt.LRUCache

namespace SofaBolt

open Chain IntrusiveList Run

theorem wrapAdd_eq {a b : ℕ} (h : a + b < 2 ^ 64) : wrapAdd a b = a + b := Nat.mod_eq_of_lt h

theorem wrapSub_eq {a b : ℕ} (ha : a < 2 ^ 64) (hb : b ≤ a) : wrapSub a b = a - b := by
  have hmod : b % 2 ^ 64 = b := Nat.mod_eq_of_lt (by omega)
  rw [wrapSub, hmod]
  omega

theorem wrapSub_lt (a b : ℕ) : wrapSub a b < 2 ^ 64 := Nat.mod_lt _ (by norm_num)

theorem wrapSub_add_modEq (a b : ℕ) : wrapSub a b + b ≡ a [MOD 2 ^ 64] := by
  have hlt : b % 2 ^ 64 < 2 ^ 64 := Nat.mod_lt _ (by norm_num)
  rw [Nat.ModEq, wrapSub]
  omega

theorem wrapSub_wrapSub (a b c : ℕ) : wrapSub (wrapSub a b) c = wrapSub a (b + c) := by
  have h₁ : wrapSub (wrapSub a b) c + (b + c) ≡ a [MOD 2 ^ 64] := by
    rw [Nat.add_comm b c, ← Nat.add_assoc]
    exact ((wrapSub_add_modEq (wrapSub a b) c).add_right b).trans (wrapSub_add_modEq a b)
  have h₂ := Nat.ModEq.add_right_cancel' (b + c) (h₁.trans (wrapSub_add_modEq a (b + c)).symm)
  exact h₂.eq_of_lt_of_lt (wrapSub_lt _ _) (wrapSub_lt _ _)

namespace LRUCache

variable {K V : Type*}

def total (es : List (LRUNode K V)) : ℕ := (es.map LRUNode.usedMem).sum

inductive SpecStep (limit : ℕ) :
    List (LRUNode K V) → Call K V → Answer V → List (LRUNode K V) → Prop where
  | miss {es k} : (∀ n ∈ es, n.key ≠ k) → SpecStep limit es (.get k) (.found none) es
  | hit {as bs} (n : LRUNode K V) :
    SpecStep limit (as ++ n :: bs) (.get n.key) (.found (some n.value)) (n :: (as ++ bs))
  | tooLarge {es k mem val} : limit < mem → SpecStep limit es (.put k mem val) (.bool false) es
  | present {es k mem val} : (∃ n ∈ es, n.key = k) →
    SpecStep limit es (.put k mem val) (.bool false) es
  | put {kept evicted k mem val} : mem ≤ limit → (∀ n ∈ kept ++ evicted, n.key ≠ k) →
    (evicted ≠ [] → limit < mem + total (kept ++ evicted)) →
    SpecStep limit (kept ++ evicted) (.put k mem val) (.bool true) (⟨k, val, mem⟩ :: kept)
  | eraseMiss {es k} : (∀ n ∈ es, n.key ≠ k) → SpecStep limit es (.erase k) .unit es
  | erase {as bs} (n : LRUNode K V) :
    SpecStep limit (as ++ n :: bs) (.erase n.key) .unit (as ++ bs)
  | exchangeNew {kept evicted k mem val} : (∀ n ∈ kept ++ evicted, n.key ≠ k) →
    (evicted ≠ [] → limit < mem + total (kept ++ evicted)) →
    SpecStep limit (kept ++ evicted) (.exchange k mem val) (.bool false) (⟨k, val, mem⟩ :: kept)
  | exchange {as kept evicted mem val} (n : LRUNode K V) :
    (evicted ≠ [] → limit < mem + total (as ++ kept ++ evicted)) →
    SpecStep limit (as ++ n :: (kept ++ evicted)) (.exchange n.key mem val) (.bool true)
      (⟨n.key, val, mem⟩ :: (as ++ kept))

inductive SpecRun (limit : ℕ) : List (LRUNode K V) → List (Call K V) → List (Answer V) →
    List (LRUNode K V) → Prop where
  | nil {es} : SpecRun limit es [] [] es
  | cons {es es₁ es' a as r rs} : SpecStep limit es a r es₁ → SpecRun limit es₁ as rs es' →
    SpecRun limit es (a :: as) (r :: rs) es'

structure Parts (hash : K → ℕ) (c : LRUCache K V) (ids : List ℕ) (tab : Finset ℕ) : Prop where
  pos : 0 < c.bucketSize
  list : c.list.Holds ids
  table : ∃ chain, Buckets hash c.bucketSize c.buckets c.key tab chain
  size : c.elementSize = tab.card
  fresh : ∀ p, c.nextId ≤ p → p ∉ ids ∧ p ∉ tab
  alive : ∀ p ∈ ids, ∃ n, c.cells p = some n

/-- The cache holds the entries `es`: the nodes of the recency list, in order, store them,
they are the nodes of the table, and the counters are right. -/
structure Represents (hash : K → ℕ) (c : LRUCache K V) (es : List (LRUNode K V)) : Prop where
  nodes : ∃ ids, Parts hash c ids ids.toFinset ∧ ids.map c.cells = es.map some
  used : c.memSizeUsed = total es
  limit : total es ≤ c.memSize

variable {hash : K → ℕ} {freed : ℕ → ℕ} {c c' : LRUCache K V} {ids ys : List ℕ} {tab : Finset ℕ}
  {es : List (LRUNode K V)} {k : K} {p q : ℕ} {n : LRUNode K V}

theorem key_of_cell (h : c.cells p = some n) : c.key p = some n.key := by
  rw [key, h]
  rfl

theorem cell_of_key (h : c.key p = some k) : ∃ n, c.cells p = some n ∧ n.key = k :=
  Option.map_eq_some_iff.mp h

theorem Parts.setList {l : Links} {ids' : List ℕ} (h : Parts hash c ids tab) (hl : l.Holds ids')
    (hsub : ∀ p ∈ ids', p ∈ ids) : Parts hash { c with list := l } ids' tab where
  pos := h.pos
  list := hl
  table := h.table
  size := h.size
  fresh p hp := ⟨fun hmem => (h.fresh p hp).1 (hsub p hmem), (h.fresh p hp).2⟩
  alive p hp := h.alive p (hsub p hp)

/-- A node that is neither in the list nor in the table is deleted. -/
theorem Parts.delete (h : Parts hash c ids tab) (hids : p ∉ ids) (htab : p ∉ tab) :
    Parts hash (c.delete p) ids tab where
  pos := h.pos
  list := h.list
  table := by
    obtain ⟨chain, hb⟩ := h.table
    refine ⟨chain, hb.congr (fun _ => rfl) (fun _ _ => rfl) fun q hq => ?_⟩
    have hne : q ≠ p := by
      rintro rfl
      exact htab hq
    simp [key, LRUCache.delete, Function.update_of_ne hne]
  size := h.size
  fresh := h.fresh
  alive q hq := by
    have hne : q ≠ p := by
      rintro rfl
      exact hids hq
    simpa [LRUCache.delete, Function.update_of_ne hne] using h.alive q hq

section Table

variable [DecidableEq K]

theorem Parts.findEntry_absent (h : Parts hash c ids tab) (hk : ∀ p ∈ tab, c.key p ≠ some k) :
    ∃ l, c.findEntry hash k = some l ∧ c.buckets l = none ∧
      ∃ chain, Buckets hash c.bucketSize c.buckets c.key tab chain ∧
      l = endLink (.head (bucketIdx hash c.bucketSize k))
        (chain (bucketIdx hash c.bucketSize k)) := by
  obtain ⟨chain, hb⟩ := h.table
  obtain ⟨hfind, hnone⟩ := hb.find_absent hk (bucketIdx hash c.bucketSize k)
  refine ⟨_, ?_, hnone, chain, hb, rfl⟩
  rw [findEntry, h.size]
  exact hfind

theorem Parts.unlinkEntry (h : Parts hash c ids tab) (hp : p ∈ tab) (hk : c.key p = some k) :
    ∃ l, c.findEntry hash k = some l ∧ c.buckets l = some p ∧
      Parts hash (c.unlinkEntry l p) ids (tab.erase p) := by
  obtain ⟨chain, hb⟩ := h.table
  obtain ⟨as, bs, hsplit⟩ := hb.split hp hk
  obtain ⟨hfind, hlink⟩ := hb.find_present hk hsplit
  refine ⟨_, ?_, hlink, h.pos, h.list, ⟨_, hb.erase hk hsplit⟩, ?_, fun q hq => ?_, h.alive⟩
  · rw [findEntry, h.size]
    exact hfind
  · rw [Finset.card_erase_of_mem hp, ← h.size]
    rfl
  · obtain ⟨h₁, h₂⟩ := h.fresh q hq
    exact ⟨h₁, fun hmem => h₂ (Finset.mem_of_mem_erase hmem)⟩

end Table

structure Evicts (c c' : LRUCache K V) (gone : List ℕ) : Prop where
  bucketSize : c'.bucketSize = c.bucketSize
  memSize : c'.memSize = c.memSize
  nextId : c'.nextId = c.nextId
  cells : ∀ p, p ∉ gone → c'.cells p = c.cells p

def usedBy (c : LRUCache K V) (ids : List ℕ) : ℕ :=
  (ids.map fun p => ((c.cells p).map LRUNode.usedMem).getD 0).sum

theorem usedBy_append (c : LRUCache K V) (as bs : List ℕ) :
    c.usedBy (as ++ bs) = c.usedBy as + c.usedBy bs := by
  rw [usedBy, List.map_append, List.sum_append]
  rfl

theorem usedBy_singleton (h : c.cells p = some n) : c.usedBy [p] = n.usedMem := by
  simp [usedBy, h]

theorem not_usedBy_nil (c : LRUCache K V) {mem : ℕ} (hmem : mem < 2 ^ 64) (hzero : mem ≠ 0) :
    ¬ c.usedBy [] ≡ mem [MOD 2 ^ 64] :=
  fun hmod => hzero (hmod.eq_of_lt_of_lt (Nat.two_pow_pos 64) hmem).symm

theorem usedBy_congr (h : ∀ p ∈ ids, c'.cells p = c.cells p) : c'.usedBy ids = c.usedBy ids := by
  unfold usedBy
  congr 1
  exact List.map_congr_left fun p hp => by rw [h p hp]

theorem Evicts.trans {d : LRUCache K V} {as bs : List ℕ} (h : Evicts c d bs) (h' : Evicts d c' as) :
    Evicts c c' (as ++ bs) where
  bucketSize := h'.bucketSize.trans h.bucketSize
  memSize := h'.memSize.trans h.memSize
  nextId := h'.nextId.trans h.nextId
  cells p hp := by
    rw [List.mem_append, not_or] at hp
    exact (h'.cells p hp.1).trans (h.cells p hp.2)

theorem Evicts.refl (c : LRUCache K V) : Evicts c c [] := ⟨rfl, rfl, rfl, fun _ _ => rfl⟩

theorem usedBy_eq_total (h : ids.map c.cells = es.map some) : c.usedBy ids = total es := by
  have hmap : (ids.map c.cells).map (fun o => (o.map LRUNode.usedMem).getD 0) =
      (es.map some).map fun o => (o.map LRUNode.usedMem).getD 0 := congrArg _ h
  rw [List.map_map, List.map_map] at hmap
  exact congrArg List.sum hmap

theorem split_ids {as bs : List (LRUNode K V)} (h : ids.map c.cells = (as ++ n :: bs).map some) :
    ∃ as' p bs', ids = as' ++ p :: bs' ∧ as'.map c.cells = as.map some ∧ c.cells p = some n ∧
      bs'.map c.cells = bs.map some := by
  rw [List.map_append, List.map_eq_append_iff] at h
  obtain ⟨as', rest, rfl, has, hrest⟩ := h
  rw [List.map_cons, List.map_eq_cons_iff] at hrest
  obtain ⟨p, bs', rfl, hp, hbs⟩ := hrest
  exact ⟨as', p, bs', rfl, has, hp, hbs⟩

theorem toFinset_erase_middle {as bs : List ℕ} (h : p ∉ as ++ bs) :
    (as ++ p :: bs).toFinset.erase p = (as ++ bs).toFinset := by
  ext q
  simp only [Finset.mem_erase, List.mem_toFinset, List.mem_append, List.mem_cons]
  constructor
  · tauto
  · intro hq
    refine ⟨?_, by tauto⟩
    rintro rfl
    exact h (List.mem_append.mpr hq)

theorem not_key_of_entries (h : ids.map c.cells = es.map some) (hk : ∀ n ∈ es, n.key ≠ k) :
    ∀ p ∈ ids.toFinset, c.key p ≠ some k := by
  intro p hp hkey
  obtain ⟨n, hcell, rfl⟩ := cell_of_key hkey
  have hmem : c.cells p ∈ es.map some := h ▸ List.mem_map_of_mem (List.mem_toFinset.mp hp)
  obtain ⟨n', hn', heq⟩ := List.mem_map.mp hmem
  obtain rfl := Option.some.inj (heq.trans hcell)
  exact hk n' hn' rfl

/-- A key is not among the entries, or it is that of one of them. -/
theorem key_cases (es : List (LRUNode K V)) (k : K) :
    (∀ n ∈ es, n.key ≠ k) ∨ ∃ as n bs, es = as ++ n :: bs ∧ n.key = k := by
  by_cases h : ∀ n ∈ es, n.key ≠ k
  · exact Or.inl h
  · push Not at h
    obtain ⟨n, hn, hk⟩ := h
    obtain ⟨as, bs, hsplit⟩ := List.append_of_mem hn
    exact Or.inr ⟨as, n, bs, hsplit, hk⟩

theorem total_append (as bs : List (LRUNode K V)) : total (as ++ bs) = total as + total bs := by
  rw [total, List.map_append, List.sum_append]
  rfl

theorem total_cons (n : LRUNode K V) (es : List (LRUNode K V)) :
    total (n :: es) = n.usedMem + total es := rfl

theorem Parts.counters (h : Parts hash c ids tab) (hit totalTimes used : ℕ) :
    Parts hash { c with hitQueryTimes := hit, totalQueryTimes := totalTimes, memSizeUsed := used }
      ids tab := ⟨h.pos, h.list, h.table, h.size, h.fresh, h.alive⟩

variable [DecidableEq K]

/-- One round of `release_nodes`, both ways of erasing included. -/
theorem Parts.releaseNode (freed : ℕ → ℕ) (h : Parts hash c ids tab) (hp : p ∈ tab) (hids : p ∉ ids)
    (hcell : c.cells p = some n) (lockedKey : K) :
    ∃ c', c.releaseNode hash freed lockedKey p = some c' ∧ Parts hash c' ids (tab.erase p) ∧
      Evicts c c' [p] ∧ c'.memSizeUsed = wrapSub c.memSizeUsed n.usedMem := by
  obtain ⟨l, hfind, hlink, hparts⟩ := h.unlinkEntry hp (key_of_cell hcell)
  have hgone : p ∉ tab.erase p := Finset.notMem_erase p tab
  have hev : Evicts c (((c.unlinkEntry l p).subMem n.usedMem).delete p) [p] := by
    refine ⟨rfl, rfl, rfl, fun q hq => ?_⟩
    exact Function.update_of_ne (by simpa using hq) _ _
  have hsub : Parts hash ((c.unlinkEntry l p).subMem n.usedMem) ids (tab.erase p) :=
    ⟨hparts.pos, hparts.list, hparts.table, hparts.size, hparts.fresh, hparts.alive⟩
  refine ⟨((c.unlinkEntry l p).subMem n.usedMem).delete p, ?_, hsub.delete hids hgone, hev, rfl⟩
  rw [LRUCache.releaseNode, hcell, Option.bind_some]
  by_cases hb : c.getBucketIdx hash lockedKey = c.getBucketIdx hash n.key
  · rw [if_pos hb, eraseNolock, hfind, Option.map_some, Option.map_some, hlink]
  · -- the node is not in the list any more, so the two `remove` do nothing
    have hrem : ∀ d : LRUCache K V, d.list = c.list → d.cells p = some n →
        d.listRemove p = some (d, false) := by
      intro d hd hdcell
      rw [listRemove, hdcell, Option.bind_some, listOp, hd, Links.exec_remove_absent h.list hids]
      simp [← hd]
    rw [if_neg hb, intrusiveErase, if_neg (by simpa using hb), hfind, Option.bind_some, hlink]
    simp only [erasePostprocess]
    rw [hrem (c.unlinkEntry l p) rfl hcell, Option.bind_some]
    simp only [Bool.false_eq_true, if_false]
    rw [show (c.unlinkEntry l p).cells p = some n from hcell, Option.map_some, Option.bind_some,
      hrem ((c.unlinkEntry l p).subMem n.usedMem) rfl hcell, Option.map_some]

/-- `release_nodes` stops as soon as what it has evicted is exactly `mem`, modulo 2^64; if it is not
to go beyond `back` there has to be such a place in `back`, or nothing before it. -/
theorem Parts.releaseNodes (freed : ℕ → ℕ) (front : List ℕ) {back : List ℕ} {mem fuel : ℕ}
    (lockedKey : K) (h : Parts hash c (front ++ back) tab)
    (htab : ∀ p ∈ back, p ∈ tab) (hfuel : back.length < fuel)
    (hmem : mem < 2 ^ 64) (hused : c.memSizeUsed < 2 ^ 64)
    (hstop : front = [] ∨
      ∃ kept evicted, back = kept ++ evicted ∧ c.usedBy evicted ≡ mem [MOD 2 ^ 64]) :
    ∃ c' kept evicted, LRUCache.releaseNodes hash freed lockedKey fuel c mem = some c' ∧
      back = kept ++ evicted ∧ Parts hash c' (front ++ kept) (tab \ evicted.toFinset) ∧
      Evicts c c' evicted ∧ c'.memSizeUsed = wrapSub c.memSizeUsed (c.usedBy evicted) ∧
      (∀ later, later <:+ evicted → later ≠ evicted → ¬ c.usedBy later ≡ mem [MOD 2 ^ 64]) ∧
      (c.usedBy evicted ≡ mem [MOD 2 ^ 64] ∨ front = [] ∧ kept = []) := by
  induction back using List.reverseRecOn generalizing c tab mem fuel with
  | nil =>
    obtain ⟨fuel, rfl⟩ : ∃ f, fuel = f + 1 := ⟨fuel - 1, by simp at hfuel; omega⟩
    by_cases hzero : mem = 0
    · subst hzero
      exact ⟨c, [], [], by simp [LRUCache.releaseNodes], rfl, by simpa using h, Evicts.refl c,
        (wrapSub_eq hused (Nat.zero_le _)).symm,
        fun later hsuffix hne => absurd (List.suffix_nil.mp hsuffix) hne,
        Or.inl (by simp [usedBy]; rfl)⟩
    · have hfront : front = [] := by
        refine hstop.resolve_right ?_
        rintro ⟨kept, evicted, hnil, hmod⟩
        obtain ⟨-, rfl⟩ := List.append_eq_nil_iff.mp hnil.symm
        exact c.not_usedBy_nil hmem hzero hmod
      subst hfront
      refine ⟨c, [], [], ?_, rfl, by simpa using h, Evicts.refl c,
        (wrapSub_eq hused (Nat.zero_le _)).symm,
        fun later hsuffix hne => absurd (List.suffix_nil.mp hsuffix) hne, Or.inr ⟨rfl, rfl⟩⟩
      rw [LRUCache.releaseNodes, if_neg hzero, listOp, Links.exec_popBack_nil h.list]
      rfl
  | append_singleton ys x ih =>
    obtain ⟨fuel, rfl⟩ : ∃ f, fuel = f + 1 := ⟨fuel - 1, by simp at hfuel; omega⟩
    by_cases hzero : mem = 0
    · subst hzero
      exact ⟨c, ys ++ [x], [], by simp [LRUCache.releaseNodes], by simp, by simpa using h,
        Evicts.refl c, (wrapSub_eq hused (Nat.zero_le _)).symm,
        fun later hsuffix hne => absurd (List.suffix_nil.mp hsuffix) hne,
        Or.inl (by simp [usedBy]; rfl)⟩
    -- the last node is popped and released
    rw [← List.append_assoc] at h
    obtain ⟨l', hpop, hl'⟩ := Links.exec_popBack h.list
    obtain ⟨n, hcell⟩ := h.alive x (by simp)
    have hnd := h.list.nodup
    have hx : x ∉ front ++ ys := by
      rw [List.nodup_append] at hnd
      exact fun hx => hnd.2.2 x hx x (by simp) rfl
    have h₁ : Parts hash { c with list := l' } (front ++ ys) tab :=
      h.setList hl' fun p hp => List.mem_append_left [x] hp
    obtain ⟨c₂, hrel, h₂, hev, hmem₂⟩ :=
      h₁.releaseNode freed (htab x (by simp)) hx hcell lockedKey
    have hev : Evicts c c₂ [x] := ⟨hev.bucketSize, hev.memSize, hev.nextId, hev.cells⟩
    have hsame : ∀ p ∈ ys, c₂.cells p = c.cells p := by
      intro p hp
      refine hev.cells p ?_
      rw [List.mem_singleton]
      rintro rfl
      exact hx (by simp [hp])
    have hmem₂ : c₂.memSizeUsed = wrapSub c.memSizeUsed n.usedMem := hmem₂
    have hsum : ∀ later, c.usedBy (later ++ [x]) = c.usedBy later + n.usedMem := by
      intro later
      rw [usedBy_append, usedBy_singleton hcell]
    have hcount : ∀ later, c.usedBy (later ++ [x]) ≡ mem [MOD 2 ^ 64] ↔
        c.usedBy later ≡ wrapSub mem n.usedMem [MOD 2 ^ 64] := by
      intro later
      rw [hsum]
      have hwrap := wrapSub_add_modEq mem n.usedMem
      exact ⟨fun h => Nat.ModEq.add_right_cancel' n.usedMem (h.trans hwrap.symm),
        fun h => (h.add_right n.usedMem).trans hwrap⟩
    obtain ⟨c', kept, evicted, hrun, hys, hparts, hev', hused', hfirst, hend⟩ :=
      ih h₂
        (fun p hp => Finset.mem_erase.mpr ⟨fun hpx => hx (by simp [← hpx, hp]),
          htab p (by simp [hp])⟩)
        (show ys.length < fuel by simp at hfuel; omega) (wrapSub_lt mem n.usedMem)
        (hmem₂ ▸ wrapSub_lt _ _) (by
          refine hstop.imp_right ?_
          rintro ⟨kept, evicted, hback, hmod⟩
          rcases List.eq_nil_or_concat evicted with rfl | ⟨ev, y, rfl⟩
          · exact absurd hmod (c.not_usedBy_nil hmem hzero)
          · rw [List.concat_eq_append, ← List.append_assoc] at hback
            obtain ⟨hys, hxy⟩ := List.append_inj' hback rfl
            obtain rfl : x = y := by simpa using hxy
            refine ⟨kept, ev, hys, ?_⟩
            rw [usedBy_congr fun p hp => hsame p (by simp [hys, hp])]
            exact (hcount ev).mp (by rwa [List.concat_eq_append] at hmod))
    have hlater : ∀ later, later <:+ evicted → c₂.usedBy later = c.usedBy later :=
      fun later hsuffix => usedBy_congr fun p hp => hsame p (by simp [hys, hsuffix.subset hp])
    rw [hlater evicted (List.suffix_refl _)] at hused' hend
    refine ⟨c', kept, evicted ++ [x], ?_, by rw [hys, List.append_assoc], ?_, hev.trans hev', ?_,
      ?_, hend.imp_left (hcount evicted).mpr⟩
    · rw [LRUCache.releaseNodes, if_neg hzero, listOp, hpop]
      simp only [Option.map_some, Option.bind_some, hcell]
      rw [hrel, Option.bind_some]
      exact hrun
    · have htab' : tab \ (evicted ++ [x]).toFinset = tab.erase x \ evicted.toFinset := by
        ext p
        simp only [Finset.mem_sdiff, List.mem_toFinset, List.mem_append, List.mem_singleton,
          Finset.mem_erase, not_or]
        tauto
      rw [htab']
      exact hparts
    · rw [hused', hmem₂, wrapSub_wrapSub, hsum, Nat.add_comm]
    · intro later hsuffix hne
      rcases List.eq_nil_or_concat later with rfl | ⟨later, y, rfl⟩
      · exact c.not_usedBy_nil hmem hzero
      · rw [List.concat_eq_append] at hsuffix hne ⊢
        obtain ⟨front', hfront'⟩ := hsuffix
        rw [← List.append_assoc] at hfront'
        obtain ⟨hlast, hxy⟩ := List.append_inj' hfront' rfl
        obtain rfl : y = x := by simpa using hxy
        have hsuffix : later <:+ evicted := ⟨front', hlast⟩
        rw [hcount, ← hlater later hsuffix]
        exact hfirst later hsuffix fun h => hne (by rw [h])

theorem Represents.get (h : Represents hash c es) (k : K) :
    ∃ val c' es', c.get hash k = some (val, c') ∧ c'.memSize = c.memSize ∧
      SpecStep c.memSize es (.get k) (.found val) es' ∧ Represents hash c' es' := by
  obtain ⟨ids, hparts, hcells⟩ := h.nodes
  rcases key_cases es k with hk | ⟨as, n, bs, rfl, rfl⟩
  · obtain ⟨l, hfind, hnone, -⟩ := hparts.findEntry_absent (not_key_of_entries hcells hk)
    refine ⟨none, { c with totalQueryTimes := c.totalQueryTimes + 1 }, es, ?_, rfl, .miss hk,
      ⟨ids, hparts.counters _ _ _, hcells⟩, h.used, h.limit⟩
    rw [LRUCache.get]
    have hfind' : findEntry hash { c with totalQueryTimes := c.totalQueryTimes + 1 } k = some l :=
      hfind
    simp only [hfind', Option.bind_some, hnone]
  · -- the node is taken out of the list and pushed to its front
    obtain ⟨as', p, bs', rfl, has, hp, hbs⟩ := split_ids hcells
    obtain ⟨l, hfind, hlink, -⟩ := hparts.unlinkEntry (by simp) (key_of_cell hp)
    obtain ⟨l₁, hrem, hl₁⟩ := Links.exec_remove hparts.list
    have hnd := hparts.list.nodup
    have hpnot : p ∉ as' ++ bs' := (List.nodup_middle.mp hnd |> List.nodup_cons.mp).1
    obtain ⟨l₂, hpush, hl₂⟩ := Links.exec_pushFront hl₁ hpnot
    have hperm : (p :: (as' ++ bs')).toFinset = (as' ++ p :: bs').toFinset := by
      ext q
      simp
    refine ⟨some n.value, { { c with
        totalQueryTimes := c.totalQueryTimes + 1
        hitQueryTimes := c.hitQueryTimes + 1 } with list := l₂ }, n :: (as ++ bs), ?_, rfl, .hit n,
      ⟨p :: (as' ++ bs'), ?_, by simp [hp, has, hbs]⟩, ?_, ?_⟩
    · rw [LRUCache.get]
      have hfind' : findEntry hash { c with totalQueryTimes := c.totalQueryTimes + 1 } n.key =
        some l := hfind
      simp only [hfind', Option.bind_some, hlink, listRemove, hp, listOp, hrem, Option.map_some,
        beq_self_eq_true, if_true, LRUCache.pushFront, hpush]
    · rw [hperm]
      exact (hparts.counters _ _ _).setList hl₂ fun q hq => by simp at hq ⊢; tauto
    · change c.memSizeUsed = _
      rw [h.used, total_append, total_cons, total_cons, total_append]
      omega
    · have hle := h.limit
      rw [total_append, total_cons] at hle
      rw [total_cons, total_append]
      change _ ≤ c.memSize
      omega

def nodeOf (hash : K → ℕ) (c : LRUCache K V) (k : K) : Option ℕ :=
  (c.findEntry hash k).bind c.buckets

def behind (c : LRUCache K V) : ℕ → NodePtr → List ℕ
  | 0, _ => []
  | fuel + 1, p =>
    match c.list.next p with
    | some (.node i) => i :: behind c fuel (.node i)
    | _ => []

/-- The memory of a deleted node can still be read, and no sum of memory wraps. An exchange is one
for an entry that fits; the node it replaces is the last of its bucket, and the last nodes
behind it in the recency list have exactly the memory that is too much. -/
def Granted (hash : K → ℕ) (freed : ℕ → ℕ) (c : LRUCache K V) : Call K V → Prop
  | .get _ => True
  | .erase k => ∀ p ∈ c.nodeOf hash k, ∀ n ∈ c.cells p, freed p = n.usedMem
  | .put k mem _ => mem ≤ c.memSize → c.nodeOf hash k = none → mem + c.memSizeUsed < 2 ^ 64
  | .exchange k mem _ => mem ≤ c.memSize ∧
    (c.nodeOf hash k = none → c.memSizeUsed + mem < 2 ^ 64) ∧
    ∀ p ∈ c.nodeOf hash k, ∀ n ∈ c.cells p, c.buckets (.next p) = none ∧
      c.memSizeUsed - n.usedMem + mem < 2 ^ 64 ∧
      ∃ evicted ∈ (c.behind c.list.size.toNat (.node p)).tails,
        c.usedBy evicted = c.memSizeUsed - n.usedMem + mem - c.memSize

instance (hash : K → ℕ) (freed : ℕ → ℕ) (c : LRUCache K V) (a : Call K V) :
    Decidable (Granted hash freed c a) := by
  cases a <;> unfold Granted <;> infer_instance

theorem Represents.erase (h : Represents hash c es) (k : K) (hlt : c.memSize < 2 ^ 64)
    (hg : Granted hash freed c (.erase k)) :
    ∃ c' es', c.erase hash freed k = some c' ∧ c'.memSize = c.memSize ∧
      SpecStep c.memSize es (.erase k) .unit es' ∧ Represents hash c' es' := by
  obtain ⟨ids, hparts, hcells⟩ := h.nodes
  rcases key_cases es k with hk | ⟨as, n, bs, rfl, rfl⟩
  · obtain ⟨l, hfind, hnone, -⟩ := hparts.findEntry_absent (not_key_of_entries hcells hk)
    refine ⟨c, es, ?_, rfl, .eraseMiss hk, h⟩
    simp only [LRUCache.erase, intrusiveErase, reduceCtorEq, if_false, hfind, Option.bind_some, hnone]
  · obtain ⟨as', p, bs', rfl, has, hp, hbs⟩ := split_ids hcells
    obtain ⟨l, hfind, hlink, hunl⟩ := hparts.unlinkEntry (by simp) (key_of_cell hp)
    obtain ⟨l', hrem, hl'⟩ := Links.exec_remove hparts.list
    have hpnot : p ∉ as' ++ bs' :=
      (List.nodup_middle.mp hparts.list.nodup |> List.nodup_cons.mp).1
    have hfreed : freed p = n.usedMem := hg p (by simp [nodeOf, hfind, hlink]) n hp
    rw [toFinset_erase_middle hpnot] at hunl
    have hold : ∀ q ∈ as' ++ bs', Function.update c.cells p none q = c.cells q := by
      intro q hq
      rw [Function.update_of_ne]
      rintro rfl
      exact hpnot hq
    have hle := h.limit
    have hused := h.used
    rw [total_append, total_cons] at hle hused
    have hsub : wrapSub c.memSizeUsed n.usedMem = c.memSizeUsed - n.usedMem :=
      wrapSub_eq (by omega) (by omega)
    have hdel := (hunl.setList hl' fun q hq => by simp at hq ⊢; tauto).delete hpnot (by simpa using hpnot)
    refine ⟨({ c.unlinkEntry l p with list := l' }.delete p).subMem n.usedMem, as ++ bs, ?_, rfl,
      .erase n, ⟨as' ++ bs', hdel.counters _ _ _, ?_⟩, ?_, ?_⟩
    · have hrem' : (c.unlinkEntry l p).listRemove p =
          some ({ c.unlinkEntry l p with list := l' }, true) := by
        rw [listRemove, show (c.unlinkEntry l p).cells p = some n from hp, Option.bind_some, listOp,
          show (c.unlinkEntry l p).list = c.list from rfl, hrem]
        rfl
      simp only [LRUCache.erase, intrusiveErase, reduceCtorEq, if_false, hfind, Option.bind_some,
        hlink, erasePostprocess, hrem', if_true, hfreed]
    · change (as' ++ bs').map (Function.update c.cells p none) = _
      rw [List.map_congr_left hold, List.map_append, has, hbs, List.map_append]
    · change wrapSub c.memSizeUsed n.usedMem = _
      rw [hsub, total_append]
      omega
    · rw [total_append]
      change _ ≤ c.memSize
      omega

omit [DecidableEq K] in
theorem Holds.reset {l : Links} (h : l.Holds ids) (hp : p ∉ ids) :
    (l.setPrev (.node p) none).setNext (.node p) none = l := by
  obtain ⟨hprev, hnext⟩ := h.out p hp
  have h₁ : Function.update l.prev (.node p) none = l.prev := by
    rw [← hprev, Function.update_eq_self]
  have h₂ : Function.update l.next (.node p) none = l.next := by
    rw [← hnext, Function.update_eq_self]
  simp only [Links.setPrev, Links.setNext, h₁, h₂]

omit [DecidableEq K] in
theorem Parts.newNode (h : Parts hash c ids tab) (n : LRUNode K V) :
    Parts hash (c.newNode n) ids tab := by
  obtain ⟨hids, htab⟩ := h.fresh c.nextId le_rfl
  have hcell : ∀ q, q ≠ c.nextId → (c.newNode n).cells q = c.cells q := fun q hq =>
    Function.update_of_ne hq _ _
  constructor
  case pos => exact h.pos
  case list =>
    change ((c.list.setPrev (.node c.nextId) none).setNext (.node c.nextId) none).Holds ids
    rw [Holds.reset h.list hids]
    exact h.list
  case table =>
    obtain ⟨chain, hb⟩ := h.table
    refine ⟨chain, hb.congr (fun b => by simp [LRUCache.newNode]) (fun q hq => ?_) fun q hq => ?_⟩
    · refine Function.update_of_ne ?_ _ _
      rintro ⟨⟩
      exact htab hq
    · rw [key, hcell q (by rintro rfl; exact htab hq)]
      rfl
  case size => exact h.size
  case fresh =>
    intro q hq
    exact h.fresh q (Nat.le_of_succ_le hq)
  case alive =>
    intro q hq
    rw [hcell q (by rintro rfl; exact hids hq)]
    exact h.alive q hq

theorem Parts.linkEntry (h : Parts hash c ids tab) (mem : ℕ) (val : V)
    (hk : ∀ p ∈ tab, c.key p ≠ some k) :
    ∃ l, (c.newNode ⟨k, val, mem⟩).findEntry hash k = some l ∧
      (c.newNode ⟨k, val, mem⟩).buckets l = none ∧
      Parts hash ((c.newNode ⟨k, val, mem⟩).linkEntry l c.nextId) ids (insert c.nextId tab) := by
  have htab := (h.fresh c.nextId le_rfl).2
  have h' := h.newNode ⟨k, val, mem⟩
  have hk' : ∀ p ∈ tab, (c.newNode ⟨k, val, mem⟩).key p ≠ some k := by
    intro p hp
    have hne : p ≠ c.nextId := by
      rintro rfl
      exact htab hp
    rw [key, LRUCache.newNode]
    simp only [Function.update_of_ne hne]
    exact hk p hp
  obtain ⟨l, hfind, hnone, chain, hb, rfl⟩ := h'.findEntry_absent hk'
  refine ⟨_, hfind, hnone, h'.pos, h'.list, ⟨_, hb.put hk' htab ?_ ?_⟩, ?_, ?_, h'.alive⟩
  · simp [key, LRUCache.newNode]
  · simp [LRUCache.newNode]
  · rw [Finset.card_insert_of_notMem htab, ← h.size]
    rfl
  · intro p hp
    change c.nextId + 1 ≤ p at hp
    refine ⟨(h.fresh p (by omega)).1, ?_⟩
    rw [Finset.mem_insert, not_or]
    exact ⟨by omega, (h.fresh p (by omega)).2⟩

omit [DecidableEq K] in
/-- The new node, which is in the table, goes to the front of the list. -/
theorem Parts.pushFront (h : Parts hash c ids tab) (hq : q ∉ ids) (hlt : q < c.nextId)
    (hcell : c.cells q = some n) :
    ∃ c', c.pushFront q = some c' ∧ Parts hash c' (q :: ids) tab ∧ c'.cells = c.cells ∧
      c'.memSize = c.memSize ∧ c'.memSizeUsed = c.memSizeUsed := by
  obtain ⟨l, hpush, hl⟩ := Links.exec_pushFront h.list hq
  refine ⟨{ c with list := l }, ?_, ⟨h.pos, hl, h.table, h.size, fun p hp => ?_, fun p hp => ?_⟩,
    rfl, rfl, rfl⟩
  · rw [LRUCache.pushFront, listOp, hpush]
    rfl
  · refine ⟨?_, (h.fresh p hp).2⟩
    rw [List.mem_cons, not_or]
    refine ⟨?_, (h.fresh p hp).1⟩
    rintro rfl
    exact absurd hlt (not_lt.mpr hp)
  · rcases List.mem_cons.mp hp with rfl | hp
    · exact ⟨n, hcell⟩
    · exact h.alive p hp

/-- Eviction makes room for an entry that fits, and takes nodes from the back only. -/
theorem Parts.release (freed : ℕ → ℕ) (h : Parts hash c ids tab) (hsub : ∀ p ∈ ids, p ∈ tab) {mem : ℕ}
    (hmem : mem ≤ c.memSize) (hlt : c.memSize < 2 ^ 64) (hused : c.memSizeUsed = c.usedBy ids)
    (hle : c.usedBy ids ≤ c.memSize) (lockedKey : K) :
    ∃ c' kept evicted, c.release hash freed mem lockedKey = some c' ∧ ids = kept ++ evicted ∧
      Parts hash c' kept (tab \ evicted.toFinset) ∧ Evicts c c' evicted ∧
      c'.memSizeUsed = c.usedBy kept ∧ c.usedBy kept + mem ≤ c.memSize := by
  have hfuel : ids.length < c.list.size.toNat + 1 := by
    rw [h.list.size, Int.toNat_natCast]
    exact Nat.lt_succ_self _
  obtain ⟨c', kept, evicted, hrun, rfl, hparts, hev, hused', -, hend⟩ :=
    Parts.releaseNodes freed [] lockedKey h hsub hfuel (hmem.trans_lt hlt) (by omega) (Or.inl rfl)
  rw [usedBy_append] at hle hused
  rw [wrapSub_eq (by omega) (by omega)] at hused'
  refine ⟨c', kept, evicted, hrun, rfl, hparts, hev, by omega, ?_⟩
  rcases hend with hmod | ⟨-, rfl⟩
  · -- exactly `mem` has been released
    have heq : c.usedBy evicted = mem := hmod.eq_of_lt_of_lt (by omega) (by omega)
    omega
  · simpa [usedBy] using hmem

omit [DecidableEq K] in
theorem Represents.newNode_delete (h : Represents hash c es) (n : LRUNode K V) :
    Represents hash ((c.newNode n).delete c.nextId) es := by
  obtain ⟨ids, hparts, hcells⟩ := h.nodes
  obtain ⟨hids, htab⟩ := hparts.fresh c.nextId le_rfl
  refine ⟨⟨ids, (hparts.newNode n).delete hids htab, ?_⟩, h.used, h.limit⟩
  rw [← hcells]
  refine List.map_congr_left fun p hp => ?_
  have hne : p ≠ c.nextId := by
    rintro rfl
    exact hids hp
  simp [LRUCache.delete, LRUCache.newNode, Function.update_of_ne hne]

/-- The put post-process for a node that is in the table and not in the list. -/
theorem Parts.putPostprocess (freed : ℕ → ℕ) (h : Parts hash c ids tab) (hsub : ∀ p ∈ ids, p ∈ tab)
    (hmem : n.usedMem ≤ c.memSize) (hlt : c.memSize < 2 ^ 64)
    (hused : c.memSizeUsed = c.usedBy ids) (hle : c.usedBy ids ≤ c.memSize)
    (hsum : n.usedMem + c.memSizeUsed < 2 ^ 64) :
    ∃ c' kept evicted, c.putPostprocess hash freed n = some c' ∧ ids = kept ++ evicted ∧
      Parts hash c' kept (tab \ evicted.toFinset) ∧ Evicts c c' evicted ∧
      c'.memSizeUsed = n.usedMem + c.usedBy kept ∧ n.usedMem + c.usedBy kept ≤ c.memSize ∧
      (evicted ≠ [] → c.memSize < n.usedMem + c.usedBy ids) := by
  rw [LRUCache.putPostprocess, wrapAdd_eq hsum]
  by_cases hfit : c.memSize < n.usedMem + c.memSizeUsed
  · rw [if_pos hfit]
    obtain ⟨c', kept, evicted, hrun, rfl, hparts, hev, hused', hroom⟩ :=
      h.release freed hsub hmem hlt hused hle n.key
    refine ⟨{ c' with memSizeUsed := wrapAdd c'.memSizeUsed n.usedMem }, kept, evicted, ?_, rfl,
      hparts.counters _ _ _, ⟨hev.bucketSize, hev.memSize, hev.nextId, hev.cells⟩, ?_, by omega,
      fun _ => hused ▸ hfit⟩
    · rw [hrun, Option.map_some]
    change wrapAdd c'.memSizeUsed n.usedMem = _
    rw [wrapAdd_eq (by omega), hused', Nat.add_comm]
  · rw [if_neg hfit]
    refine ⟨_, ids, [], rfl, by simp, ?_, ⟨rfl, rfl, rfl, fun _ _ => rfl⟩, ?_, by omega, by simp⟩
    · simpa using h.counters c.hitQueryTimes c.totalQueryTimes (wrapAdd c.memSizeUsed n.usedMem)
    · change wrapAdd c.memSizeUsed n.usedMem = _
      rw [wrapAdd_eq (by omega), hused, Nat.add_comm]

omit [DecidableEq K] in
/-- The new node of `c`, which is in the table already, gets to the front of a list that
has lost some nodes, those in `evicted` the last of them. -/
theorem Parts.pushNew {kept evicted : List ℕ} {ks : List (LRUNode K V)}
    (h₀ : Parts hash c ids tab) (hsub : (kept ++ evicted).Sublist ids)
    (h : Parts hash c' kept (insert c.nextId (kept ++ evicted).toFinset \ evicted.toFinset))
    (hid : c'.nextId = c.nextId + 1)
    (hcells : ∀ r ∈ c.nextId :: kept, r ∉ evicted → c'.cells r = (c.newNode n).cells r)
    (hks : kept.map c.cells = ks.map some) (hused : c'.memSizeUsed = n.usedMem + total ks)
    (hle : n.usedMem + total ks ≤ c'.memSize) :
    ∃ d, c'.pushFront c.nextId = some d ∧ d.memSize = c'.memSize ∧ Represents hash d (n :: ks) := by
  have hnd := h₀.list.nodup.sublist hsub
  have hq : c.nextId ∉ kept ++ evicted := fun hmem =>
    (h₀.fresh c.nextId le_rfl).1 (hsub.subset hmem)
  rw [List.mem_append, not_or] at hq
  have hne : ∀ r ∈ kept, r ∉ evicted := fun r hr hre => (List.nodup_append.mp hnd).2.2 r hr r hre rfl
  have hcell : c'.cells c.nextId = some n :=
    (hcells _ List.mem_cons_self hq.2).trans (Function.update_self _ _ _)
  have hks' : kept.map c'.cells = ks.map some := by
    rw [← hks]
    refine List.map_congr_left fun r hr => (hcells r (List.mem_cons_of_mem _ hr) (hne r hr)).trans ?_
    refine Function.update_of_ne ?_ _ _
    rintro rfl
    exact hq.1 hr
  obtain ⟨d, hpush, hparts, hcells', hlimit, hused'⟩ :=
    h.pushFront hq.1 (hid ▸ Nat.lt_succ_self c.nextId) hcell
  have htab : insert c.nextId (kept ++ evicted).toFinset \ evicted.toFinset =
      (c.nextId :: kept).toFinset := by
    ext r
    have hr := hne r
    simp only [Finset.mem_sdiff, Finset.mem_insert, List.mem_toFinset, List.mem_append,
      List.mem_cons]
    constructor
    · tauto
    · rintro (rfl | hr')
      · exact ⟨Or.inl rfl, hq.2⟩
      · exact ⟨Or.inr (Or.inl hr'), hr hr'⟩
  rw [htab] at hparts
  refine ⟨d, hpush, hlimit, ⟨c.nextId :: kept, hparts, by simp [hcells', hcell, hks']⟩, ?_, ?_⟩
  · rw [hused', hused, total_cons]
  · rw [hlimit, total_cons]
    exact hle

omit [DecidableEq K] in
theorem split_entries {kept evicted : List ℕ} (h : (kept ++ evicted).map c.cells = es.map some) :
    ∃ ks vs, es = ks ++ vs ∧ kept.map c.cells = ks.map some ∧ evicted.map c.cells = vs.map some ∧
      (vs = [] ↔ evicted = []) := by
  have hes := h.symm
  rw [List.map_append, List.map_eq_append_iff] at hes
  obtain ⟨ks, vs, rfl, hks, hvs⟩ := hes
  refine ⟨ks, vs, rfl, hks.symm, hvs.symm, ?_⟩
  rw [← List.map_eq_nil_iff (f := some), hvs, List.map_eq_nil_iff]

omit [DecidableEq K] in
theorem Parts.usedBy_newNode (h : Parts hash c ids tab) (hsub : ys.Sublist ids)
    (hes : ys.map c.cells = es.map some) : (c.newNode n).usedBy ys = total es := by
  refine (usedBy_congr fun r hr => Function.update_of_ne ?_ _ _).trans (usedBy_eq_total hes)
  rintro rfl
  exact (h.fresh c.nextId le_rfl).1 (hsub.subset hr)

theorem Parts.nodeOf_absent (h : Parts hash c ids tab) (hk : ∀ p ∈ tab, c.key p ≠ some k) :
    c.nodeOf hash k = none := by
  obtain ⟨l, hfind, hnone, -⟩ := h.findEntry_absent hk
  rw [nodeOf, hfind, Option.bind_some, hnone]

theorem Represents.put (h : Represents hash c es) (k : K) (mem : ℕ) (val : V)
    (hlt : c.memSize < 2 ^ 64) (hg : Granted hash freed c (.put k mem val)) :
    ∃ ret c' es', c.put hash freed k mem val = some (ret, c') ∧ c'.memSize = c.memSize ∧
      SpecStep c.memSize es (.put k mem val) (.bool ret) es' ∧ Represents hash c' es' := by
  obtain ⟨ids, hparts, hcells⟩ := h.nodes
  by_cases hsize : c.memSize < mem
  · refine ⟨false, (c.newNode ⟨k, val, mem⟩).delete c.nextId, es, ?_, rfl, .tooLarge hsize,
      h.newNode_delete _⟩
    rw [LRUCache.put]
    exact if_pos hsize
  rcases key_cases es k with hk | ⟨as, n, bs, rfl, rfl⟩
  · have hk' := not_key_of_entries hcells hk
    obtain ⟨l, hfind, hnone, hlink⟩ := hparts.linkEntry mem val hk'
    have huse : ((c.newNode ⟨k, val, mem⟩).linkEntry l c.nextId).usedBy ids = total es :=
      hparts.usedBy_newNode (List.Sublist.refl ids) hcells
    obtain ⟨c₂, kept, evicted, hpost, rfl, hparts₂, hev, hused₂, hroom, hwhen⟩ :=
      hlink.putPostprocess freed (n := ⟨k, val, mem⟩)
        (fun p hp => Finset.mem_insert_of_mem (List.mem_toFinset.mpr hp)) (not_lt.mp hsize) hlt
        (h.used.trans huse.symm) (huse ▸ h.limit)
        (hg (not_lt.mp hsize) (hparts.nodeOf_absent hk'))
    obtain ⟨ks, vs, rfl, hks, -, hnil⟩ := split_entries hcells
    have hkept : ((c.newNode ⟨k, val, mem⟩).linkEntry l c.nextId).usedBy kept = total ks :=
      hparts.usedBy_newNode (by simp) hks
    rw [hkept] at hused₂ hroom
    rw [huse] at hwhen
    obtain ⟨c₃, hpush, hlimit, h₃⟩ := hparts.pushNew (List.Sublist.refl _) hparts₂ hev.nextId
      (fun r _ hr => hev.cells r hr) hks hused₂ (hev.memSize ▸ hroom)
    refine ⟨true, c₃, ⟨k, val, mem⟩ :: ks, ?_, hlimit.trans hev.memSize, ?_, h₃⟩
    · rw [LRUCache.put]
      change (if c.memSize < mem then _ else _) = _
      rw [if_neg hsize, hfind, Option.bind_some, hnone]
      dsimp only
      rw [hpost, Option.bind_some, hpush, Option.map_some]
    · exact .put (not_lt.mp hsize) hk fun hne => hwhen (mt hnil.mpr hne)
  · obtain ⟨as', p, bs', rfl, has, hp, hbs⟩ := split_ids hcells
    have hne : p ≠ c.nextId := by
      rintro rfl
      exact (hparts.fresh c.nextId le_rfl).1 (by simp)
    obtain ⟨l, hfind, hlink, -⟩ := (hparts.newNode ⟨n.key, val, mem⟩).unlinkEntry (p := p)
      (k := n.key) (by simp) (by simp [key, LRUCache.newNode, Function.update_of_ne hne, hp])
    refine ⟨false, (c.newNode ⟨n.key, val, mem⟩).delete c.nextId, _, ?_, rfl,
      .present ⟨n, by simp, rfl⟩, h.newNode_delete _⟩
    rw [LRUCache.put]
    change (if c.memSize < mem then _ else _) = _
    rw [if_neg hsize, hfind, Option.bind_some, hlink]

def Follows (hash : K → ℕ) (freed : ℕ → ℕ) (a : Call K V) : Prop :=
  ∀ c es, Represents hash c es → c.memSize < 2 ^ 64 → Granted hash freed c a →
    ∃ r c' es', c.call hash freed a = some (r, c') ∧ c'.memSize = c.memSize ∧
      SpecStep c.memSize es a r es' ∧ Represents hash c' es'

theorem follows_get (hash : K → ℕ) (freed : ℕ → ℕ) (k : K) :
    Follows hash freed (Call.get k : Call K V) := by
  intro c es h _ _
  obtain ⟨val, c', es', hget, hrest⟩ := h.get k
  exact ⟨.found val, c', es', by rw [call, hget, Option.map_some], hrest⟩

theorem follows_put (hash : K → ℕ) (freed : ℕ → ℕ) (k : K) (mem : ℕ) (val : V) :
    Follows hash freed (.put k mem val) := by
  intro c es h hlt hg
  obtain ⟨ret, c', es', hput, hrest⟩ := h.put k mem val hlt hg
  exact ⟨.bool ret, c', es', by rw [call, hput, Option.map_some], hrest⟩

theorem follows_erase (hash : K → ℕ) (freed : ℕ → ℕ) (k : K) :
    Follows hash freed (Call.erase k : Call K V) := by
  intro c es h hlt hg
  obtain ⟨c', es', herase, hrest⟩ := h.erase k hlt hg
  exact ⟨.unit, c', es', by rw [call, herase, Option.map_some], hrest⟩

def after (hash : K → ℕ) (freed : ℕ → ℕ) (c : LRUCache K V) (a : Call K V) :
    Option (LRUCache K V) := (c.call hash freed a).map Prod.snd

theorem Represents.calls {as : List (Call K V)} (h : Represents hash c es)
    (hlt : c.memSize < 2 ^ 64) (hfollow : ∀ a ∈ as, Follows hash freed a)
    (hm : Meets (after hash freed) (Granted hash freed) c as) :
    ∃ answers c' es', c.calls hash freed as = some (answers, c') ∧ c'.memSize = c.memSize ∧
      SpecRun c.memSize es as answers es' ∧ Represents hash c' es' := by
  induction as generalizing c es with
  | nil => exact ⟨[], c, es, rfl, rfl, .nil, h⟩
  | cons a as ih =>
    obtain ⟨r, c₁, es₁, hcall, hlimit, hstep, h₁⟩ :=
      hfollow a List.mem_cons_self c es h hlt hm.1
    obtain ⟨rs, c', es', hcalls, hlimit', hrun, h'⟩ :=
      ih h₁ (hlimit ▸ hlt) (fun b hb => hfollow b (List.mem_cons_of_mem a hb))
        (hm.2 c₁ (by rw [after, hcall, Option.map_some]; rfl))
    refine ⟨r :: rs, c', es', ?_, hlimit'.trans hlimit, .cons hstep (hlimit ▸ hrun), h'⟩
    rw [LRUCache.calls, hcall, Option.bind_some, hcalls, Option.map_some]

omit [DecidableEq K] in
theorem represents_init (hash : K → ℕ) (bucketHint limit : ℕ) :
    Represents hash (init bucketHint limit : LRUCache K V) [] := by
  refine ⟨⟨[], ⟨nextBucketNum_pos _, Links.holds_empty, ⟨_, Buckets.empty hash _ _⟩, rfl,
    ?_, ?_⟩, rfl⟩, rfl, Nat.zero_le _⟩
  · simp
  · simp

def Call.isExchange : Call K V → Bool
  | .exchange _ _ _ => true
  | _ => false

/-- Every run of `get`, `put` and `erase` in which the code may take for granted what it
does is one of the specification, and the cache it ends in is well formed. -/
theorem lruCache_refines (hash : K → ℕ) (freed : ℕ → ℕ) (bucketHint limit : ℕ)
    (hlimit : limit < 2 ^ 64) (as : List (Call K V)) (hcalls : ∀ a ∈ as, a.isExchange = false)
    (hm : Meets (after hash freed) (Granted hash freed) (init bucketHint limit) as) :
    ∃ answers c es, (init bucketHint limit).calls hash freed as = some (answers, c) ∧
      SpecRun limit [] as answers es ∧ Represents hash c es := by
  have hfollow : ∀ a ∈ as, Follows hash freed a := by
    intro a ha
    have hx := hcalls a ha
    cases a with
    | get k => exact follows_get hash freed k
    | put k mem val => exact follows_put hash freed k mem val
    | erase k => exact follows_erase hash freed k
    | exchange k mem val => cases hx
  obtain ⟨answers, c, es, hrun, -, hspec, h⟩ :=
    (represents_init hash bucketHint limit).calls hlimit hfollow hm
  exact ⟨answers, c, es, hrun, hspec, h⟩

theorem lruCache_refines_evicting :
    ∃ answers c es, (init 0 10).calls id (fun _ => 4)
        [.put 0 4 100, .put 1 4 101, .get 0, .put 2 4 102, .erase 0, .get 1] =
          some (answers, c) ∧
      SpecRun 10 [] [.put 0 4 100, .put 1 4 101, .get 0, .put 2 4 102, .erase 0, .get 1]
        answers es ∧ Represents id c es :=
  lruCache_refines id (fun _ => 4) 0 10 (by norm_num) _ (by decide) (by decide +kernel)

/-- An erased entry leaves its memory in use if the deleted node reads as zero, and two
entries of 2^63 bytes have none together. -/
theorem lruCache_miscounts :
    ((init 0 10 : LRUCache ℕ ℕ).calls id (fun _ => 0) [.put 1 4 100, .erase 1]).map
        (fun r => (r.2.elementSize, r.2.memSizeUsed)) = some (0, 4) ∧
      ((init 0 (2 ^ 64 - 1) : LRUCache ℕ ℕ).calls id (fun _ => 0)
          [.put 1 (2 ^ 63) 100, .put 2 (2 ^ 63) 101]).map
        (fun r => (r.2.elementSize, r.2.memSizeUsed)) = some (2, 0) := by
  decide +kernel

end LRUCache

end SofaBolt
