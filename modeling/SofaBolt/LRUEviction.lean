import SofaBolt.LRUCacheSpec

namespace SofaBolt.LRUCache

variable {K V : Type*} {hash : K → ℕ} {c c' : LRUCache K V} {ids kept evicted later : List ℕ}
  {tab : Finset ℕ} {mem p : ℕ}

/-- The shortest end of the list that uses at least `mem`, or all of the list if that is
not enough. -/
structure IsShortest (c : LRUCache K V) (mem : ℕ) (ids kept evicted : List ℕ) : Prop where
  split : ids = kept ++ evicted
  enough : mem ≤ c.usedBy evicted ∨ kept = []
  shortest : ∀ later, later <:+ evicted → later ≠ evicted → c.usedBy later < mem

theorem usedBy_le_of_suffix (h : later <:+ ids) : c.usedBy later ≤ c.usedBy ids := by
  obtain ⟨front, rfl⟩ := h
  rw [usedBy_append]
  exact Nat.le_add_left _ _

theorem exists_isShortest (c : LRUCache K V) (mem : ℕ) (ids : List ℕ) :
    ∃ kept evicted, IsShortest c mem ids kept evicted := by
  induction ids with
  | nil =>
    exact ⟨[], [], rfl, .inr rfl, fun later h hne => absurd (List.suffix_nil.mp h) hne⟩
  | cons p ids ih =>
    obtain ⟨kept, evicted, hsplit, henough, hshortest⟩ := ih
    by_cases hmem : mem ≤ c.usedBy evicted
    · exact ⟨p :: kept, evicted, by rw [hsplit]; rfl, .inl hmem, hshortest⟩
    · have hall : ids = evicted := by
        rw [hsplit, henough.resolve_left hmem]
        rfl
      refine ⟨[], p :: ids, rfl, .inr rfl, fun later h hne => ?_⟩
      have hle := usedBy_le_of_suffix (c := c) ((List.suffix_cons_iff.mp h).resolve_left hne)
      rw [hall] at hle
      omega

theorem IsShortest.usedBy_lt (h : IsShortest c mem ids kept evicted) (hpos : 0 < mem)
    (hsize : ∀ p ∈ ids, c.usedBy [p] < 2 ^ 64) : c.usedBy evicted < mem + 2 ^ 64 := by
  cases hev : evicted with
  | nil => exact Nat.add_pos_left hpos _
  | cons p rest =>
    have hlt := h.shortest rest (hev ▸ List.suffix_cons p rest)
      (hev ▸ (List.cons_ne_self p rest).symm)
    have hp := hsize p (by rw [h.split, hev]; simp)
    have hsum : c.usedBy (p :: rest) = c.usedBy [p] + c.usedBy rest := usedBy_append c [p] rest
    omega

variable [DecidableEq K]

/-- `release_nodes` evicts an end of the recency list, and that is the shortest one that
uses `mem` exactly if it uses no more than `mem`, or all of the list. -/
theorem release_shortest_iff (freed : ℕ → ℕ) (h : Parts hash c ids tab) (hsub : ∀ p ∈ ids, p ∈ tab)
    (hused : c.memSizeUsed < 2 ^ 64) (hsize : ∀ p ∈ ids, c.usedBy [p] < 2 ^ 64) (hpos : 0 < mem)
    (hmem : mem < 2 ^ 64) (lockedKey : K) (hshort : IsShortest c mem ids kept evicted) :
    ∃ c' kept' evicted', c.release hash freed mem lockedKey = some c' ∧ ids = kept' ++ evicted' ∧
      Parts hash c' kept' (tab \ evicted'.toFinset) ∧ Evicts c c' evicted' ∧
      (evicted' = evicted ↔ c.usedBy evicted = mem ∨ kept = []) := by
  have hfuel : ids.length < c.list.size.toNat + 1 := by
    rw [h.list.size, Int.toNat_natCast]
    exact Nat.lt_succ_self _
  obtain ⟨c', kept', evicted', hrun, hsplit, hparts, hev, -, hfirst, hend⟩ :=
    Parts.releaseNodes freed [] lockedKey h hsub hfuel hmem hused (Or.inl rfl)
  refine ⟨c', kept', evicted', hrun, hsplit, hparts, hev, ?_⟩
  have hsuffix : evicted <:+ ids := ⟨kept, hshort.split.symm⟩
  have hsuffix' : evicted' <:+ ids := ⟨kept', hsplit.symm⟩
  -- The loop does not stop before the shortest end.
  have hlong : evicted <:+ evicted' := by
    rcases List.suffix_or_suffix_of_suffix hsuffix hsuffix' with hle | hle
    · exact hle
    by_contra hne
    have hlt := hshort.shortest evicted' hle fun heq => hne (heq ▸ List.suffix_refl _)
    rcases hend with hmod | ⟨-, hall⟩
    · exact hlt.ne (hmod.eq_of_lt_of_lt (hlt.trans hmem) hmem)
    · rw [hall, List.nil_append] at hsplit
      exact hne (hsplit ▸ hsuffix)
  constructor
  · rintro rfl
    rcases hend with hmod | ⟨-, hall⟩
    · refine hshort.enough.imp_left fun hge => ?_
      have hlt := hshort.usedBy_lt hpos hsize
      have hmod : c.usedBy evicted' % 2 ^ 64 = mem % 2 ^ 64 := hmod
      omega
    · right
      rw [hall, List.nil_append] at hsplit
      have hlen := congrArg List.length (hsplit.symm.trans hshort.split)
      rw [List.length_append] at hlen
      exact List.length_eq_zero_iff.mp (by omega)
  · rintro (heq | hall)
    · by_contra hne
      exact hfirst evicted hlong (Ne.symm hne) (by rw [heq])
    · have hids : ids = evicted := by rw [hshort.split, hall, List.nil_append]
      exact (hids ▸ hsuffix').eq_of_length_le hlong.length_le

theorem release_shortest_two :
    ∃ answers c ids kept evicted,
      (init 0 10 : LRUCache ℕ ℕ).calls id (fun _ => 4) [.put 0 4 100, .put 1 4 101] =
        some (answers, c) ∧
      IsShortest c 4 ids kept evicted ∧
      ∃ c' kept' evicted', c.release id (fun _ => 4) 4 2 = some c' ∧ ids = kept' ++ evicted' ∧
        Parts id c' kept' (ids.toFinset \ evicted'.toFinset) ∧ Evicts c c' evicted' ∧
        (evicted' = evicted ↔ c.usedBy evicted = 4 ∨ kept = []) := by
  have hfollow : ∀ a ∈ [Call.put 0 4 100, Call.put 1 4 101], Follows id (fun _ => 4) a := by
    intro a ha
    rcases List.mem_pair.mp ha with rfl | rfl <;> apply follows_put
  obtain ⟨answers, c, es, hcalls, hlimit, -, h⟩ :=
    (represents_init id 0 10).calls (by decide) hfollow (by decide +kernel)
  obtain ⟨ids, hparts, hcells⟩ := h.nodes
  obtain ⟨kept, evicted, hshort⟩ := exists_isShortest c 4 ids
  have hused : c.usedBy ids ≤ 10 := by
    rw [usedBy_eq_total hcells]
    exact h.limit.trans hlimit.le
  have hsize : ∀ p ∈ ids, c.usedBy [p] < 2 ^ 64 := by
    intro p hp
    obtain ⟨as, bs, rfl⟩ := List.append_of_mem hp
    rw [← List.singleton_append, usedBy_append, usedBy_append] at hused
    omega
  refine ⟨answers, c, ids, kept, evicted, hcalls, hshort, ?_⟩
  refine release_shortest_iff (fun _ => 4) hparts (fun p => List.mem_toFinset.mpr) ?_ hsize
    (by decide) (by decide) 2 hshort
  rw [h.used, ← usedBy_eq_total hcells]
  omega

/-- An entry of 5 bytes and then one of 3: to release 3 bytes, both are evicted, although
the one of 5 bytes is the last of the list.  A third entry leaves nothing of the second. -/
theorem release_evicts_all :
    ((init 0 10 : LRUCache ℕ ℕ).calls id (fun _ => 0) [.put 1 5 100, .put 2 3 101]).bind
        (fun r => (r.2.release id (fun _ => 0) 3 3).map fun c' =>
          (r.2.usedBy [0], r.2.usedBy [1], c'.elementSize, (c'.cells 1).isNone)) =
        some (5, 3, 0, true) ∧
      ((init 0 10 : LRUCache ℕ ℕ).calls id (fun _ => 0)
          [.put 1 5 100, .put 2 3 101, .put 3 3 102, .get 2]).map Prod.fst =
        some [.bool true, .bool true, .bool true, .found none] := by
  decide +kernel

end SofaBolt.LRUCache
