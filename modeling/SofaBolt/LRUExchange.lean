import SofaBolt.LRUCacheSpec

namespace SofaBolt.LRUCache

open Adjacent Chain IntrusiveList Run

variable {K V : Type*} [DecidableEq K] {hash : K → ℕ} {freed : ℕ → ℕ} {c c' : LRUCache K V}
  {ids : List ℕ} {tab : Finset ℕ} {es : List (LRUNode K V)} {k : K} {p q : ℕ} {n : LRUNode K V}

/-- The new node takes the place of the last node of its bucket. -/
theorem Parts.replaceEntry (h : Parts hash c ids tab) (mem : ℕ) (val : V) (hp : p ∈ tab)
    (hk : c.key p = some k) (hlast : c.buckets (.next p) = none) :
    ∃ l, (c.newNode ⟨k, val, mem⟩).findEntry hash k = some l ∧
      (c.newNode ⟨k, val, mem⟩).buckets l = some p ∧
      Parts hash ((c.newNode ⟨k, val, mem⟩).replaceEntry l c.nextId) ids
        (insert c.nextId (tab.erase p)) := by
  have htab := (h.fresh c.nextId le_rfl).2
  have hne : p ≠ c.nextId := by
    rintro rfl
    exact htab hp
  have h' := h.newNode ⟨k, val, mem⟩
  have hk' : (c.newNode ⟨k, val, mem⟩).key p = some k := by
    rw [key, LRUCache.newNode]
    simp only [Function.update_of_ne hne]
    exact hk
  obtain ⟨chain, hb⟩ := h'.table
  obtain ⟨as, bs, hsplit⟩ := hb.split hp hk'
  obtain ⟨hfind, hlink⟩ := hb.find_present hk' hsplit
  -- nothing is behind the node
  have hbs : bs = [] := by
    have hch := hb.chains (bucketIdx hash c.bucketSize k)
    rw [show chain (bucketIdx hash c.bucketSize k) = as ++ p :: bs from hsplit] at hch
    have hrest := (isChain_append hch).2
    have hnone : (c.newNode ⟨k, val, mem⟩).buckets (.next p) = none := by
      rw [LRUCache.newNode]
      simp only
      rw [Function.update_of_ne (by simpa using hne), hlast]
    cases bs with
    | nil => rfl
    | cons b bs => cases hnone.symm.trans hrest.1
  subst hbs
  obtain ⟨chain', hb'⟩ := hb.replace_last hp hk' hsplit htab (by simp [key, LRUCache.newNode])
    (by simp [LRUCache.newNode])
  refine ⟨_, ?_, hlink, h'.pos, h'.list, ⟨chain', hb'⟩, ?_, fun r hr => ?_, h'.alive⟩
  · rw [findEntry, h'.size]
    exact hfind
  · have hcard : (insert c.nextId (tab.erase p)).card = tab.card := by
      rw [Finset.card_insert_of_notMem (fun hmem => htab (Finset.mem_of_mem_erase hmem)),
        Finset.card_erase_add_one hp]
    rw [hcard, ← h.size]
    rfl
  · obtain ⟨hids, hr'⟩ := h'.fresh r hr
    refine ⟨hids, ?_⟩
    rw [Finset.mem_insert, not_or]
    refine ⟨?_, fun hmem => hr' (Finset.mem_of_mem_erase hmem)⟩
    rintro rfl
    exact absurd hr (Nat.not_succ_le_self c.nextId)

/-- The exchange post-process, where `used` is the memory in use with the new node.  If
something has to stay in front, the last nodes have exactly the memory that is too much. -/
theorem Parts.exchangePostprocess (freed : ℕ → ℕ) (front : List ℕ) {back : List ℕ}
    {mem used : ℕ} (h : Parts hash c (front ++ back) tab) (htab : ∀ p ∈ back, p ∈ tab)
    (hsum : wrapAdd c.memSizeUsed mem = used) (hlt : c.memSize < 2 ^ 64)
    (hle : c.usedBy back ≤ used) (hall : front = [] → used - c.usedBy back ≤ c.memSize)
    (hstop : front = [] ∨
      ∃ kept evicted, back = kept ++ evicted ∧ c.usedBy evicted = used - c.memSize) :
    ∃ c' kept evicted, c.exchangePostprocess hash freed n mem = some c' ∧
      back = kept ++ evicted ∧ Parts hash c' (front ++ kept) (tab \ evicted.toFinset) ∧
      Evicts c c' evicted ∧ c'.memSizeUsed = used - c.usedBy evicted ∧
      used - c.usedBy evicted ≤ c.memSize ∧ (evicted ≠ [] → c.memSize < used) := by
  have hused : used < 2 ^ 64 := hsum ▸ Nat.mod_lt _ (by norm_num)
  subst hsum
  rw [LRUCache.exchangePostprocess]
  have h₁ : Parts hash { c with memSizeUsed := wrapAdd c.memSizeUsed mem } (front ++ back) tab :=
    h.counters _ _ _
  by_cases hfit : c.memSize < wrapAdd c.memSizeUsed mem
  · dsimp only
    rw [if_pos hfit]
    have hfuel : back.length < c.list.size.toNat + 1 := by
      rw [h.list.size, Int.toNat_natCast, List.length_append]
      omega
    have hstop' : front = [] ∨ ∃ kept evicted, back = kept ++ evicted ∧
        c.usedBy evicted ≡ wrapAdd c.memSizeUsed mem - c.memSize [MOD 2 ^ 64] := by
      refine hstop.imp_right ?_
      rintro ⟨kept, evicted, hback, hsum⟩
      exact ⟨kept, evicted, hback, by rw [hsum]⟩
    obtain ⟨c', kept, evicted, hrun, hback, hparts, hev, hused', -, hend⟩ :=
      Parts.releaseNodes freed front n.key h₁ htab hfuel
        (show wrapAdd c.memSizeUsed mem - c.memSize < 2 ^ 64 by omega) hused hstop'
    have hevicted : c.usedBy evicted ≤ c.usedBy back := by
      rw [hback, usedBy_append]
      exact Nat.le_add_left _ _
    have hused' : c'.memSizeUsed = wrapAdd c.memSizeUsed mem - c.usedBy evicted :=
      hused'.trans (wrapSub_eq hused (hevicted.trans hle))
    refine ⟨c', kept, evicted, hrun, hback, hparts, ⟨hev.bucketSize, hev.memSize, hev.nextId,
      hev.cells⟩, hused', ?_, fun _ => hfit⟩
    rw [hback, usedBy_append] at hle
    rcases hend with hmod | ⟨hfront, rfl⟩
    · have heq : c.usedBy evicted = wrapAdd c.memSizeUsed mem - c.memSize :=
        hmod.eq_of_lt_of_lt (show c.usedBy evicted < 2 ^ 64 by omega) (by omega)
      omega
    · rw [List.nil_append] at hback
      exact hback ▸ hall hfront
  · dsimp only
    rw [if_neg hfit]
    refine ⟨_, back, [], rfl, by simp, by simpa using h₁, ⟨rfl, rfl, rfl, fun _ _ => rfl⟩, ?_, ?_,
      by simp⟩
    · simp [usedBy]
    · simpa [usedBy] using hfit

omit [DecidableEq K] in
theorem behind_eq {before bs : List ℕ} {fuel : ℕ} (h : c.list.Holds (before ++ p :: bs))
    (hfuel : bs.length ≤ fuel) : c.behind fuel (.node p) = bs := by
  induction bs generalizing before p fuel with
  | nil =>
    have hadj : Adj (frame (before ++ [p])) (.node p) .tail :=
      ⟨.header :: before.map .node, [], by simp [frame]⟩
    cases fuel with
    | zero => rfl
    | succ fuel => rw [behind, h.next _ _ hadj]
  | cons b bs ih =>
    have hadj : Adj (frame (before ++ p :: b :: bs)) (.node p) (.node b) :=
      ⟨.header :: before.map .node, bs.map .node ++ [.tail], by simp [frame]⟩
    cases fuel with
    | zero => simp at hfuel
    | succ fuel =>
      rw [behind, h.next _ _ hadj]
      simp only [List.cons.injEq, true_and]
      have h' : c.list.Holds ((before ++ [p]) ++ b :: bs) := by simpa using h
      exact ih h' (by simpa using hfuel)

omit [DecidableEq K] in
theorem wrapAdd_wrapSub {a b m : ℕ} (hba : b ≤ a) (h : a - b + m < 2 ^ 64) :
    wrapAdd a (wrapSub m b) = a - b + m := by
  rw [wrapAdd, wrapSub]
  omega

omit [DecidableEq K] in
theorem Parts.removeOld {as bs : List ℕ} (h : Parts hash c (as ++ p :: bs) tab) (hp : p ∉ tab) :
    ∃ l, c.listRemove p = some ({ c with list := l }, true) ∧
      Parts hash (LRUCache.delete { c with list := l } p) (as ++ bs) tab := by
  obtain ⟨n, hcell⟩ := h.alive p (by simp)
  obtain ⟨l, hrem, hl⟩ := Links.exec_remove h.list
  have hpnot : p ∉ as ++ bs := (List.nodup_cons.mp (List.nodup_middle.mp h.list.nodup)).1
  refine ⟨l, ?_, (h.setList hl fun r hr => ?_).delete hpnot hp⟩
  · simp [listRemove, hcell, listOp, hrem]
  · rw [List.mem_append] at hr
    rw [List.mem_append, List.mem_cons]
    tauto

theorem Represents.exchange (h : Represents hash c es) (k : K) (mem : ℕ) (val : V)
    (hlt : c.memSize < 2 ^ 64) (hg : Granted hash freed c (.exchange k mem val)) :
    ∃ ret c' es', c.exchange hash freed k mem val = some (ret, c') ∧ c'.memSize = c.memSize ∧
      SpecStep c.memSize es (.exchange k mem val) (.bool ret) es' ∧ Represents hash c' es' := by
  obtain ⟨ids, hparts, hcells⟩ := h.nodes
  obtain ⟨hmem, hnew, hold⟩ := hg
  have hused := h.used
  have hlimit := h.limit
  rcases key_cases es k with hk | ⟨as, n, bs, rfl, rfl⟩
  · have hk' := not_key_of_entries hcells hk
    obtain ⟨l, hfind, hnone, hlink⟩ := hparts.linkEntry mem val hk'
    have huse : ((c.newNode ⟨k, val, mem⟩).linkEntry l c.nextId).usedBy ids = total es :=
      hparts.usedBy_newNode (List.Sublist.refl ids) hcells
    have hsum : wrapAdd c.memSizeUsed mem = c.memSizeUsed + mem :=
      wrapAdd_eq (hnew (hparts.nodeOf_absent hk'))
    have hall : c.memSizeUsed + mem -
        ((c.newNode ⟨k, val, mem⟩).linkEntry l c.nextId).usedBy ids ≤ c.memSize := by
      rw [huse]
      omega
    obtain ⟨c₂, kept, evicted, hpost, rfl, hparts₂, hev, hused₂, hroom, hwhen⟩ :=
      Parts.exchangePostprocess freed [] (n := ⟨k, val, mem⟩) hlink
        (fun p hp => Finset.mem_insert_of_mem (List.mem_toFinset.mpr hp)) hsum hlt
        (by rw [huse]; omega) (fun _ => hall) (Or.inl rfl)
    obtain ⟨ks, vs, rfl, hks, hvs, hnil⟩ := split_entries hcells
    have hgone : ((c.newNode ⟨k, val, mem⟩).linkEntry l c.nextId).usedBy evicted = total vs :=
      hparts.usedBy_newNode (by simp) hvs
    rw [hgone] at hused₂ hroom
    rw [total_append] at hused hlimit
    have hleft : c.memSizeUsed + mem - total vs = mem + total ks := by omega
    obtain ⟨c₃, hpush, hlimit₃, h₃⟩ := hparts.pushNew (n := ⟨k, val, mem⟩) (List.Sublist.refl _)
      hparts₂ hev.nextId (fun r _ hr => hev.cells r hr) hks (hused₂.trans hleft)
      (hev.memSize ▸ hleft ▸ hroom)
    refine ⟨false, c₃, ⟨k, val, mem⟩ :: ks, ?_, hlimit₃.trans hev.memSize, ?_, h₃⟩
    · rw [LRUCache.exchange]
      simp only [hfind, Option.bind_some, hnone]
      rw [hpost, Option.bind_some, hpush, Option.map_some]
    · refine .exchangeNew hk fun hne => ?_
      have := hwhen (mt hnil.mpr hne)
      rw [total_append]
      change c.memSize < c.memSizeUsed + mem at this
      omega
  · obtain ⟨as', p, bs', rfl, has, hp, hbs⟩ := split_ids hcells
    obtain ⟨l₀, hfind₀, hlink₀, -⟩ := hparts.unlinkEntry (by simp) (key_of_cell hp)
    obtain ⟨hlast, hsum, ev, hev₀, hexact⟩ := hold p (by simp [nodeOf, hfind₀, hlink₀]) n hp
    have hbehind : c.behind c.list.size.toNat (.node p) = bs' := by
      refine behind_eq hparts.list ?_
      rw [hparts.list.size, Int.toNat_natCast, List.length_append, List.length_cons]
      omega
    rw [hbehind, List.mem_tails] at hev₀
    obtain ⟨left, hleft⟩ := hev₀
    obtain ⟨l, hfind, hlink, hrep⟩ :=
      hparts.replaceEntry mem val (by simp) (key_of_cell hp) hlast
    have hpnot : p ∉ as' ++ bs' :=
      (List.nodup_middle.mp hparts.list.nodup |> List.nodup_cons.mp).1
    rw [toFinset_erase_middle hpnot] at hrep
    have hpq : p ≠ c.nextId := by
      rintro rfl
      exact (hparts.fresh c.nextId le_rfl).1 (by simp)
    rw [total_append, total_cons] at hused hlimit
    have hmem' : ∀ r ∈ bs', r ∈ insert c.nextId (as' ++ bs').toFinset := fun r hr =>
      Finset.mem_insert_of_mem (List.mem_toFinset.mpr (List.mem_append_right _ hr))
    have hbsub : bs'.Sublist (as' ++ p :: bs') :=
      (List.sublist_cons_self p bs').trans (List.sublist_append_right as' _)
    have huse : ∀ {ys ns}, ys.map c.cells = ns.map some → ys.Sublist bs' →
        ((c.newNode ⟨n.key, val, mem⟩).replaceEntry l c.nextId).usedBy ys = total ns :=
      fun hns hsub => hparts.usedBy_newNode (hsub.trans hbsub) hns
    have hwrap : wrapAdd c.memSizeUsed (wrapSub mem n.usedMem) =
        c.memSizeUsed - n.usedMem + mem := wrapAdd_wrapSub (by omega) hsum
    have hstop : ((c.newNode ⟨n.key, val, mem⟩).replaceEntry l c.nextId).usedBy ev =
        c.memSizeUsed - n.usedMem + mem - c.memSize := by
      subst hleft
      obtain ⟨-, vs, -, -, hvs, -⟩ := split_entries hbs
      rw [huse hvs (List.sublist_append_right left ev), ← usedBy_eq_total hvs, hexact]
    have hrep' : Parts hash ((c.newNode ⟨n.key, val, mem⟩).replaceEntry l c.nextId)
        ((as' ++ [p]) ++ bs') (insert c.nextId (as' ++ bs').toFinset) := by
      simpa using hrep
    obtain ⟨c₂, kept, evicted, hpost, rfl, hparts₂, hev, hused₂, hroom, hwhen⟩ :=
      Parts.exchangePostprocess freed (as' ++ [p]) (n := ⟨n.key, val, mem⟩) hrep' hmem' hwrap hlt
        (by rw [huse hbs (List.Sublist.refl _)]; omega) (by simp)
        (Or.inr ⟨left, ev, hleft.symm, hstop⟩)
    obtain ⟨ks, vs, rfl, hks, hvs, hnil⟩ := split_entries hbs
    rw [huse hvs (List.sublist_append_right kept evicted)] at hused₂ hroom
    rw [total_append] at hused hlimit
    rw [List.append_assoc, List.singleton_append] at hparts₂
    -- the old node is none of the table any more
    obtain ⟨l₂, hrem, hparts₃⟩ := hparts₂.removeOld (by
      rw [Finset.mem_sdiff, Finset.mem_insert, List.mem_toFinset, not_and_or, not_or]
      exact Or.inl ⟨hpq, hpnot⟩)
    have hparts₃ : Parts hash (LRUCache.delete { c₂ with list := l₂ } p) (as' ++ kept)
        (insert c.nextId ((as' ++ kept) ++ evicted).toFinset \ evicted.toFinset) := by
      rwa [List.append_assoc]
    have hcells₃ : ∀ r ∈ c.nextId :: (as' ++ kept), r ∉ evicted →
        (LRUCache.delete { c₂ with list := l₂ } p).cells r =
          (c.newNode ⟨n.key, val, mem⟩).cells r := by
      intro r hr hre
      have hrp : r ≠ p := by
        rintro rfl
        rcases List.mem_cons.mp hr with hr | hr
        · exact hpq hr
        · exact hpnot (by rw [← List.append_assoc]; exact List.mem_append_left _ hr)
      exact (Function.update_of_ne hrp _ _).trans (hev.cells r hre)
    have hleft₃ : c.memSizeUsed - n.usedMem + mem - total vs = mem + total (as ++ ks) := by
      rw [total_append]
      omega
    obtain ⟨c₄, hpush, hlimit₄, h₄⟩ := hparts.pushNew (n := ⟨n.key, val, mem⟩) (by simp) hparts₃
      hev.nextId hcells₃ (by rw [List.map_append, List.map_append, has, hks])
      (hused₂.trans hleft₃) (show mem + total (as ++ ks) ≤ c₂.memSize from
        hev.memSize ▸ hleft₃ ▸ hroom)
    refine ⟨true, c₄, ⟨n.key, val, mem⟩ :: (as ++ ks), ?_, hlimit₄.trans hev.memSize, ?_, h₄⟩
    · have hori : (c.newNode ⟨n.key, val, mem⟩).cells p = some n :=
        (Function.update_of_ne hpq _ _).trans hp
      rw [LRUCache.exchange]
      simp only [hfind, Option.bind_some, hlink, hori]
      rw [hpost, Option.bind_some, hrem, Option.bind_some]
      simp only [if_true]
      rw [hpush, Option.map_some]
    · refine .exchange n fun hne => ?_
      have := hwhen (mt hnil.mpr hne)
      rw [total_append, total_append]
      change c.memSize < c.memSizeUsed - n.usedMem + mem at this
      omega

theorem follows_exchange (hash : K → ℕ) (freed : ℕ → ℕ) (k : K) (mem : ℕ) (val : V) :
    Follows hash freed (.exchange k mem val) := by
  intro c es h hlt hg
  obtain ⟨ret, c', es', hex, hrest⟩ := h.exchange k mem val hlt hg
  exact ⟨.bool ret, c', es', by rw [call, hex, Option.map_some], hrest⟩

omit [DecidableEq K] in
theorem Represents.keys_nodup (h : Represents hash c es) : (es.map LRUNode.key).Nodup := by
  obtain ⟨ids, hparts, hcells⟩ := h.nodes
  obtain ⟨chain, hb⟩ := hparts.table
  have hkeys : ids.map c.key = (es.map LRUNode.key).map some := by
    have := congrArg (List.map (Option.map LRUNode.key)) hcells
    rw [List.map_map, List.map_map] at this
    rw [List.map_map]
    exact this
  refine List.Nodup.of_map some ?_
  rw [← hkeys]
  refine hparts.list.nodup.map_on fun r hr t ht hrt => ?_
  exact hb.inj r (List.mem_toFinset.mpr hr) t (List.mem_toFinset.mpr ht) hrt

theorem Represents.get_of_mem (h : Represents hash c es) (hn : n ∈ es) :
    ∃ c', c.get hash n.key = some (some n.value, c') := by
  obtain ⟨val, c', es', hget, -, hstep, -⟩ := h.get n.key
  refine ⟨c', ?_⟩
  have hnd := h.keys_nodup
  generalize hk : n.key = k at *
  cases hstep with
  | miss hmiss => exact absurd hk (hmiss n hn)
  | hit n' => rw [hget, List.inj_on_of_nodup_map hnd hn (by simp) hk]

theorem run_after_of_calls {as : List (Call K V)} {answers : List (Answer V)}
    (h : c.calls hash freed as = some (answers, c')) : run (after hash freed) c as = some c' := by
  induction as generalizing c answers with
  | nil =>
    cases h
    rfl
  | cons a as ih =>
    rw [calls, Option.bind_eq_some_iff] at h
    obtain ⟨r, hr, h⟩ := h
    rw [Option.map_eq_some_iff] at h
    obtain ⟨rs, hrs, hpair⟩ := h
    cases hpair
    rw [run, after, hr, Option.map_some, Option.bind_some]
    exact ih hrs

def others (k : K) (es : List (LRUNode K V)) : List (LRUNode K V) :=
  es.filter fun n => decide (n.key ≠ k)

theorem others_eq_self (h : ∀ n ∈ es, n.key ≠ k) : others k es = es := by
  rw [others, List.filter_eq_self]
  simpa using h

theorem others_middle {as bs : List (LRUNode K V)}
    (h : ((as ++ n :: bs).map LRUNode.key).Nodup) : others n.key (as ++ n :: bs) = as ++ bs := by
  rw [List.map_append, List.map_cons, List.nodup_middle, List.nodup_cons, ← List.map_append] at h
  have hself : others n.key (as ++ bs) = as ++ bs :=
    others_eq_self fun m hm hk => h.1 (hk ▸ List.mem_map_of_mem hm)
  rw [others, List.filter_append] at hself
  rw [others, List.filter_append, List.filter_cons_of_neg (by simp), hself]

/-- In every run in which the code may take for granted what it does, `exchange` leaves the
new entry in front of the others, without some from the end of the recency list. -/
theorem exchange_preserves (hash : K → ℕ) (freed : ℕ → ℕ) (bucketHint limit : ℕ)
    (hlimit : limit < 2 ^ 64) (as : List (Call K V)) (k : K) (mem : ℕ) (val : V)
    (hm : Meets (after hash freed) (Granted hash freed) (init bucketHint limit)
      (as ++ [.exchange k mem val])) :
    ∃ answers c es ret c' kept evicted,
      (init bucketHint limit).calls hash freed as = some (answers, c) ∧ Represents hash c es ∧
      c.exchange hash freed k mem val = some (ret, c') ∧
      others k es = kept ++ evicted ∧ Represents hash c' (⟨k, val, mem⟩ :: kept) ∧
      (∃ d, c'.get hash k = some (some val, d)) ∧
      ∀ n ∈ kept, ∃ d, c'.get hash n.key = some (some n.value, d) := by
  have hfollow : ∀ a ∈ as, Follows hash freed a := by
    rintro (k | ⟨k, mem, val⟩ | k | ⟨k, mem, val⟩) -
    · exact follows_get hash freed k
    · exact follows_put hash freed k mem val
    · exact follows_erase hash freed k
    · exact follows_exchange hash freed k mem val
  obtain ⟨answers, c, es, hcalls, hlimit', -, h⟩ :=
    (represents_init hash bucketHint limit).calls hlimit hfollow (meets_append_left hm)
  have hg := (meets_of_append hm (run_after_of_calls hcalls)).1
  obtain ⟨ret, c', es', hex, -, hstep, h'⟩ :=
    h.exchange k mem val (hlimit'.symm ▸ hlimit) hg
  have hget : ∀ n ∈ es', ∃ d, c'.get hash n.key = some (some n.value, d) := fun n hn =>
    h'.get_of_mem hn
  have hnd := h.keys_nodup
  cases hstep with
  | exchangeNew hk =>
    exact ⟨answers, c, _, _, c', _, _, hcalls, h, hex, others_eq_self hk, h',
      hget _ List.mem_cons_self, fun n hn => hget n (List.mem_cons_of_mem _ hn)⟩
  | exchange n =>
    have hothers := (others_middle hnd).trans (List.append_assoc _ _ _).symm
    exact ⟨answers, c, _, _, c', _, _, hcalls, h, hex, hothers, h', hget _ List.mem_cons_self,
      fun n hn => hget n (List.mem_cons_of_mem _ hn)⟩

theorem exchange_preserves_evicting :
    ∃ answers c es ret c' kept evicted,
      (init 0 10).calls id (fun _ => 4) [.put 0 4 100, .put 1 4 101, .get 1] =
        some (answers, c) ∧ Represents id c es ∧
      c.exchange id (fun _ => 4) 1 10 201 = some (ret, c') ∧
      others 1 es = kept ++ evicted ∧ Represents id c' (⟨1, 201, 10⟩ :: kept) ∧
      (∃ d, c'.get id 1 = some (some 201, d)) ∧
      ∀ n ∈ kept, ∃ d, c'.get id n.key = some (some n.value, d) :=
  exchange_preserves id (fun _ => 4) 0 10 (by norm_num) [.put 0 4 100, .put 1 4 101, .get 1] 1 10
    201 (by decide +kernel)

/-- Three ways in which `exchange` fails: the rest of the bucket is lost, the entry is
larger than the cache, the eviction deletes the node that is being replaced. -/
theorem exchange_loses :
    ((init 0 10 : LRUCache ℕ ℕ).calls (fun _ => 0) (fun _ => 0)
        [.put 1 1 100, .put 2 1 200, .exchange 1 1 300, .get 2]).map
        (fun r => (r.1, r.2.elementSize)) =
      some ([.bool true, .bool true, .bool true, .found none], 2) ∧
      ((init 0 10 : LRUCache ℕ ℕ).calls id (fun _ => 0) [.exchange 1 20 100]).map
        (fun r => (r.2.memSize, r.2.memSizeUsed)) = some (10, 20) ∧
      ((init 0 10 : LRUCache ℕ ℕ).calls id (fun _ => 0)
        [.put 1 4 100, .put 2 4 200, .exchange 1 8 300]).isNone := by
  decide +kernel

end SofaBolt.LRUCache
