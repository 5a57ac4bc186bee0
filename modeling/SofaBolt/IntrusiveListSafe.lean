import SofaBolt.IntrusiveListOrder

namespace SofaBolt.IntrusiveList

open Adjacent LaggingLinks Run

variable {l l' : Links} {s : State} {ts : List Pc} {xs ys : List ℕ}
  {trail : NodePtr → List NodePtr} {a b c n p v y : NodePtr} {x i : ℕ} {w : Window} {pc pc' : Pc}

structure Outside (l : Links) (ts : List Pc) (xs : List ℕ) : Prop where
  entry : ∀ x p n, Has Pc.entry ts (x, p, n) → l.prev x = p ∧ l.next x = n
  out : ∀ i, i ∉ xs → (∀ p n, ¬ Has Pc.entry ts (.node i, p, n)) →
    l.prev (.node i) = none ∧ l.next (.node i) = none
  header : l.prev .header = none
  tail : l.next .tail = none

def EntriesOut (ts : List Pc) (xs : List ℕ) : Prop :=
  ∀ x p n, Has Pc.entry ts (x, p, n) → ∃ i, x = .node i ∧ i ∉ xs

theorem ne_node_of_mem_frame (ha : a ∈ frame xs) (hx : x ∉ xs) : NodePtr.node x ≠ a := by
  rintro rfl
  exact hx (mem_frame ha)

namespace Outside

theorem same (h : Outside l ts xs) (he : EntriesOut ts xs) (hi : ts[i]? = some pc)
    (hpc : pc'.entry = pc.entry)
    (hnode : ∀ j, j ∉ xs → l'.prev (.node j) = l.prev (.node j) ∧
      l'.next (.node j) = l.next (.node j))
    (hheader : l'.prev .header = l.prev .header) (htail : l'.next .tail = l.next .tail) :
    Outside l' (ts.set i pc') xs := by
  refine ⟨fun x p n hk => ?_, fun j hj hfree => ?_, hheader.trans h.header, htail.trans h.tail⟩
  · rw [has_set_same hi hpc] at hk
    obtain ⟨j, rfl, hj⟩ := he x p n hk
    rw [(hnode j hj).1, (hnode j hj).2]
    exact h.entry _ p n hk
  · rw [has_set_same hi hpc] at hfree
    rw [(hnode j hj).1, (hnode j hj).2]
    exact h.out j hj hfree

theorem setPrev (h : Outside l ts xs) (he : EntriesOut ts xs) (hi : ts[i]? = some pc)
    (hpc : pc'.entry = pc.entry) (hay : Adj (frame xs) a y) (v : Option NodePtr) :
    Outside (l.setPrev y v) (ts.set i pc') xs := by
  refine h.same he hi hpc (fun j hj => ⟨?_, rfl⟩) ?_ rfl
  · exact Function.update_of_ne (ne_node_of_mem_frame hay.mem_right hj) _ _
  · exact Function.update_of_ne (ne_header_of_adj hay).symm _ _

theorem setNext (h : Outside l ts xs) (he : EntriesOut ts xs) (hxs : xs.Nodup)
    (hi : ts[i]? = some pc) (hpc : pc'.entry = pc.entry) (hyb : Adj (frame xs) y b)
    (v : Option NodePtr) : Outside (l.setNext y v) (ts.set i pc') xs := by
  refine h.same he hi hpc (fun j hj => ⟨rfl, ?_⟩) rfl ?_
  · exact Function.update_of_ne (ne_node_of_mem_frame hyb.mem_left hj) _ _
  · exact Function.update_of_ne (ne_tail_of_adj hxs hyb).symm _ _

theorem relink {p n p' n' : Option NodePtr} (h : Outside l ts xs)
    (hu : Unique Pc.entry Prod.fst ts) (hi : ts[i]? = some pc)
    (hpc : pc.entry = some (.node x, p, n)) (hpc' : pc'.entry = some (.node x, p', n'))
    (hx : l'.prev (.node x) = p' ∧ l'.next (.node x) = n')
    (hagree : ∀ y, y ≠ .node x → l'.prev y = l.prev y ∧ l'.next y = l.next y) :
    Outside l' (ts.set i pc') xs := by
  refine ⟨fun y q m hk => ?_, fun j hj hfree => ?_, ?_, ?_⟩
  · rcases (has_set hu hi hpc _).mp hk with hk | ⟨hk, hne⟩
    · obtain ⟨rfl, rfl, rfl⟩ : NodePtr.node x = y ∧ p' = q ∧ n' = m := by
        simpa using hpc'.symm.trans hk
      exact hx
    · rw [(hagree y hne).1, (hagree y hne).2]
      exact h.entry y q m hk
  · have hne : NodePtr.node j ≠ .node x := by
      intro heq
      exact hfree p' n' ((has_set hu hi hpc _).mpr (Or.inl (heq ▸ hpc')))
    rw [(hagree _ hne).1, (hagree _ hne).2]
    exact h.out j hj fun q m hk => hfree q m ((has_set hu hi hpc _).mpr (Or.inr ⟨hk, hne⟩))
  · rw [(hagree .header (by simp)).1, h.header]
  · rw [(hagree .tail (by simp)).2, h.tail]

theorem insert {q m : Option NodePtr} (h : Outside l ts xs) (he : EntriesOut ts xs)
    (hu : Unique Pc.entry Prod.fst ts) (hxs : xs.Nodup) (hi : ts[i]? = some pc)
    (hpc : pc.entry = some (.node x, q, m)) (hpc' : pc'.entry = none) (hpn : Adj (frame xs) p n)
    (hys : ∀ j, j ∈ ys ↔ j = x ∨ j ∈ xs) (v : Option NodePtr) :
    Outside (l.setNext p v) (ts.set i pc') ys := by
  have hnext : ∀ {j}, j ∉ xs → (l.setNext p v).next (.node j) = l.next (.node j) := fun hj =>
    Function.update_of_ne (ne_node_of_mem_frame hpn.mem_left hj) _ _
  refine ⟨fun y q' m' hk => ?_, fun j hj hfree => ?_, h.header, ?_⟩
  · obtain ⟨hk, -⟩ := (has_set_lose hu hi hpc hpc' _).mp hk
    obtain ⟨j, rfl, hj⟩ := he y q' m' hk
    rw [hnext hj]
    exact h.entry _ q' m' hk
  · rw [hys, not_or] at hj
    rw [hnext hj.2]
    refine h.out j hj.2 fun q' m' hk => hfree q' m' ?_
    exact (has_set_lose hu hi hpc hpc' _).mpr ⟨hk, by simpa using hj.1⟩
  · exact (Function.update_of_ne (ne_tail_of_adj hxs hpn).symm _ _).trans h.tail

theorem erase (h : Outside l ts xs) (he : EntriesOut ts xs) (hxs : xs.Nodup)
    (hi : ts[i]? = some pc) (hpc : pc'.entry = pc.entry) (hpx : Adj (frame xs) p (.node x))
    (hprev : l.prev (.node x) = none) (hnext : l.next (.node x) = none)
    (hys : ∀ j, j ∈ ys ↔ j ≠ x ∧ j ∈ xs) (v : Option NodePtr) :
    Outside (l.setNext p v) (ts.set i pc') ys := by
  have hset := h.setNext he hxs hi hpc hpx v
  refine ⟨hset.entry, fun j hj hfree => ?_, hset.header, hset.tail⟩
  by_cases hjx : j = x
  · subst hjx
    refine ⟨hprev, ?_⟩
    exact (Function.update_of_ne (hpx.ne (frame_nodup hxs)).symm _ _).trans hnext
  · exact hset.out j (fun hmem => hj ((hys j).mpr ⟨hjx, hmem⟩)) hfree

end Outside

def Stable (ts : List Pc) (v : NodePtr) : Prop := v ≠ .tail ∧ ∀ t ∈ ts, t.fresh ≠ some v

structure Steady (ts : List Pc) : Prop where
  holds : ∀ t ∈ ts, ∀ v ∈ t.holds, Stable ts v
  cur : ∀ t ∈ ts, ∀ c, t.cur = some c → ∃ i, c = .node i

theorem Stable.set (h : Stable ts v) (hi : ts[i]? = some pc)
    (hfresh : ∀ x, pc'.fresh = some x → pc.fresh = some x ∨ x ≠ v) : Stable (ts.set i pc') v := by
  refine ⟨h.1, fun t ht hv => ?_⟩
  rcases List.mem_or_eq_of_mem_set ht with ht | rfl
  · exact h.2 t ht hv
  · exact (hfresh v hv).elim (h.2 pc (mem_of_getElem? hi)) (absurd rfl)

theorem Steady.set (h : Steady ts) (hi : ts[i]? = some pc)
    (hfresh : ∀ x, pc'.fresh = some x → pc.fresh = some x ∨ ∀ t ∈ ts, x ∉ t.holds)
    (hholds : ∀ v ∈ pc'.holds, Stable (ts.set i pc') v)
    (hcur : ∀ c, pc'.cur = some c → ∃ j, c = .node j) : Steady (ts.set i pc') := by
  constructor
  · intro t ht v hv
    rcases List.mem_or_eq_of_mem_set ht with ht | rfl
    · refine (h.holds t ht v hv).set hi fun x hx => (hfresh x hx).imp_right ?_
      rintro hfree rfl
      exact hfree t ht hv
    · exact hholds v hv
  · intro t ht c hc
    rcases List.mem_or_eq_of_mem_set ht with ht | rfl
    · exact h.cur t ht c hc
    · exact hcur c hc

structure Role.InPlace (r r' : Role) : Prop where
  enters : ∀ x, r'.enters x = r.enters x
  leaves : ∀ x, r'.leaves x = r.leaves x
  uncounted : r'.uncounted = r.uncounted
  counted : r'.counted = r.counted
  away : ∀ away, r.awayAfter away = away

structure Role.Plain (r r' : Role) : Prop extends r.InPlace r' where
  entry : r'.entry = r.entry
  insertion : r'.insertion = none
  linked : ∀ linked, r'.linkedAfter linked = linked

/-- A node is in the list, on its way in, on its way out, or away; and `_size` is the length
of the list, but for those on their way. -/
structure Counted (s : State) (xs : List ℕ) : Prop where
  place : ∀ i, (if i ∈ xs then 1 else 0) + s.threads.countP (Pc.enters (.node i)) +
    s.threads.countP (Pc.leaves (.node i)) + (s.away (.node i)).toNat = 1
  linked : ∀ i, i ∈ xs ↔ s.linked (.node i) = true
  size : s.links.size + s.threads.countP Pc.uncounted = xs.length + s.threads.countP Pc.counted

namespace Counted

theorem set {s' : State} (h : Counted s xs) (hi : s.threads[i]? = some pc)
    (hts : s'.threads = s.threads.set i pc')
    (hplace : ∀ j, (if j ∈ ys then 1 else 0) + (pc'.enters (.node j)).toNat +
        (pc'.leaves (.node j)).toNat + (s'.away (.node j)).toNat =
      (if j ∈ xs then 1 else 0) + (pc.enters (.node j)).toNat +
        (pc.leaves (.node j)).toNat + (s.away (.node j)).toNat)
    (hlinked : ∀ j, j ∈ ys ↔ s'.linked (.node j) = true)
    (hsize : s'.links.size + pc'.uncounted.toNat + xs.length + pc.counted.toNat =
      s.links.size + pc.uncounted.toNat + ys.length + pc'.counted.toNat) :
    Counted s' ys where
  place j := by
    have he := countP_set_add hi pc' (Pc.enters (.node j))
    have hl := countP_set_add hi pc' (Pc.leaves (.node j))
    have := h.place j
    have := hplace j
    rw [hts]
    omega
  linked := hlinked
  size := by
    have hu := countP_set_add hi pc' Pc.uncounted
    have hc := countP_set_add hi pc' Pc.counted
    have := h.size
    rw [hts]
    omega

theorem same (h : Counted s xs) (hi : s.threads[i]? = some pc) (hr : pc.role.InPlace pc'.role)
    (hsize : l'.size = s.links.size)
    (hlinked : ∀ j, pc'.role.linkedAfter s.linked (.node j) = s.linked (.node j)) :
    Counted (s.moved i pc l' pc') xs := by
  refine h.set hi rfl (fun j => ?_) (fun j => ?_) ?_
  · simp only [State.moved, hr.away, Pc.enters, Pc.leaves, hr.enters, hr.leaves]
  · rw [h.linked]
    exact (iff_of_eq (congrArg (· = true) (hlinked j))).symm
  · simp only [State.moved, hsize, Pc.uncounted, Pc.counted, hr.uncounted, hr.counted]

theorem insert {q m : Option NodePtr} (h : Counted s xs) (hi : s.threads[i]? = some pc)
    (hr : pc.role = .entering (.node x) q m) (hr' : pc'.role = .inserted w)
    (hw : w.cur = .node x) (hx : x ∉ xs) (hsize : l'.size = s.links.size)
    (hys : ∀ j, j ∈ ys ↔ j = x ∨ j ∈ xs) (hlen : ys.length = xs.length + 1) :
    Counted (s.moved i pc l' pc') ys := by
  refine h.set hi rfl (fun j => ?_) (fun j => ?_) ?_
  · simp only [State.moved, hr, hr', Role.awayAfter, Pc.enters, Pc.leaves, Role.enters, Role.leaves,
      hys]
    by_cases hjx : j = x
    · simp [hjx, hx]
    · simp [hjx, Ne.symm hjx]
  · simp only [State.moved, hr', Role.linkedAfter, hys, hw, Function.update_apply, h.linked]
    by_cases hjx : j = x <;> simp [hjx]
  · simp [State.moved, Pc.uncounted, Pc.counted, hr, hr', Role.uncounted, Role.counted, hsize, hlen]
    omega

theorem erase (h : Counted s xs) (hi : s.threads[i]? = some pc) (hr : pc.role = .bothCut w)
    (hr' : pc'.role = .leaving w) (hw : w.cur = .node x) (hx : x ∈ xs)
    (hsize : l'.size = s.links.size) (hys : ∀ j, j ∈ ys ↔ j ≠ x ∧ j ∈ xs)
    (hlen : xs.length = ys.length + 1) : Counted (s.moved i pc l' pc') ys := by
  refine h.set hi rfl (fun j => ?_) (fun j => ?_) ?_
  · simp only [State.moved, hr, hr', Role.awayAfter, Pc.enters, Pc.leaves, Role.enters, Role.leaves,
      hys, hw]
    by_cases hjx : j = x
    · simp [hjx, hx]
    · simp [hjx, Ne.symm hjx]
  · simp only [State.moved, hr', Role.linkedAfter, hys, hw, Function.update_apply, h.linked]
    by_cases hjx : j = x <;> simp [hjx]
  · simp [State.moved, Pc.uncounted, Pc.counted, hr, hr', Role.uncounted, Role.counted, hsize, hlen]
    omega

theorem count (h : Counted s xs) (hi : s.threads[i]? = some pc) (hr : pc.role = .counting)
    (hr' : pc'.role = .other) (hsize : l'.size = s.links.size + 1) :
    Counted (s.moved i pc l' pc') xs := by
  refine h.set hi rfl (fun j => ?_) (fun j => ?_) ?_
  · simp only [State.moved, hr, hr', Role.awayAfter, Pc.enters, Pc.leaves, Role.enters, Role.leaves]
  · simp only [State.moved, hr', Role.linkedAfter, h.linked]
  · simp [State.moved, Pc.uncounted, Pc.counted, hr, hr', Role.uncounted, Role.counted, hsize]

theorem uncount (h : Counted s xs) (hi : s.threads[i]? = some pc) (hr : pc.role = .left (.node x))
    (hr' : pc'.role = .other) (hsize : l'.size = s.links.size - 1) :
    Counted (s.moved i pc l' pc') xs := by
  -- the node has left, so it is not away yet
  have haway : s.away (.node x) = false := by
    have hpos : 0 < s.threads.countP (Pc.leaves (.node x)) :=
      List.countP_pos_iff.mpr ⟨pc, mem_of_getElem? hi, by simp [Pc.leaves, hr, Role.leaves]⟩
    have hplace := h.place x
    cases ha : s.away (.node x) with
    | false => rfl
    | true =>
      rw [ha, Bool.toNat_true] at hplace
      omega
  refine h.set hi rfl (fun j => ?_) (fun j => ?_) ?_
  · simp only [State.moved, hr, hr', Role.awayAfter, Pc.enters, Pc.leaves, Role.enters, Role.leaves,
      Function.update_apply]
    by_cases hjx : j = x
    · simp [hjx, haway]
    · simp [hjx, Ne.symm hjx]
  · simp only [State.moved, hr', Role.linkedAfter, h.linked]
  · simp [State.moved, Pc.uncounted, Pc.counted, hr, hr', Role.uncounted, Role.counted, hsize]
    omega

end Counted

structure Inv (s : State) (xs : List ℕ) (trail : NodePtr → List NodePtr) : Prop where
  nodup : xs.Nodup
  next : NextOrder s.links.next s.threads xs
  prev : PrevOrder s.links.prev s.threads xs trail
  inserted : ∀ w, Has Pc.insertion s.threads w → Adj (frame xs) w.cur w.next
  outside : Outside s.links s.threads xs
  steady : Steady s.threads
  counted : Counted s xs

theorem Pc.cur_of_entry {q m : Option NodePtr} (h : pc.entry = some (y, q, m)) :
    pc.cur = some y := by
  cases pc <;> simp_all [Pc.entry, Pc.role, Role.entry, Pc.cur]

theorem Pc.enters_of_entry {q m : Option NodePtr} (h : pc.entry = some (y, q, m)) :
    pc.enters y = true := by
  cases pc <;> simp_all [Pc.entry, Pc.role, Role.entry, Pc.enters, Role.enters]

theorem Pc.holds_of_entry {m : Option NodePtr} (h : pc.entry = some (y, some v, m)) :
    v ∈ pc.holds := by
  cases pc <;> simp_all [Pc.entry, Pc.role, Role.entry, Pc.holds]

theorem Pc.holds_of_pending (h : pc.pending = some (y, v, b)) : v ∈ pc.holds := by
  cases pc <;> simp_all [Pc.pending, Pc.role, Role.pending, Pc.holds]

theorem Pc.pending_of_insertion (h : pc.insertion = some w) :
    pc.pending = some (w.next, w.prev, w.cur) := by
  cases pc <;> simp_all [Pc.pending, Pc.insertion, Pc.role, Role.pending, Role.insertion]

theorem Pc.pending_cases (h : pc.pending = some (y, v, b)) :
    (∃ w, pc.insertion = some w ∧ w.next = y) ∨ pc.leaves v = true ∧ pc.cur = some v := by
  cases pc <;> simp_all [Pc.pending, Pc.insertion, Pc.leaves, Pc.cur, Pc.role, Role.pending,
    Role.insertion, Role.leaves]

theorem Pc.fresh_cases (h : pc.fresh = some y) :
    (∃ q m, pc.entry = some (y, q, m)) ∨ ∃ w, pc.insertion = some w ∧ w.cur = y := by
  cases pc <;> simp_all [Pc.fresh, Pc.entry, Pc.insertion, Pc.role, Role.fresh, Role.entry,
    Role.insertion]

namespace Inv

theorem notMem (h : Inv s xs trail) (hpc : pc ∈ s.threads)
    (hx : pc.enters (.node x) = true ∨ pc.leaves (.node x) = true) : x ∉ xs := by
  intro hmem
  have := h.counted.place x
  rw [if_pos hmem] at this
  rcases hx with hx | hx
  · have hpos := List.countP_pos_iff.mpr ⟨pc, hpc, hx⟩
    omega
  · have hpos := List.countP_pos_iff.mpr ⟨pc, hpc, hx⟩
    omega

theorem entriesOut (h : Inv s xs trail) : EntriesOut s.threads xs := by
  rintro y q m ⟨pc, hpc, he⟩
  obtain ⟨j, rfl⟩ := h.steady.cur pc hpc y (Pc.cur_of_entry he)
  exact ⟨j, rfl, h.notMem hpc (Or.inl (Pc.enters_of_entry he))⟩

theorem entryOwner (h : Inv s xs trail) : Unique Pc.entry Prod.fst s.threads := by
  rintro i j t u ⟨y, q, m⟩ ⟨y', q', m'⟩ hi hj ht hu rfl
  obtain ⟨x, rfl⟩ := h.steady.cur t (mem_of_getElem? hi) y (Pc.cur_of_entry ht)
  have hle : s.threads.countP (Pc.enters (.node x)) ≤ 1 := by
    have := h.counted.place x
    omega
  exact eq_of_countP_le_one hle hi hj (Pc.enters_of_entry ht) (Pc.enters_of_entry hu)

/-- A node that is not being pushed is linked only if it is in the list. -/
theorem adj_of_next (h : Inv s xs trail) (hab : s.links.next a = some b)
    (hfree : ∀ q m, ¬ Has Pc.entry s.threads (a, q, m)) : Adj (frame xs) a b := by
  have hmem : a ∈ frame xs := by
    cases a with
    | header => exact mem_frame_iff.mpr (Or.inl rfl)
    | tail => exact mem_frame_iff.mpr (Or.inr (Or.inl rfl))
    | node j =>
      by_contra hout
      have hj : j ∉ xs := fun hj => hout (mem_frame_iff.mpr (Or.inr (Or.inr ⟨j, hj, rfl⟩)))
      rw [(h.outside.out j hj hfree).2] at hab
      cases hab
  have hne : a ≠ .tail := by
    rintro rfl
    rw [h.outside.tail] at hab
    cases hab
  obtain ⟨b', hb'⟩ := exists_next hmem hne
  rw [h.next.forward.eq_of_next hb' hab]
  exact hb'

/-- The present neighbour is not on its way into the list if the link leads to it. -/
theorem stable_of_head (h : Inv s xs trail) (hay : Adj (frame xs) a y)
    (hhead : (trail y).head? = some a) : Stable s.threads a := by
  refine ⟨ne_tail_of_adj h.nodup hay, fun t ht hfresh => ?_⟩
  rcases Pc.fresh_cases hfresh with ⟨q, m, he⟩ | ⟨w, hw, rfl⟩
  · obtain ⟨j, rfl, hj⟩ := h.entriesOut a q m ⟨t, ht, he⟩
    exact hj (mem_frame hay.mem_left)
  · obtain rfl := (h.inserted w ⟨t, ht, hw⟩).unique_right (frame_nodup h.nodup) hay
    obtain ⟨-, hadj⟩ := (h.prev.backward.steps _ _ _).mp ⟨t, ht, Pc.pending_of_insertion hw⟩
    exact not_adj_head (h.prev.backward.nodup _ _ hay) hhead hadj

/-- No `prev` leads to a node that is on its way into the list. -/
theorem stable_of_prev (h : Inv s xs trail) (hy : s.links.prev y = some v) :
    Stable s.threads v := by
  by_cases hmem : y ∈ frame xs
  · have hne : y ≠ .header := by
      rintro rfl
      rw [h.outside.header] at hy
      cases hy
    obtain ⟨a, hay⟩ := exists_prev hmem hne
    have hhead := h.prev.backward.head_of_prev hay hy
    rcases h.prev.backward.mem_trail hay (List.mem_of_head? hhead) with rfl | ⟨b, t, ht, hpend⟩
    · exact h.stable_of_head hay hhead
    · exact h.steady.holds t ht v (Pc.holds_of_pending hpend)
  · cases y with
    | header => exact absurd (mem_frame_iff.mpr (Or.inl rfl)) hmem
    | tail => exact absurd (mem_frame_iff.mpr (Or.inr (Or.inl rfl))) hmem
    | node j =>
      have hj : j ∉ xs := fun hj => hmem (mem_frame_iff.mpr (Or.inr (Or.inr ⟨j, hj, rfl⟩)))
      by_cases hfree : ∀ q m, ¬ Has Pc.entry s.threads (.node j, q, m)
      · rw [(h.outside.out j hj hfree).1] at hy
        cases hy
      · push Not at hfree
        obtain ⟨q, m, t, ht, he⟩ := hfree
        obtain rfl := (h.outside.entry _ q m ⟨t, ht, he⟩).1.symm.trans hy
        exact h.steady.holds t ht v (Pc.holds_of_entry he)

end Inv

theorem Stable.not_entry (h : Stable ts v) (q m : Option NodePtr) : ¬ Has Pc.entry ts (v, q, m) := by
  rintro ⟨t, ht, he⟩
  refine h.2 t ht ?_
  cases t <;> simp_all [Pc.fresh, Pc.entry, Pc.role, Role.fresh, Role.entry]

theorem Stable.not_inserted (h : Stable ts v) (hw : Has Pc.insertion ts w) : w.cur ≠ v := by
  rintro rfl
  obtain ⟨t, ht, hins⟩ := hw
  refine h.2 t ht ?_
  cases t <;> simp_all [Pc.fresh, Pc.insertion, Pc.role, Role.fresh, Role.insertion]

theorem has_insertion_set (h : ∀ w, Has Pc.insertion ts w → Adj (frame ys) w.cur w.next)
    (hpc' : ∀ w, pc'.insertion = some w → Adj (frame ys) w.cur w.next) :
    ∀ w, Has Pc.insertion (ts.set i pc') w → Adj (frame ys) w.cur w.next := by
  rintro w ⟨t, ht, hw⟩
  rcases List.mem_or_eq_of_mem_set ht with ht | rfl
  · exact h w ⟨t, ht, hw⟩
  · exact hpc' w hw

namespace Inv

theorem stay (h : Inv s xs trail) (hi : s.threads[i]? = some pc) (hr : pc'.role = pc.role)
    (hleft : ∀ c, pc.role ≠ .left c) (hsteady : Steady (s.threads.set i pc')) :
    Inv (s.moved i pc s.links pc') xs trail where
  nodup := h.nodup
  next := h.next.same hi (congrArg Role.cutNext hr) fun _ _ _ => rfl
  prev := h.prev.same hi (congrArg Role.cutPrev hr) (congrArg Role.pending hr) fun _ _ _ => rfl
  inserted := has_insertion_set h.inserted fun w hw =>
    h.inserted w ⟨pc, mem_of_getElem? hi, (congrArg Role.insertion hr).symm.trans hw⟩
  outside := h.outside.same h.entriesOut hi (congrArg Role.entry hr) (fun _ _ => ⟨rfl, rfl⟩) rfl rfl
  steady := hsteady
  counted := by
    refine h.counted.same hi ?_ rfl fun j => ?_
    · rw [hr]
      refine ⟨fun _ => rfl, fun _ => rfl, rfl, rfl, fun _ => ?_⟩
      cases hpc : pc.role <;> first | rfl | exact absurd hpc (hleft _)
    · rw [hr]
      -- while it waits, its node is linked already, or not linked any more
      cases hpc : pc.role <;> try rfl
      case inserted w =>
        by_cases hj : NodePtr.node j = w.cur
        · have hmem := (h.inserted w ⟨pc, mem_of_getElem? hi, congrArg Role.insertion hpc⟩).mem_left
          rw [← hj] at hmem
          rw [Role.linkedAfter, hj, Function.update_self, ← hj,
            (h.counted.linked j).mp (mem_frame hmem)]
        · exact Function.update_of_ne hj ..
      case leaving w =>
        by_cases hj : NodePtr.node j = w.cur
        · have hout : j ∉ xs := h.notMem (mem_of_getElem? hi)
            (Or.inr (by simp [Pc.leaves, hpc, Role.leaves, hj]))
          rw [Role.linkedAfter, hj, Function.update_self, ← hj]
          rw [h.counted.linked] at hout
          simpa using hout
        · exact Function.update_of_ne hj ..

theorem relink {q m q' m' : Option NodePtr} (h : Inv s xs trail) (hi : s.threads[i]? = some pc)
    (hr : pc.role = .entering c q m) (hr' : pc'.role = .entering c q' m')
    (hc : s.links.prev c = q → s.links.next c = m → l'.prev c = q' ∧ l'.next c = m')
    (hagree : ∀ y, y ≠ c → l'.prev y = s.links.prev y ∧ l'.next y = s.links.next y)
    (hsize : l'.size = s.links.size) (hsteady : Steady (s.threads.set i pc')) :
    Inv (s.moved i pc l' pc') xs trail := by
  have hentry : pc.entry = some (c, q, m) := congrArg Role.entry hr
  obtain ⟨x, rfl, hx⟩ := h.entriesOut c q m ⟨pc, mem_of_getElem? hi, hentry⟩
  have hne : ∀ {a}, a ∈ frame xs → a ≠ .node x := fun ha => (ne_node_of_mem_frame ha hx).symm
  obtain ⟨hq, hm⟩ := h.outside.entry _ q m ⟨pc, mem_of_getElem? hi, hentry⟩
  constructor
  case nodup => exact h.nodup
  case next =>
    refine h.next.same hi ?_ fun a b hab => (hagree a (hne hab.mem_left)).2
    exact (congrArg Role.cutNext hr').trans (congrArg Role.cutNext hr).symm
  case prev =>
    refine h.prev.same hi ?_ ?_ fun a b hab => (hagree b (hne hab.mem_right)).1
    · exact (congrArg Role.cutPrev hr').trans (congrArg Role.cutPrev hr).symm
    · exact (congrArg Role.pending hr').trans (congrArg Role.pending hr).symm
  case inserted =>
    refine has_insertion_set h.inserted fun w hw => ?_
    rw [Pc.insertion, hr'] at hw
    cases hw
  case outside =>
    exact h.outside.relink h.entryOwner hi hentry (congrArg Role.entry hr') (hc hq hm) hagree
  case steady => exact hsteady
  case counted =>
    refine h.counted.same hi ?_ hsize fun j => ?_
    · rw [hr, hr']
      exact ⟨fun _ => rfl, fun _ => rfl, rfl, rfl, fun _ => rfl⟩
    · rw [hr']
      rfl

/-- An access to the links of the list that moves no node in or out. -/
theorem plain {trail' : NodePtr → List NodePtr} (h : Inv s xs trail) (hi : s.threads[i]? = some pc)
    (hr : pc.role.Plain pc'.role) (hsize : l'.size = s.links.size)
    (hnext : NextOrder l'.next (s.threads.set i pc') xs)
    (hprev : PrevOrder l'.prev (s.threads.set i pc') xs trail')
    (hout : Outside l' (s.threads.set i pc') xs) (hsteady : Steady (s.threads.set i pc')) :
    Inv (s.moved i pc l' pc') xs trail' where
  nodup := h.nodup
  next := hnext
  prev := hprev
  inserted := has_insertion_set h.inserted fun w hw => by
    rw [Pc.insertion, hr.insertion] at hw
    cases hw
  outside := hout
  steady := hsteady
  counted := h.counted.same hi hr.toInPlace hsize fun j => congrFun (hr.linked _) _

theorem mem_of_prev (h : Inv s xs trail) (hstable : Stable s.threads (.node x))
    (hprev : s.links.prev (.node x) = some v) : x ∈ xs := by
  by_contra hx
  rw [(h.outside.out x hx hstable.not_entry).1] at hprev
  cases hprev

theorem cutPrev (h : Inv s xs trail) (hi : s.threads[i]? = some pc) (hr : pc.role = .other)
    (hr' : pc'.role = .prevCut w) (hcur : pc.cur = some w.cur) (hholds : w.cur ∈ pc.holds)
    (hprev : s.links.prev w.cur = some w.prev) (hsteady : Steady (s.threads.set i pc')) :
    Inv (s.moved i pc (s.links.setPrev w.cur none) pc') xs trail := by
  have hpc := mem_of_getElem? hi
  obtain ⟨x, hx⟩ := h.steady.cur pc hpc _ hcur
  have hmem : x ∈ xs := h.mem_of_prev (hx ▸ h.steady.holds pc hpc _ hholds) (hx ▸ hprev)
  obtain ⟨a, ha⟩ : ∃ a, Adj (frame xs) a w.cur := by
    rw [hx]
    exact exists_prev (mem_frame_iff.mpr (Or.inr (Or.inr ⟨x, hmem, rfl⟩))) (by simp)
  have hrole : pc.role.Plain pc'.role := by
    rw [hr, hr']
    exact ⟨⟨fun _ => rfl, fun _ => rfl, rfl, rfl, fun _ => rfl⟩, rfl, rfl, fun _ => rfl⟩
  refine h.plain hi hrole rfl (h.next.same hi ?_ fun _ _ _ => rfl)
    (h.prev.cut hi (congrArg Role.cutPrev hr) (congrArg Role.cutPrev hr') ?_ ha hprev)
    (h.outside.setPrev h.entriesOut hi hrole.entry ha _) hsteady
  · exact (congrArg Role.cutNext hr').trans (congrArg Role.cutNext hr).symm
  · exact (congrArg Role.pending hr').trans (congrArg Role.pending hr).symm

theorem mendPrev (h : Inv s xs trail) (hi : s.threads[i]? = some pc)
    (hrole : pc.role.Plain pc'.role) (hcut : pc.cutPrev = some (w.cur, w.prev))
    (hcut' : pc'.cutPrev = none) (hnext : pc'.cutNext = pc.cutNext)
    (hpend : pc'.pending = pc.pending) (hsteady : Steady (s.threads.set i pc')) :
    Inv (s.moved i pc (if s.links.prev w.cur = none then s.links.setPrev w.cur (some w.prev)
      else s.links) pc') xs trail := by
  obtain ⟨⟨a, ha⟩, hnone, -⟩ := h.prev.backward.off _ _ ⟨pc, mem_of_getElem? hi, hcut⟩
  rw [if_pos hnone]
  exact h.plain hi hrole rfl (h.next.same hi hnext fun _ _ _ => rfl)
    (h.prev.mend hi hcut hcut' hpend) (h.outside.setPrev h.entriesOut hi hrole.entry ha _) hsteady

theorem cutNext (h : Inv s xs trail) (hi : s.threads[i]? = some pc) (hr : pc.role = .prevCut w)
    (hr' : pc'.role = .bothCut w) (hholds : w.cur ∈ pc.holds)
    (hnext : s.links.next w.cur = some w.next) (hsteady : Steady (s.threads.set i pc')) :
    Inv (s.moved i pc (s.links.setNext w.cur none) pc') xs trail := by
  have hpc := mem_of_getElem? hi
  have hadj := h.adj_of_next hnext (h.steady.holds pc hpc _ hholds).not_entry
  have hrole : pc.role.Plain pc'.role := by
    rw [hr, hr']
    exact ⟨⟨fun _ => rfl, fun _ => rfl, rfl, rfl, fun _ => rfl⟩, rfl, rfl, fun _ => rfl⟩
  refine h.plain hi hrole rfl
    (h.next.cut hi (congrArg Role.cutNext hr) (congrArg Role.cutNext hr') hadj hnext)
    (h.prev.same hi ?_ ?_ fun _ _ _ => rfl)
    (h.outside.setNext h.entriesOut h.nodup hi hrole.entry hadj _) hsteady
  · exact (congrArg Role.cutPrev hr').trans (congrArg Role.cutPrev hr).symm
  · exact (congrArg Role.pending hr').trans (congrArg Role.pending hr).symm

theorem mendNext (h : Inv s xs trail) (hi : s.threads[i]? = some pc) (hr : pc.role = .nextCut w)
    (hr' : pc'.role = .other) (hsteady : Steady (s.threads.set i pc')) :
    Inv (s.moved i pc (if s.links.next w.cur = none then s.links.setNext w.cur (some w.next)
      else s.links) pc') xs trail := by
  have hcut : pc.cutNext = some (w.cur, w.next) := congrArg Role.cutNext hr
  obtain ⟨hnone, hadj⟩ := h.next.forward.off _ _ ⟨pc, mem_of_getElem? hi, hcut⟩
  have hrole : pc.role.Plain pc'.role := by
    rw [hr, hr']
    exact ⟨⟨fun _ => rfl, fun _ => rfl, rfl, rfl, fun _ => rfl⟩, rfl, rfl, fun _ => rfl⟩
  rw [if_pos hnone]
  refine h.plain hi hrole rfl (h.next.mend h.nodup hi hcut (congrArg Role.cutNext hr'))
    (h.prev.same hi ?_ ?_ fun _ _ _ => rfl)
    (h.outside.setNext h.entriesOut h.nodup hi hrole.entry hadj _) hsteady
  · exact (congrArg Role.cutPrev hr').trans (congrArg Role.cutPrev hr).symm
  · exact (congrArg Role.pending hr').trans (congrArg Role.pending hr).symm

theorem settle (h : Inv s xs trail) (hi : s.threads[i]? = some pc) (hrole : pc.role.Plain pc'.role)
    (hpend : pc.pending = some (y, a, b)) (hpend' : pc'.pending = none)
    (hcn : pc'.cutNext = pc.cutNext) (hcp : pc'.cutPrev = pc.cutPrev)
    (hy : s.links.prev y = some a) (hsteady : Steady (s.threads.set i pc')) :
    Inv (s.moved i pc (s.links.setPrev y (some b)) pc') xs
      (Function.update trail y (trail y).tail) := by
  obtain ⟨⟨z, hz⟩, -⟩ := (h.prev.backward.steps _ _ _).mp ⟨pc, mem_of_getElem? hi, hpend⟩
  exact h.plain hi hrole rfl (h.next.same hi hcn fun _ _ _ => rfl)
    (h.prev.settle hi hcp hpend hpend' hy) (h.outside.setPrev h.entriesOut hi hrole.entry hz _)
    hsteady

theorem resize {r : Role} {z : ℤ} (h : Inv s xs trail) (hi : s.threads[i]? = some pc)
    (hr : pc.role = r) (hr' : pc'.role = .other) (hcn : r.cutNext = none) (hcp : r.cutPrev = none)
    (hpend : r.pending = none) (hentry : r.entry = none)
    (hcounted : Counted (s.moved i pc { s.links with size := z } pc') xs)
    (hsteady : Steady (s.threads.set i pc')) :
    Inv (s.moved i pc { s.links with size := z } pc') xs trail where
  nodup := h.nodup
  next := by
    refine h.next.same hi ?_ fun _ _ _ => rfl
    rw [Pc.cutNext, Pc.cutNext, hr, hr', hcn]
    rfl
  prev := by
    refine h.prev.same hi ?_ ?_ fun _ _ _ => rfl
    · rw [Pc.cutPrev, Pc.cutPrev, hr, hr', hcp]
      rfl
    · rw [Pc.pending, Pc.pending, hr, hr', hpend]
      rfl
  inserted := by
    refine has_insertion_set h.inserted fun w hw => ?_
    rw [Pc.insertion, hr'] at hw
    cases hw
  outside := by
    refine h.outside.same h.entriesOut hi ?_ (fun _ _ => ⟨rfl, rfl⟩) rfl rfl
    rw [Pc.entry, Pc.entry, hr, hr', hentry]
    rfl
  steady := hsteady
  counted := hcounted

theorem count (h : Inv s xs trail) (hi : s.threads[i]? = some pc) (hr : pc.role = .counting)
    (hr' : pc'.role = .other) (hsteady : Steady (s.threads.set i pc')) :
    Inv (s.moved i pc { s.links with size := s.links.size + 1 } pc') xs trail :=
  h.resize hi hr hr' rfl rfl rfl rfl (h.counted.count hi hr hr' rfl) hsteady

theorem uncount (h : Inv s xs trail) (hi : s.threads[i]? = some pc) (hr : pc.role = .left c)
    (hr' : pc'.role = .other) (hcur : pc.cur = some c) (hsteady : Steady (s.threads.set i pc')) :
    Inv (s.moved i pc { s.links with size := s.links.size - 1 } pc') xs trail := by
  obtain ⟨x, rfl⟩ := h.steady.cur pc (mem_of_getElem? hi) c hcur
  exact h.resize hi hr hr' rfl rfl rfl rfl (h.counted.uncount hi hr hr' rfl) hsteady

theorem insert (h : Inv s xs trail) (hi : s.threads[i]? = some pc)
    (hr : pc.role = .entering w.cur (some w.prev) (some w.next)) (hr' : pc'.role = .inserted w)
    (hnext : s.links.next w.prev = some w.next) (hsteady : Steady (s.threads.set i pc')) :
    ∃ ys trail', Inv (s.moved i pc (s.links.setNext w.prev (some w.cur)) pc') ys trail' := by
  have hpc := mem_of_getElem? hi
  have hentry : pc.entry = some (w.cur, some w.prev, some w.next) := congrArg Role.entry hr
  obtain ⟨x, hx, hxs⟩ := h.entriesOut _ _ _ ⟨pc, hpc, hentry⟩
  obtain ⟨hxp, hxn⟩ := h.outside.entry _ _ _ ⟨pc, hpc, hentry⟩
  have hstable := h.steady.holds pc hpc w.prev (Pc.holds_of_entry hentry)
  have hadj := h.adj_of_next hnext hstable.not_entry
  have hout : w.cur ∉ frame xs := by
    rw [hx]
    exact fun hmem => hxs (mem_frame hmem)
  have hxp' : w.cur ≠ w.prev := by
    intro heq
    exact hout (heq ▸ hadj.mem_left)
  -- no operation waits for a node that is being pushed
  have htrail : w.cur ∉ trail w.next := by
    intro hmem
    rcases h.prev.backward.mem_trail hadj hmem with heq | ⟨b, t, ht, hpend⟩
    · exact hxp' heq
    · exact (h.steady.holds t ht _ (Pc.holds_of_pending hpend)).2 pc hpc (congrArg Role.fresh hr)
  obtain ⟨ys, hys, hmem, hlen, hiff⟩ := frame_insert h.nodup hxs hadj
  rw [← hx] at hiff
  refine ⟨ys, Function.update (Function.update trail w.cur [w.prev]) w.next
    (trail w.next ++ [w.cur]), ?_⟩
  constructor
  case nodup => exact hys
  case next =>
    refine h.next.insert hi ?_ hnext hxn hxp' hiff
    exact (congrArg Role.cutNext hr').trans (congrArg Role.cutNext hr).symm
  case prev =>
    refine h.prev.insert h.nodup hi ?_ (congrArg Role.pending hr) (congrArg Role.pending hr') hadj
      hout hxp htrail hiff
    exact (congrArg Role.cutPrev hr').trans (congrArg Role.cutPrev hr).symm
  case inserted =>
    refine has_insertion_set (fun v hv => ?_) fun v hv => ?_
    · exact (hiff _ _).mpr (Or.inr (Or.inr ⟨hstable.not_inserted hv, h.inserted v hv⟩))
    · obtain rfl := Option.some.inj ((congrArg Role.insertion hr').symm.trans hv)
      exact (hiff _ _).mpr (Or.inr (Or.inl ⟨rfl, rfl⟩))
  case outside =>
    exact h.outside.insert h.entriesOut h.entryOwner h.nodup hi (hx ▸ hentry)
      (congrArg Role.entry hr') hadj hmem _
  case steady => exact hsteady
  case counted => exact h.counted.insert hi (hx ▸ hr) hr' hx hxs rfl hmem hlen

theorem erase (h : Inv s xs trail) (hi : s.threads[i]? = some pc) (hr : pc.role = .bothCut w)
    (hr' : pc'.role = .leaving w) (hcur : pc.cur = some w.cur) (hprev : w.prev ∈ pc.holds)
    (hholds : w.cur ∈ pc.holds) (hnext : s.links.next w.prev = some w.cur)
    (hsteady : Steady (s.threads.set i pc')) :
    ∃ ys trail', Inv (s.moved i pc (s.links.setNext w.prev (some w.next)) pc') ys trail' := by
  have hpc := mem_of_getElem? hi
  have hnd := frame_nodup h.nodup
  have hcutNext : pc.cutNext = some (w.cur, w.next) := congrArg Role.cutNext hr
  have hcutPrev : pc.cutPrev = some (w.cur, w.prev) := congrArg Role.cutPrev hr
  obtain ⟨x, hx⟩ := h.steady.cur pc hpc _ hcur
  have hstable := h.steady.holds pc hpc w.prev hprev
  have hstable' := h.steady.holds pc hpc w.cur hholds
  have hadj := h.adj_of_next hnext hstable.not_entry
  obtain ⟨hnone, hadj'⟩ := h.next.forward.off _ _ ⟨pc, hpc, hcutNext⟩
  obtain ⟨-, hnone', -⟩ := h.prev.backward.off _ _ ⟨pc, hpc, hcutPrev⟩
  have hmemx : x ∈ xs := mem_frame (hx ▸ hadj.mem_right)
  -- what `next` still waits for are nodes that have left, as its neighbour is not a new one
  have htrail : w.prev ∉ trail w.next := by
    intro hmem
    rcases h.prev.backward.mem_trail hadj' hmem with heq | ⟨b, t, ht, hpend⟩
    · exact hadj.ne hnd heq
    · rcases Pc.pending_cases hpend with ⟨v, hv, hvn⟩ | ⟨hleaves, htcur⟩
      · have hvadj := h.inserted v ⟨t, ht, hv⟩
        rw [hvn] at hvadj
        exact hstable'.not_inserted ⟨t, ht, hv⟩ (hvadj.unique_left hnd hadj')
      · obtain ⟨j, hj⟩ := h.steady.cur t ht _ htcur
        rw [hj] at hleaves
        exact h.notMem ht (Or.inr hleaves) (mem_frame (hj ▸ hadj.mem_left))
  obtain ⟨ys, hys, hmem, hlen, hiff⟩ := frame_erase h.nodup (hx ▸ hadj) (hx ▸ hadj')
  rw [← hx] at hiff
  refine ⟨ys, Function.update trail w.next (trail w.next ++ [w.prev]), ?_⟩
  constructor
  case nodup => exact hys
  case next => exact h.next.erase hi hcutNext (congrArg Role.cutNext hr') hnext hiff
  case prev =>
    exact h.prev.erase h.nodup hi hcutPrev (congrArg Role.cutPrev hr') (congrArg Role.pending hr)
      (congrArg Role.pending hr') hadj hadj' htrail hiff
  case inserted =>
    refine has_insertion_set (fun v hv => ?_) fun v hv => ?_
    · exact (hiff _ _).mpr (Or.inr ⟨hstable.not_inserted hv, hstable'.not_inserted hv,
        h.inserted v hv⟩)
    · rw [Pc.insertion, hr'] at hv
      cases hv
  case outside =>
    refine h.outside.erase h.entriesOut h.nodup hi ?_ (hx ▸ hadj) (hx ▸ hnone') (hx ▸ hnone) hmem _
    exact (congrArg Role.entry hr').trans (congrArg Role.entry hr).symm
  case steady => exact hsteady
  case counted => exact h.counted.erase hi hr hr' hx hmemx rfl hmem hlen

end Inv

structure Pc.Keeps (pc pc' : Pc) : Prop where
  fresh : ∀ x, pc'.fresh = some x → pc.fresh = some x
  holds : ∀ v ∈ pc'.holds, v ∈ pc.holds
  cur : ∀ c, pc'.cur = some c → pc.cur = some c

theorem Caller.role_retry (k : Caller) : (k.retry c).role = .other := by cases k <;> rfl

theorem Pc.keeps_retry {k : Caller} (hcur : pc.cur = some c) : pc.Keeps (k.retry c) := by
  cases k with
  | remove =>
    refine ⟨?_, ?_, fun _ h => hcur.trans h⟩
    · rintro x ⟨⟩
    · rintro v ⟨⟩
  | pop e =>
    refine ⟨?_, ?_, ?_⟩
    · rintro x ⟨⟩
    · rintro v ⟨⟩
    · rintro c ⟨⟩

namespace Inv

theorem steady_set (h : Inv s xs trail) (hi : s.threads[i]? = some pc)
    (hfresh : ∀ x, pc'.fresh = some x → pc.fresh = some x)
    (hholds : ∀ v ∈ pc'.holds, v ∈ pc.holds ∨ Stable s.threads v)
    (hcur : ∀ c, pc'.cur = some c → pc.cur = some c ∨ ∃ j, c = .node j) :
    Steady (s.threads.set i pc') := by
  have hpc := mem_of_getElem? hi
  refine h.steady.set hi (fun x hx => Or.inl (hfresh x hx)) (fun v hv => ?_) fun c hc => ?_
  · have hstable : Stable s.threads v := (hholds v hv).elim (h.steady.holds pc hpc v) id
    exact hstable.set hi fun x hx => Or.inl (hfresh x hx)
  · exact (hcur c hc).elim (h.steady.cur pc hpc c) id

theorem keep (h : Inv s xs trail) (hi : s.threads[i]? = some pc) (hk : pc.Keeps pc') :
    Steady (s.threads.set i pc') :=
  h.steady_set hi hk.fresh (fun v hv => Or.inl (hk.holds v hv)) fun c hc => Or.inl (hk.cur c hc)

theorem stable_header (h : Inv s xs trail) : Stable s.threads .header := by
  refine ⟨by simp, fun t ht hfresh => ?_⟩
  have hcur : t.cur = some .header := by
    cases t <;> simp_all [Pc.fresh, Pc.role, Role.fresh, Pc.cur]
  obtain ⟨j, hj⟩ := h.steady.cur t ht _ hcur
  cases hj

theorem node_of_outer (h : Inv s xs trail) {e : End} (hc : e.outer s.links = some c)
    (hne : c ≠ e.other) : ∃ j, c = .node j := by
  cases e with
  | front =>
    have hadj := h.adj_of_next hc h.stable_header.not_entry
    rcases mem_frame_iff.mp hadj.mem_right with rfl | rfl | ⟨j, -, rfl⟩
    · exact absurd rfl (ne_header_of_adj hadj)
    · exact absurd rfl hne
    · exact ⟨j, rfl⟩
  | back =>
    cases c with
    | header => exact absurd rfl hne
    | tail => exact absurd rfl (h.stable_of_prev hc).1
    | node j => exact ⟨j, rfl⟩

end Inv

end SofaBolt.IntrusiveList
