import SofaBolt.IntrusiveListRuns

namespace SofaBolt.IntrusiveList

open Adjacent LaggingLinks Run

structure Watch where
  state : State
  misled : NodePtr → Bool

namespace Watch

def init (n : ℕ) : Watch := ⟨.init n, fun _ => false⟩

def misledAfter (l : Links) (misled : NodePtr → Bool) : Pc → NodePtr → Bool
  | .loadPrev cur => if l.prev cur = none then Function.update misled cur true else misled
  | .loadNext cur _ => if l.next cur = none then Function.update misled cur true else misled
  | .rs3 _ w => if l.prev w.cur = some w.prev then Function.update misled w.cur false else misled
  | _ => misled

def step (s : Watch) : Act → Option Watch
  | .start t op => (s.state.step (.start t op)).map fun s' => ⟨s', s.misled⟩
  | .access t => (s.state.threads[t]?).bind fun pc => (s.state.step (.access t)).map fun s' =>
    ⟨s', misledAfter s.state.links s.misled pc⟩

end Watch

def Pc.rollsBack : Pc → Option NodePtr
  | .undo4 _ w | .undo5Prev _ w | .undo5Next _ w => some w.cur
  | _ => none

def Pc.removes : Pc → Option NodePtr
  | .rs4 _ w | .rs5 _ w => some w.cur
  | _ => none

def Pc.compares : Pc → List (NodePtr × NodePtr)
  | .rs4 _ w => [(w.cur, w.next), (w.prev, w.cur)]
  | .rs5 _ w => [(w.prev, w.cur)]
  | _ => []

def Pc.OnCourse (l : Links) (pc : Pc) : Prop := ∀ e ∈ pc.compares, l.next e.1 = some e.2

instance (l : Links) (pc : Pc) : Decidable (pc.OnCourse l) := List.decidableBAll ..

def Pc.changes (l : Links) : Pc → Option NodePtr
  | .is2 _ w => if l.next w.prev = some w.next then some w.prev else none
  | .rs4 _ w => if l.next w.cur = some w.next then some w.cur else none
  | .rs5 _ w => if l.next w.prev = some w.cur then some w.prev else none
  | _ => none

/-- A null link of a node is loaded only while its removal, if there is one, is on course. -/
def Pc.Sincere (s : Watch) : Pc → Prop
  | .loadPrev cur => s.state.links.prev cur = none → ∀ u ∈ s.state.threads,
      u.rollsBack ≠ some cur ∧ (u.removes = some cur → u.OnCourse s.state.links)
  | .loadNext cur _ => s.state.links.next cur = none → ∀ u ∈ s.state.threads,
      u.rollsBack ≠ some cur ∧ (u.removes = some cur → u.OnCourse s.state.links)
  | _ => True

instance decidableSincere (s : Watch) : (pc : Pc) → Decidable (pc.Sincere s) := by
  intro pc
  cases pc <;> unfold Pc.Sincere <;> infer_instance

/-- No link is changed that the removal of another thread is to compare, if a `remove` has been
misled about its node. -/
def Spares (s : Watch) (t : ℕ) (pc : Pc) : Prop :=
  ∀ u < s.state.threads.length, u ≠ t → ∀ v ∈ s.state.threads[u]?, ∀ c ∈ v.removes,
    s.misled c = true → ∀ e ∈ v.compares, pc.changes s.state.links ≠ some e.1

instance (s : Watch) (t : ℕ) (pc : Pc) : Decidable (Spares s t pc) :=
  inferInstanceAs (Decidable (∀ u < s.state.threads.length, u ≠ t → ∀ v ∈ s.state.threads[u]?,
    ∀ c ∈ v.removes, s.misled c = true → ∀ e ∈ v.compares, pc.changes s.state.links ≠ some e.1))

def Truthful (s : Watch) : Act → Prop
  | .start t op => Reusable s.state (.start t op)
  | .access t => ∀ pc ∈ s.state.threads[t]?, pc.Sincere s ∧ Spares s t pc

instance decidableTruthful (s : Watch) : (a : Act) → Decidable (Truthful s a)
  | .start t op => decidableReusable s.state (.start t op)
  | .access t =>
    inferInstanceAs (Decidable (∀ pc ∈ s.state.threads[t]?, pc.Sincere s ∧ Spares s t pc))

variable {s s' : Watch} {a : Act} {t u i : ℕ} {pc pc' : Pc} {c p v : NodePtr} {k : Caller}
  {w : Window} {l l' : Links} {op : Op}

namespace Watch

theorem step_access (h : s.step (.access t) = some s') :
    ∃ pc l' pc', s.state.threads[t]? = some pc ∧ listStep s.state.links pc = some (l', pc') ∧
      s' = ⟨s.state.moved t pc l' pc', misledAfter s.state.links s.misled pc⟩ := by
  obtain ⟨pc, hpc, h⟩ := Option.bind_eq_some_iff.mp h
  obtain ⟨s₁, hs₁, rfl⟩ := Option.map_eq_some_iff.mp h
  obtain ⟨pc₁, hpc₁, hs₁⟩ := Option.bind_eq_some_iff.mp hs₁
  obtain ⟨⟨l', pc'⟩, hl, rfl⟩ := Option.map_eq_some_iff.mp hs₁
  obtain rfl := Option.some.inj (hpc.symm.trans hpc₁)
  exact ⟨pc, l', pc', hpc, hl, rfl⟩

theorem step_start (h : s.step (.start t op) = some s') :
    ∃ pc, s.state.threads[t]? = some pc ∧ pc.quiet = true ∧
      s'.state.threads = s.state.threads.set t op.start ∧ s'.state.links = s.state.links ∧
      s'.misled = s.misled := by
  obtain ⟨s₁, hs₁, rfl⟩ := Option.map_eq_some_iff.mp h
  obtain ⟨pc, hpc, hs₁⟩ := Option.bind_eq_some_iff.mp hs₁
  split at hs₁
  · rename_i hquiet
    refine ⟨pc, hpc, hquiet, ?_⟩
    unfold State.start at hs₁
    split at hs₁
    · obtain rfl := Option.some.inj hs₁
      exact ⟨rfl, rfl, rfl⟩
    · split at hs₁
      · obtain rfl := Option.some.inj hs₁
        exact ⟨rfl, rfl, rfl⟩
      · cases hs₁
  · cases hs₁

theorem sound_step (hs : s.state.Sound) (ha : Truthful s a) (h : s.step a = some s') :
    s'.state.Sound := by
  cases a with
  | start t op =>
    obtain ⟨s₁, hs₁, rfl⟩ := Option.map_eq_some_iff.mp h
    exact hs.step (a := .start t op) ha hs₁
  | access t =>
    obtain ⟨pc, -, h⟩ := Option.bind_eq_some_iff.mp h
    obtain ⟨s₁, hs₁, rfl⟩ := Option.map_eq_some_iff.mp h
    exact hs.step (a := .access t) trivial hs₁

end Watch

def Removing (s : Watch) (u : ℕ) (k : Caller) (w : Window) : Prop :=
  s.state.threads[u]? = some (.rs4 k w) ∨ s.state.threads[u]? = some (.rs5 k w)

def TakesOut (s : Watch) (u : ℕ) (k : Caller) (w : Window) : Prop :=
  s.state.threads[u]? = some (.rs5 k w) ∧ s.state.links.next w.prev = some w.cur

theorem Removing.cutPrev (h : Removing s u k w) :
    Has Pc.cutPrev s.state.threads (w.cur, w.prev) := by
  rcases h with h | h
  · exact ⟨_, mem_of_getElem? h, rfl⟩
  · exact ⟨_, mem_of_getElem? h, rfl⟩

theorem Removing.prev_eq_none (h : Removing s u k w) (hs : s.state.Sound) :
    s.state.links.prev w.cur = none := by
  obtain ⟨xs, trail, hinv⟩ := hs
  exact (hinv.prev.backward.off _ _ h.cutPrev).2.1

/-- A `remove` that has been misled stays so while the link is off. -/
theorem misledAfter_of_prev_none (pc : Pc) (hm : s.misled c = true)
    (hprev : s.state.links.prev c = none) :
    Watch.misledAfter s.state.links s.misled pc c = true := by
  have hset : ∀ {y}, Function.update s.misled y true c = true := by
    intro y
    rw [Function.update_apply]
    split
    · rfl
    · exact hm
  cases pc with
  | loadPrev cur =>
    rw [Watch.misledAfter]
    split
    · exact hset
    · exact hm
  | loadNext cur q =>
    rw [Watch.misledAfter]
    split
    · exact hset
    · exact hm
  | rs3 k w =>
    rw [Watch.misledAfter]
    split
    · rename_i hcur
      have hne : c ≠ w.cur := by
        rintro rfl
        rw [hprev] at hcur
        cases hcur
      rw [Function.update_of_ne hne]
      exact hm
    · exact hm
  | _ => exact hm

/-- A link that is set stays, if the access is not one that changes it and its node is not being
pushed. -/
theorem next_of_listStep {p q : NodePtr} (hl : listStep l pc = some (l', pc'))
    (hp : l.next p = some q) (hc : pc.changes l ≠ some p) (hf : pc.fresh ≠ some p) :
    l'.next p = some q := by
  have hset : ∀ {y v}, y ≠ p → (l.setNext y v).next p = some q := fun hne =>
    (Function.update_of_ne hne.symm _ _).trans hp
  cases pc with
  | linkNext e w =>
    obtain ⟨rfl, -⟩ := Prod.mk.inj (Option.some.inj hl)
    exact hset fun heq => hf (congrArg some heq)
  | undoNext e w =>
    obtain ⟨rfl, -⟩ := Prod.mk.inj (Option.some.inj hl)
    split
    · exact hset fun heq => hf (congrArg some heq)
    · exact hp
  | undo5Next k w =>
    obtain ⟨rfl, -⟩ := Prod.mk.inj (Option.some.inj hl)
    split
    · rename_i hnone
      refine hset ?_
      rintro rfl
      rw [hnone] at hp
      cases hp
    · exact hp
  | is2 e w | rs4 k w | rs5 k w =>
    rw [listStep] at hl
    rw [Pc.changes] at hc
    split at hl
    · rename_i heq
      rw [if_pos heq] at hc
      obtain ⟨rfl, -⟩ := Prod.mk.inj (Option.some.inj hl)
      exact hset fun heq => hc (congrArg some heq)
    · obtain ⟨rfl, -⟩ := Prod.mk.inj (Option.some.inj hl)
      exact hp
  | linkPrev e w | is3 w | rs3 k w | rs6 k w =>
    rw [listStep] at hl
    split at hl
    all_goals
      obtain ⟨rfl, -⟩ := Prod.mk.inj (Option.some.inj hl)
      exact hp
  | undoPrev e w | undo4 k w | undo5Prev k w =>
    obtain ⟨rfl, -⟩ := Prod.mk.inj (Option.some.inj hl)
    split <;> exact hp
  | loadEnd e cur | loadCur e =>
    obtain ⟨_, -, hl⟩ := Option.map_eq_some_iff.mp hl
    obtain ⟨rfl, -⟩ := Prod.mk.inj hl
    exact hp
  | loadSide e cur | loadNext cur prev =>
    unfold listStep at hl
    dsimp only at hl
    split at hl
    all_goals
      obtain ⟨rfl, -⟩ := Prod.mk.inj (Option.some.inj hl)
      exact hp
  | idle => cases hl
  | returned r => cases hl
  | _ =>
    obtain ⟨rfl, -⟩ := Prod.mk.inj (Option.some.inj hl)
    exact hp

theorem Pc.holds_of_compares {e : NodePtr × NodePtr} (h : e ∈ pc.compares) : e.1 ∈ pc.holds := by
  cases pc with
  | rs4 k w =>
    rcases List.mem_pair.mp h with rfl | rfl
    · exact List.mem_cons_of_mem _ List.mem_cons_self
    · exact List.mem_cons_self
  | rs5 k w =>
    rw [List.mem_singleton.mp h]
    exact List.mem_cons_self
  | _ => cases h

structure Committed (s : Watch) (u : ℕ) (k : Caller) (w : Window) : Prop where
  removing : Removing s u k w
  misled : s.misled w.cur = true
  onCourse : ∀ pc, s.state.threads[u]? = some pc → pc.OnCourse s.state.links

theorem Removing.next_ne_cur (h : Removing s u k w) (hs : s.state.Sound) :
    s.state.links.next w.cur ≠ some w.cur := by
  intro hself
  obtain ⟨xs, trail, hinv⟩ := hs
  obtain ⟨a, ha⟩ := (hinv.prev.backward.off _ _ h.cutPrev).1
  have htail : w.cur ≠ .tail := fun heq => by
    rw [heq, hinv.outside.tail] at hself
    cases hself
  obtain ⟨b, hb⟩ := exists_next ha.mem_right htail
  exact hb.ne (frame_nodup hinv.nodup) (hinv.next.forward.eq_of_next hb hself)

/-- A removal that a `remove` has been misled about is not rolled back. -/
theorem Committed.step (h : Committed s u k w) (hs : s.state.Sound)
    (ha : Truthful s a) (hstep : s.step a = some s') :
    Committed s' u k w ∨ a = .access u ∧ TakesOut s u k w := by
  have hprev := h.removing.prev_eq_none hs
  cases a with
  | start t op =>
    obtain ⟨pc, hpc, hquiet, hthreads, hlinks, hmisled⟩ := Watch.step_start hstep
    have hne : t ≠ u := by
      rintro rfl
      rcases h.removing with h | h
      all_goals
        obtain rfl := Option.some.inj (hpc.symm.trans h)
        cases hquiet
    refine Or.inl ⟨?_, hmisled ▸ h.misled, ?_⟩
    · rw [Removing, hthreads, List.getElem?_set_ne hne]
      exact h.removing
    · rw [hthreads, List.getElem?_set_ne hne, hlinks]
      exact h.onCourse
  | access t =>
    obtain ⟨pc, l', pc', hpc, hl, rfl⟩ := Watch.step_access hstep
    by_cases htu : t = u
    · subst htu
      have hlt := (List.getElem?_eq_some_iff.mp hpc).1
      have hcourse := h.onCourse pc hpc
      rcases h.removing with hrem | hrem
      · obtain rfl := Option.some.inj (hrem.symm.trans hpc)
        have hnext := hcourse (w.cur, w.next) List.mem_cons_self
        have hback := hcourse (w.prev, w.cur) (List.mem_cons_of_mem _ List.mem_cons_self)
        have hne : w.prev ≠ w.cur := fun heq => h.removing.next_ne_cur hs (heq ▸ hback)
        rw [listStep, if_pos hnext] at hl
        obtain ⟨rfl, rfl⟩ := Prod.mk.inj (Option.some.inj hl)
        refine Or.inl ⟨Or.inr (List.getElem?_set_self hlt), h.misled, fun pc hpc' => ?_⟩
        rw [State.moved, List.getElem?_set_self hlt] at hpc'
        obtain rfl := Option.some.inj hpc'
        intro e he
        rw [List.mem_singleton.mp he]
        exact (Function.update_of_ne hne _ _).trans hback
      · obtain rfl := Option.some.inj (hrem.symm.trans hpc)
        exact Or.inr ⟨rfl, hrem, hcourse (w.prev, w.cur) List.mem_cons_self⟩
    · -- another thread leaves the links alone
      refine Or.inl ⟨?_, misledAfter_of_prev_none pc h.misled hprev, fun v hv e he => ?_⟩
      · rw [Removing, State.moved, List.getElem?_set_ne htu]
        exact h.removing
      · rw [State.moved, List.getElem?_set_ne htu] at hv
        have hlt := (List.getElem?_eq_some_iff.mp hv).1
        have hv' : v = .rs4 k w ∨ v = .rs5 k w :=
          h.removing.imp (fun h => Option.some.inj (hv.symm.trans h))
            fun h => Option.some.inj (hv.symm.trans h)
        have hremoves : v.removes = some w.cur := by rcases hv' with rfl | rfl <;> rfl
        obtain ⟨xs, trail, hinv⟩ := hs
        have hfresh := (hinv.steady.holds v (mem_of_getElem? hv) _ (Pc.holds_of_compares he)).2 pc
          (mem_of_getElem? hpc)
        exact next_of_listStep hl (h.onCourse v hv e he)
          ((ha pc hpc).2 u hlt (Ne.symm htu) v hv _ hremoves h.misled e he) hfresh

/-- Whatever the threads do, the removal is still in progress, or has taken the node out. -/
theorem Committed.run {cs : List Act} (h : Committed s u k w) (hs : s.state.Sound)
    (hrun : run Watch.step s cs = some s') (hcs : Meets Watch.step Truthful s cs) :
    Removing s' u k w ∨ ∃ cs₁ cs₂ s₁, cs = cs₁ ++ .access u :: cs₂ ∧
      Run.run Watch.step s cs₁ = some s₁ ∧ TakesOut s₁ u k w := by
  induction cs generalizing s with
  | nil =>
    obtain rfl := Option.some.inj hrun
    exact Or.inl h.removing
  | cons a cs ih =>
    obtain ⟨s₁, hstep, hrun⟩ := run_cons hrun
    rcases h.step hs hcs.1 hstep with h₁ | ⟨rfl, htakes⟩
    · rcases ih h₁ (Watch.sound_step hs hcs.1 hstep) hrun (hcs.2 s₁ hstep) with
        hleft | ⟨cs₁, cs₂, s₂, rfl, hr, htakes⟩
      · exact Or.inl hleft
      · refine Or.inr ⟨a :: cs₁, cs₂, s₂, rfl, ?_, htakes⟩
        rw [Run.run, hstep]
        exact hr
    · exact Or.inr ⟨[], cs, s, rfl, rfl, htakes⟩

theorem Pc.cutPrev_cases (h : pc.cutPrev = some (c, v)) :
    (∃ k w, w.cur = c ∧ (pc = .rs4 k w ∨ pc = .rs5 k w)) ∨ pc.rollsBack = some c := by
  cases pc <;> simp_all [Pc.cutPrev, Pc.role, Role.cutPrev, Pc.rollsBack]

theorem Pc.cutNext_cases (h : pc.cutNext = some (c, v)) :
    (∃ k w, w.cur = c ∧ (pc = .rs4 k w ∨ pc = .rs5 k w)) ∨ pc.rollsBack = some c := by
  cases pc <;> simp_all [Pc.cutNext, Pc.role, Role.cutNext, Pc.rollsBack]

theorem removing_of_cut (h : pc ∈ s.state.threads)
    (hcut : (∃ k w, w.cur = c ∧ (pc = .rs4 k w ∨ pc = .rs5 k w)) ∨ pc.rollsBack = some c)
    (hback : ∀ u ∈ s.state.threads, u.rollsBack ≠ some c) :
    ∃ u k w, w.cur = c ∧ Removing s u k w := by
  obtain ⟨k, w, hw, hpc⟩ := hcut.resolve_right (hback pc h)
  obtain ⟨u, hu⟩ := List.mem_iff_getElem?.mp h
  refine ⟨u, k, w, hw, ?_⟩
  rcases hpc with rfl | rfl
  · exact Or.inl hu
  · exact Or.inr hu

theorem removing_of_prev (hs : s.state.Sound) (hlinked : s.state.linked (.node i) = true)
    (hnull : s.state.links.prev (.node i) = none)
    (hback : ∀ u ∈ s.state.threads, u.rollsBack ≠ some (.node i)) :
    ∃ u k w, w.cur = .node i ∧ Removing s u k w := by
  obtain ⟨xs, trail, hinv⟩ := hs
  have hi : NodePtr.node i ∈ frame xs :=
    mem_frame_iff.mpr (Or.inr (Or.inr ⟨i, (hinv.counted.linked i).mpr hlinked, rfl⟩))
  obtain ⟨a, ha⟩ := exists_prev hi (by simp)
  rcases hinv.prev.backward.link a _ ha with hb | ⟨-, v, pc, hpc, hcut⟩
  · have hnil : trail (.node i) = [] := List.head?_eq_none_iff.mp (hb.symm.trans hnull)
    have hlast := hinv.prev.backward.last a _ ha
    rw [hnil] at hlast
    cases hlast
  · exact removing_of_cut hpc (Pc.cutPrev_cases hcut) hback

theorem removing_of_next (hs : s.state.Sound) (hlinked : s.state.linked (.node i) = true)
    (hnull : s.state.links.next (.node i) = none)
    (hback : ∀ u ∈ s.state.threads, u.rollsBack ≠ some (.node i)) :
    ∃ u k w, w.cur = .node i ∧ Removing s u k w := by
  obtain ⟨xs, trail, hinv⟩ := hs
  have hi : NodePtr.node i ∈ frame xs :=
    mem_frame_iff.mpr (Or.inr (Or.inr ⟨i, (hinv.counted.linked i).mpr hlinked, rfl⟩))
  obtain ⟨b, hb⟩ := exists_next hi (by simp)
  rcases hinv.next.forward.link _ b hb with hsome | ⟨-, pc, hpc, hcut⟩
  · rw [hnull] at hsome
    cases hsome
  · exact removing_of_cut hpc (Pc.cutNext_cases hcut) hback

def Pc.OfRemove (p : NodePtr) : Pc → Prop
  | .loadPrev cur | .loadNext cur _ | .subSize .remove cur => cur = p
  | .rs1 .remove w | .rs2 .remove w | .rs3 .remove w | .rs4 .remove w | .undo4 .remove w
  | .rs5 .remove w | .undo5Prev .remove w | .undo5Next .remove w | .rs6 .remove w => w.cur = p
  | .returned _ => True
  | _ => False

/-- A `remove` goes on with its node; only the load of a null `prev` leads to a `loadNext` that
gives up, and only `loadNext` gives up. -/
theorem Pc.OfRemove.listStep (h : pc.OfRemove p) (hl : listStep l pc = some (l', pc')) :
    pc'.OfRemove p ∧ (pc' = .loadNext p none → pc = .loadPrev p ∧ l.prev p = none) ∧
      (pc' = .returned (.removed false) → ∃ q, pc = .loadNext p q) := by
  cases pc with
  | loadPrev cur =>
    obtain ⟨-, rfl⟩ := Prod.mk.inj (Option.some.inj hl)
    obtain rfl : cur = p := h
    refine ⟨rfl, fun heq => ⟨rfl, ?_⟩, by rintro ⟨⟩⟩
    injection heq
  | loadNext cur q =>
    obtain rfl : cur = p := h
    unfold IntrusiveList.listStep at hl
    dsimp only at hl
    split at hl
    · obtain ⟨-, rfl⟩ := Prod.mk.inj (Option.some.inj hl)
      exact ⟨rfl, by rintro ⟨⟩, by rintro ⟨⟩⟩
    · obtain ⟨-, rfl⟩ := Prod.mk.inj (Option.some.inj hl)
      exact ⟨trivial, by rintro ⟨⟩, fun _ => ⟨_, rfl⟩⟩
  | subSize k cur =>
    cases k with
    | pop e => cases h
    | remove =>
      obtain ⟨-, rfl⟩ := Prod.mk.inj (Option.some.inj hl)
      exact ⟨trivial, by rintro ⟨⟩, by rintro ⟨⟩⟩
  | returned r => cases hl
  | rs1 k w | rs2 k w =>
    cases k with
    | pop e => cases h
    | remove =>
      obtain ⟨-, rfl⟩ := Prod.mk.inj (Option.some.inj hl)
      split <;> exact ⟨h, by rintro ⟨⟩, by rintro ⟨⟩⟩
  | rs3 k w | rs4 k w | rs5 k w | rs6 k w =>
    cases k with
    | pop e => cases h
    | remove =>
      rw [IntrusiveList.listStep] at hl
      split at hl
      all_goals
        obtain ⟨-, rfl⟩ := Prod.mk.inj (Option.some.inj hl)
        exact ⟨h, by rintro ⟨⟩, by rintro ⟨⟩⟩
  | undo4 k w | undo5Prev k w | undo5Next k w =>
    cases k with
    | pop e => cases h
    | remove =>
      obtain ⟨-, rfl⟩ := Prod.mk.inj (Option.some.inj hl)
      exact ⟨h, by rintro ⟨⟩, by rintro ⟨⟩⟩
  | _ => cases h

theorem Removing.committed (h : Removing s u k w) (hut : u ≠ t) {misled : NodePtr → Bool}
    (hm : misled w.cur = true)
    (hcourse : ∀ v ∈ s.state.threads, v.removes = some w.cur → v.OnCourse s.state.links) :
    Committed ⟨s.state.moved t pc s.state.links pc', misled⟩ u k w := by
  refine ⟨?_, hm, fun v hv => ?_⟩
  · rw [Removing, State.moved, List.getElem?_set_ne hut.symm]
    exact h
  · rw [State.moved, List.getElem?_set_ne hut.symm] at hv
    refine hcourse v (mem_of_getElem? hv) ?_
    rcases h with h | h
    all_goals
      obtain rfl := Option.some.inj (h.symm.trans hv)
      rfl

/-- The thread is in its `remove`; if it has loaded a null `prev`, another one is removing. -/
def InCall (s : Watch) (t i : ℕ) : Prop :=
  ∃ pc, s.state.threads[t]? = some pc ∧ pc.OfRemove (.node i) ∧
    (pc = .loadNext (.node i) none →
      ∃ u k w, u ≠ t ∧ w.cur = .node i ∧ Committed s u k w)

theorem linked_of_takesOut (h : TakesOut s u k w) (hstep : s.step (.access u) = some s') :
    s'.state.linked w.cur = false := by
  obtain ⟨pc, l', pc', hpc, hl, rfl⟩ := Watch.step_access hstep
  obtain rfl := Option.some.inj (h.1.symm.trans hpc)
  rw [listStep, if_pos h.2] at hl
  obtain ⟨rfl, rfl⟩ := Prod.mk.inj (Option.some.inj hl)
  exact Function.update_self ..

def Act.starts : Act → Option ℕ
  | .start t _ => some t
  | .access _ => none

theorem Removing.ne (h : Removing s u k w) (hpc : s.state.threads[t]? = some pc)
    (hne : pc.cutPrev = none) : u ≠ t := by
  rintro rfl
  rcases h with h | h
  all_goals
    obtain rfl := Option.some.inj (h.symm.trans hpc)
    cases hne

theorem InCall.step (h : InCall s t i) (hs : s.state.Sound)
    (hlinked : s.state.linked (.node i) = true) (ha : Truthful s a) (hstarts : a.starts ≠ some t)
    (hstep : s.step a = some s') : InCall s' t i ∨ s'.state.linked (.node i) = false := by
  obtain ⟨pc, hpc, hof, hnull⟩ := h
  -- what happens to a removal that the call relies on
  have hkeep : s'.state.threads[t]? = some pc →
      InCall s' t i ∨ s'.state.linked (.node i) = false := by
    intro hpc'
    by_cases hloaded : pc = .loadNext (.node i) none
    · obtain ⟨u, k, w, hut, hw, hc⟩ := hnull hloaded
      rcases hc.step hs ha hstep with hc' | ⟨rfl, htakes⟩
      · exact Or.inl ⟨pc, hpc', hof, fun _ => ⟨u, k, w, hut, hw, hc'⟩⟩
      · exact Or.inr (hw ▸ linked_of_takesOut htakes hstep)
    · exact Or.inl ⟨pc, hpc', hof, fun heq => absurd heq hloaded⟩
  cases a with
  | start t' op =>
    obtain ⟨-, -, -, hthreads, -⟩ := Watch.step_start hstep
    have hne : t' ≠ t := fun heq => hstarts (congrArg some heq)
    exact hkeep (by rw [hthreads, List.getElem?_set_ne hne, hpc])
  | access t' =>
    obtain ⟨pc₁, l', pc', hpc₁, hl, rfl⟩ := Watch.step_access hstep
    by_cases htt : t' = t
    · subst htt
      obtain rfl := Option.some.inj (hpc.symm.trans hpc₁)
      obtain ⟨hof', hnone, -⟩ := hof.listStep hl
      have hlt := (List.getElem?_eq_some_iff.mp hpc).1
      refine Or.inl ⟨pc', List.getElem?_set_self hlt, hof', fun heq => ?_⟩
      obtain ⟨rfl, hprev⟩ := hnone heq
      obtain ⟨rfl, -⟩ := Prod.mk.inj (Option.some.inj hl)
      have hsincere := (ha _ hpc).1 hprev
      obtain ⟨u, k, w, hw, hrem⟩ :=
        removing_of_prev hs hlinked hprev fun v hv => (hsincere v hv).1
      have hut := hrem.ne hpc rfl
      refine ⟨u, k, w, hut, hw, hrem.committed hut ?_ fun v hv h => (hsincere v hv).2 (hw ▸ h)⟩
      rw [hw]
      simp only [Watch.misledAfter, hprev, if_true]
      exact Function.update_self ..
    · exact hkeep (by rw [State.moved, List.getElem?_set_ne htt, hpc])

/-- During the call the node has been out of the list, or the call is where it says. -/
theorem InCall.run {bs : List Act} (h : InCall s t i) (hs : s.state.Sound)
    (hbs : ∀ a ∈ bs, a.starts ≠ some t) (hr : run Watch.step s bs = some s')
    (hm : Meets Watch.step Truthful s bs) :
    (∃ bs₁ bs₂ s₁, bs = bs₁ ++ bs₂ ∧ Run.run Watch.step s bs₁ = some s₁ ∧
      s₁.state.linked (.node i) = false) ∨ InCall s' t i ∧ s'.state.Sound := by
  induction bs generalizing s with
  | nil =>
    obtain rfl := Option.some.inj hr
    exact Or.inr ⟨h, hs⟩
  | cons a bs ih =>
    obtain ⟨s₁, hstep, hr⟩ := run_cons hr
    by_cases hlinked : s.state.linked (.node i) = true
    · rcases h.step hs hlinked hm.1 (hbs a (List.mem_cons_self ..)) hstep with h₁ | hout
      · rcases ih h₁ (Watch.sound_step hs hm.1 hstep)
          (fun b hb => hbs b (List.mem_cons_of_mem _ hb)) hr (hm.2 s₁ hstep) with
          ⟨bs₁, bs₂, s₂, rfl, hr₂, hout⟩ | hcall
        · refine Or.inl ⟨a :: bs₁, bs₂, s₂, rfl, ?_, hout⟩
          rw [Run.run, hstep]
          exact hr₂
        · exact Or.inr hcall
      · refine Or.inl ⟨[a], bs, s₁, rfl, ?_, hout⟩
        rw [Run.run, hstep]
        rfl
    · exact Or.inl ⟨[], a :: bs, s, rfl, rfl, by simpa using hlinked⟩

theorem InCall.gives_up (h : InCall s t i) (hs : s.state.Sound) (ha : Truthful s (.access t))
    (hstep : s.step (.access t) = some s')
    (hfalse : s'.state.threads[t]? = some (.returned (.removed false))) :
    s.state.linked (.node i) = false ∨
      ∃ u k w, u ≠ t ∧ w.cur = .node i ∧ Committed s' u k w := by
  obtain ⟨pc, hpc, hof, hnull⟩ := h
  obtain ⟨pc₁, l', pc', hpc₁, hl, rfl⟩ := Watch.step_access hstep
  obtain rfl := Option.some.inj (hpc.symm.trans hpc₁)
  have hlt := (List.getElem?_eq_some_iff.mp hpc).1
  obtain rfl : pc' = .returned (.removed false) := by
    rw [State.moved, List.getElem?_set_self hlt] at hfalse
    exact Option.some.inj hfalse
  obtain ⟨q, rfl⟩ := (hof.listStep hl).2.2 rfl
  by_cases hlinked : s.state.linked (.node i) = true
  · refine Or.inr ?_
    cases q with
    | none =>
      obtain ⟨u, k, w, hut, hw, hc⟩ := hnull rfl
      rcases hc.step hs ha hstep with hc' | ⟨hact, -⟩
      · exact ⟨u, k, w, hut, hw, hc'⟩
      · exact absurd (Act.access.inj hact).symm hut
    | some q =>
      obtain ⟨rfl, hnext⟩ : l' = s.state.links ∧ s.state.links.next (.node i) = none := by
        cases hn : s.state.links.next (.node i) with
        | none =>
          simp only [listStep, hn] at hl
          exact ⟨(Prod.mk.inj (Option.some.inj hl)).1.symm, rfl⟩
        | some b =>
          simp only [listStep, hn] at hl
          cases hl
      have hsincere := (ha _ hpc).1 hnext
      obtain ⟨u, k, w, hw, hrem⟩ :=
        removing_of_next hs hlinked hnext fun v hv => (hsincere v hv).1
      have hut := hrem.ne hpc rfl
      refine ⟨u, k, w, hut, hw, hrem.committed hut ?_ fun v hv h => (hsincere v hv).2 (hw ▸ h)⟩
      rw [hw]
      simp only [Watch.misledAfter, hnext, if_true]
      exact Function.update_self ..
  · exact Or.inl (by simpa using hlinked)

theorem Watch.sound_run {n : ℕ} {as : List Act} (hr : run Watch.step (Watch.init n) as = some s)
    (hm : Meets Watch.step Truthful (Watch.init n) as) : s.state.Sound :=
  run_induction (fun _ _ _ hs ha hstep => Watch.sound_step hs ha hstep) (sound_init n) hm hr

/-- When a `remove` returns false, its node has been out of the list during the call, or
another operation is removing it at that moment and does not stop before it has taken it
out. -/
theorem remove_answers_truthfully {n : ℕ} {as bs : List Act} {s₁ s₂ : Watch}
    (hr₁ : run Watch.step (Watch.init n) (as ++ [.start t (.remove i)]) = some s₁)
    (hr₂ : run Watch.step s₁ (bs ++ [.access t]) = some s₂)
    (hbs : ∀ a ∈ bs, a.starts ≠ some t)
    (hfalse : s₂.state.threads[t]? = some (.returned (.removed false)))
    (hm₁ : Meets Watch.step Truthful (Watch.init n) (as ++ [.start t (.remove i)]))
    (hm₂ : Meets Watch.step Truthful s₁ (bs ++ [.access t])) :
    (∃ bs₁ bs₂ s, bs = bs₁ ++ bs₂ ∧ run Watch.step s₁ bs₁ = some s ∧
      s.state.linked (.node i) = false) ∨
    ∃ u k w, u ≠ t ∧ w.cur = .node i ∧ Removing s₂ u k w ∧
      ∀ cs s₃, run Watch.step s₂ cs = some s₃ → Meets Watch.step Truthful s₂ cs →
        Removing s₃ u k w ∨ ∃ cs₁ cs₂ s, cs = cs₁ ++ .access u :: cs₂ ∧
          run Watch.step s₂ cs₁ = some s ∧ TakesOut s u k w := by
  have hs₁ := Watch.sound_run hr₁ hm₁
  -- the call starts with the load of `prev`
  have hcall : InCall s₁ t i := by
    rw [run_append] at hr₁
    obtain ⟨s₀, -, hr₁⟩ := Option.bind_eq_some_iff.mp hr₁
    obtain ⟨s₀', hstart, hr₁⟩ := run_cons hr₁
    obtain rfl := Option.some.inj hr₁
    obtain ⟨pc, hpc, -, hthreads, -⟩ := Watch.step_start hstart
    refine ⟨.loadPrev (.node i), ?_, rfl, by rintro ⟨⟩⟩
    rw [hthreads]
    exact List.getElem?_set_self (List.getElem?_eq_some_iff.mp hpc).1
  rw [run_append] at hr₂
  obtain ⟨s, hr, hret⟩ := Option.bind_eq_some_iff.mp hr₂
  obtain ⟨s', hstep, hr₂⟩ := run_cons hret
  obtain rfl := Option.some.inj hr₂
  have ha : Truthful s (.access t) := (meets_of_append hm₂ hr).1
  rcases hcall.run hs₁ hbs hr (meets_append_left hm₂) with hout | ⟨hcall, hs⟩
  · exact Or.inl hout
  · rcases hcall.gives_up hs ha hstep hfalse with hout | ⟨u, k, w, hut, hw, hc⟩
    · exact Or.inl ⟨bs, [], s, (List.append_nil bs).symm, hr, hout⟩
    · exact Or.inr ⟨u, k, w, hut, hw, hc.removing, fun cs s₃ hcs hmcs =>
        hc.run (Watch.sound_step hs ha hstep) hcs hmcs⟩

def popBegun : List Act :=
  .start 0 (.pushBack 0) :: List.replicate 8 (.access 0) ++
  .start 1 .popFront :: List.replicate 5 (.access 1)

theorem remove_answers_truthfully_pop : ∃ s₁ s₂,
    run Watch.step (Watch.init 3) (popBegun ++ [.start 2 (.remove 0)]) = some s₁ ∧
    run Watch.step s₁ ([.access 2] ++ [.access 2]) = some s₂ ∧
    ((∃ bs₁ bs₂ s, [.access 2] = bs₁ ++ bs₂ ∧ run Watch.step s₁ bs₁ = some s ∧
      s.state.linked (.node 0) = false) ∨
    ∃ u k w, u ≠ 2 ∧ w.cur = .node 0 ∧ Removing s₂ u k w ∧
      ∀ cs s₃, run Watch.step s₂ cs = some s₃ → Meets Watch.step Truthful s₂ cs →
        Removing s₃ u k w ∨ ∃ cs₁ cs₂ s, cs = cs₁ ++ .access u :: cs₂ ∧
          run Watch.step s₂ cs₁ = some s ∧ TakesOut s u k w) := by
  have h : ∃ s₁, run Watch.step (Watch.init 3) (popBegun ++ [.start 2 (.remove 0)]) = some s₁ ∧
      Meets Watch.step Truthful s₁ ([.access 2] ++ [.access 2]) ∧
      ∃ s₂, run Watch.step s₁ ([.access 2] ++ [.access 2]) = some s₂ ∧
        s₂.state.threads[2]? = some (.returned (.removed false)) := by
    decide +kernel
  obtain ⟨s₁, hr₁, hm₂, s₂, hr₂, hfalse⟩ := h
  exact ⟨s₁, s₂, hr₁, hr₂, remove_answers_truthfully hr₁ hr₂ (by decide) hfalse
    (by decide +kernel) hm₂⟩

def popBegunLate : List Act :=
  .start 0 (.pushBack 0) :: List.replicate 8 (.access 0) ++
  .start 0 (.pushFront 1) :: List.replicate 5 (.access 0) ++
  .start 1 .popFront :: List.replicate 5 (.access 1)

def popElsewhere : List Act :=
  .access 0 :: List.replicate 4 (.access 1) ++ [.access 0, .access 0] ++
  List.replicate 9 (.access 1)

/-- The `remove` between the two returns false, and the node is in the list all the time. -/
theorem remove_misled : ∃ s₁ s₂ s₃,
    run Watch.step (Watch.init 3) (popBegunLate ++ [.start 2 (.remove 0)]) = some s₁ ∧
    run Watch.step s₁ [.access 2, .access 2] = some s₂ ∧
    s₂.state.threads[2]? = some (.returned (.removed false)) ∧
    run Watch.step s₂ popElsewhere = some s₃ ∧
    (∀ t ∈ s₃.state.threads, t.quiet = true) ∧ s₃.state.linked (.node 0) = true ∧
    Meets Watch.step (fun s _ => s.state.linked (.node 0) = true) s₁
      ([.access 2, .access 2] ++ popElsewhere) := by
  have h : ∃ s₁, run Watch.step (Watch.init 3) (popBegunLate ++ [.start 2 (.remove 0)]) = some s₁ ∧
      Meets Watch.step (fun s _ => s.state.linked (.node 0) = true) s₁
        ([.access 2, .access 2] ++ popElsewhere) ∧
      ∃ s₂, run Watch.step s₁ [.access 2, .access 2] = some s₂ ∧
        s₂.state.threads[2]? = some (.returned (.removed false)) ∧
        ∃ s₃, run Watch.step s₂ popElsewhere = some s₃ ∧
          (∀ t ∈ s₃.state.threads, t.quiet = true) ∧ s₃.state.linked (.node 0) = true := by
    decide +kernel
  obtain ⟨s₁, hr₁, hmeets, s₂, hr₂, hfalse, s₃, hr₃, hq, hlinked⟩ := h
  exact ⟨s₁, s₂, s₃, hr₁, hr₂, hfalse, hr₃, hq, hlinked, hmeets⟩

end SofaBolt.IntrusiveList
