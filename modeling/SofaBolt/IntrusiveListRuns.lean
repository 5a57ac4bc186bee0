import SofaBolt.IntrusiveListSafe

namespace SofaBolt.IntrusiveList

open Adjacent LaggingLinks Run

variable {l l' : Links} {s s' : State} {xs : List ℕ} {trail : NodePtr → List NodePtr}
  {c other : NodePtr} {i t : ℕ} {w : Window} {pc pc' : Pc} {e : End}

theorem End.place_cur : (e.place c other).cur = c := by cases e <;> rfl

theorem End.window_cur : (e.window c other).cur = c := by cases e <;> rfl

namespace Inv

theorem stable_place (h : Inv s xs trail) (hother : e.outer s.links = some other) :
    Stable s.threads (e.place c other).prev := by
  cases e with
  | front => exact h.stable_header
  | back => exact h.stable_of_prev hother

theorem stable_window (h : Inv s xs trail) (hother : e.inner s.links c = some other) :
    Stable s.threads (e.window c other).prev := by
  cases e with
  | front => exact h.stable_header
  | back => exact h.stable_of_prev hother

theorem goOn (h : Inv s xs trail) (hi : s.threads[i]? = some pc) (hr : pc'.role = pc.role)
    (hleft : ∀ c, pc.role ≠ .left c) (hk : pc.Keeps pc') :
    ∃ ys trail', Inv (s.moved i pc s.links pc') ys trail' :=
  ⟨xs, trail, h.stay hi hr hleft (h.keep hi hk)⟩

theorem access (h : Inv s xs trail) (hi : s.threads[i]? = some pc)
    (hstep : listStep s.links pc = some (l', pc')) :
    ∃ ys trail', Inv (s.moved i pc l' pc') ys trail' := by
  have hpc := mem_of_getElem? hi
  cases pc with
  | idle => cases hstep
  | returned r => cases hstep
  | checkPrev e cur =>
    have hnone := (h.outside.entry cur none none ⟨_, hpc, rfl⟩).1
    rw [listStep, if_pos hnone] at hstep
    obtain ⟨rfl, rfl⟩ := Prod.mk.inj (Option.some.inj hstep)
    exact h.goOn hi rfl (by rintro c ⟨⟩) ⟨fun _ h => h, fun _ h => h, fun _ h => h⟩
  | loadEnd e cur =>
    obtain ⟨other, hother, heq⟩ := Option.map_eq_some_iff.mp hstep
    obtain ⟨rfl, rfl⟩ := Prod.mk.inj heq
    have hr : (Pc.is1 e (e.place cur other)).role = (Pc.loadEnd e cur).role :=
      congrArg (Role.entering · none none) End.place_cur
    refine ⟨xs, trail, h.stay hi hr (by rintro c ⟨⟩) (h.steady_set hi ?_ ?_ ?_)⟩
    · intro x hx
      rw [← hx]
      exact congrArg some End.place_cur.symm
    · intro v hv
      rw [List.mem_singleton.mp hv]
      exact Or.inr (h.stable_place hother)
    · intro c hc
      rw [← hc]
      exact Or.inl (congrArg some End.place_cur.symm)
  | is1 e w =>
    rw [listStep] at hstep
    obtain ⟨rfl, rfl⟩ := Prod.mk.inj (Option.some.inj hstep)
    split
    · exact h.goOn hi rfl (by rintro c ⟨⟩) ⟨fun _ h => h, fun _ h => h, fun _ h => h⟩
    · exact h.goOn hi rfl (by rintro c ⟨⟩) ⟨fun _ h => h, by rintro v ⟨⟩, fun _ h => h⟩
  | linkPrev e w =>
    rw [listStep] at hstep
    split at hstep
    · obtain ⟨rfl, rfl⟩ := Prod.mk.inj (Option.some.inj hstep)
      refine ⟨xs, trail, h.relink hi rfl rfl (fun _ hm => ⟨?_, hm⟩) (fun y hy => ⟨?_, rfl⟩) rfl
        (h.keep hi ⟨fun _ h => h, fun _ h => h, fun _ h => h⟩)⟩
      · exact Function.update_self ..
      · exact Function.update_of_ne hy ..
    · obtain ⟨rfl, rfl⟩ := Prod.mk.inj (Option.some.inj hstep)
      exact h.goOn hi rfl (by rintro c ⟨⟩) ⟨fun _ h => h, by rintro v ⟨⟩, fun _ h => h⟩
  | linkNext e w =>
    obtain ⟨rfl, rfl⟩ := Prod.mk.inj (Option.some.inj hstep)
    refine ⟨xs, trail, h.relink hi rfl rfl (fun hq _ => ⟨hq, ?_⟩) (fun y hy => ⟨rfl, ?_⟩) rfl
      (h.keep hi ⟨fun _ h => h, fun _ h => h, fun _ h => h⟩)⟩
    · exact Function.update_self ..
    · exact Function.update_of_ne hy ..
  | is2 e w =>
    rw [listStep] at hstep
    split at hstep
    · rename_i hnext
      obtain ⟨rfl, rfl⟩ := Prod.mk.inj (Option.some.inj hstep)
      exact h.insert hi rfl rfl hnext (h.keep hi ⟨fun _ h => h, fun _ h => h, fun _ h => h⟩)
    · obtain ⟨rfl, rfl⟩ := Prod.mk.inj (Option.some.inj hstep)
      exact h.goOn hi rfl (by rintro c ⟨⟩) ⟨fun _ h => h, fun _ h => h, fun _ h => h⟩
  | undoNext e w =>
    have hnext := (h.outside.entry w.cur _ _ ⟨_, hpc, rfl⟩).2
    rw [listStep, if_pos hnext] at hstep
    obtain ⟨rfl, rfl⟩ := Prod.mk.inj (Option.some.inj hstep)
    refine ⟨xs, trail, h.relink hi rfl rfl (fun hq _ => ⟨hq, ?_⟩) (fun y hy => ⟨rfl, ?_⟩) rfl
      (h.keep hi ⟨fun _ h => h, fun _ h => h, fun _ h => h⟩)⟩
    · exact Function.update_self ..
    · exact Function.update_of_ne hy ..
  | undoPrev e w =>
    have hprev := (h.outside.entry w.cur _ _ ⟨_, hpc, rfl⟩).1
    rw [listStep, if_pos hprev] at hstep
    obtain ⟨rfl, rfl⟩ := Prod.mk.inj (Option.some.inj hstep)
    refine ⟨xs, trail, h.relink hi rfl rfl (fun _ hm => ⟨?_, hm⟩) (fun y hy => ⟨?_, rfl⟩) rfl
      (h.keep hi ⟨fun _ h => h, by rintro v ⟨⟩, fun _ h => h⟩)⟩
    · exact Function.update_self ..
    · exact Function.update_of_ne hy ..
  | is3 w =>
    rw [listStep] at hstep
    split at hstep
    · rename_i hprev
      obtain ⟨rfl, rfl⟩ := Prod.mk.inj (Option.some.inj hstep)
      exact ⟨xs, _, h.settle hi
        ⟨⟨fun _ => rfl, fun _ => rfl, rfl, rfl, fun _ => rfl⟩, rfl, rfl, fun _ => rfl⟩ rfl rfl rfl rfl
        hprev (h.keep hi ⟨by rintro x ⟨⟩, by rintro v ⟨⟩, by rintro c ⟨⟩⟩)⟩
    · obtain ⟨rfl, rfl⟩ := Prod.mk.inj (Option.some.inj hstep)
      exact h.goOn hi rfl (by rintro c ⟨⟩) ⟨fun _ h => h, fun _ h => h, fun _ h => h⟩
  | addSize =>
    obtain ⟨rfl, rfl⟩ := Prod.mk.inj (Option.some.inj hstep)
    exact ⟨xs, trail, h.count hi rfl rfl
      (h.keep hi ⟨fun _ h => h, fun _ h => h, fun _ h => h⟩)⟩
  | loadCur e =>
    obtain ⟨cur, hcur, heq⟩ := Option.map_eq_some_iff.mp hstep
    obtain ⟨rfl, rfl⟩ := Prod.mk.inj heq
    split
    · exact h.goOn hi rfl (by rintro c ⟨⟩) ⟨fun _ h => h, fun _ h => h, fun _ h => h⟩
    · rename_i hne
      refine ⟨xs, trail, h.stay hi rfl (by rintro c ⟨⟩) (h.steady_set hi (fun _ h => h)
        (fun _ hv => Or.inl hv) ?_)⟩
      rintro c ⟨⟩
      exact Or.inr (h.node_of_outer hcur hne)
  | loadSide e cur =>
    rw [listStep] at hstep
    split at hstep
    · obtain ⟨rfl, rfl⟩ := Prod.mk.inj (Option.some.inj hstep)
      exact h.goOn hi rfl (by rintro c ⟨⟩) ⟨fun _ h => h, fun _ h => h, by rintro c ⟨⟩⟩
    · rename_i other hother
      obtain ⟨rfl, rfl⟩ := Prod.mk.inj (Option.some.inj hstep)
      refine ⟨xs, trail, h.stay hi rfl (by rintro c ⟨⟩) (h.steady_set hi (fun _ h => h) ?_ ?_)⟩
      · intro v hv
        rw [List.mem_singleton.mp hv]
        exact Or.inr (h.stable_window hother)
      · intro c hc
        rw [← hc]
        exact Or.inl (congrArg some End.window_cur.symm)
  | loadPrev cur =>
    obtain ⟨rfl, rfl⟩ := Prod.mk.inj (Option.some.inj hstep)
    refine ⟨xs, trail, h.stay hi rfl (by rintro c ⟨⟩) (h.steady_set hi (fun _ h => h) ?_
      fun _ hc => Or.inl hc)⟩
    intro v hv
    exact Or.inr (h.stable_of_prev (Option.mem_toList.mp hv))
  | loadNext cur prev =>
    unfold listStep at hstep
    dsimp only at hstep
    split at hstep
    · obtain ⟨rfl, rfl⟩ := Prod.mk.inj (Option.some.inj hstep)
      exact h.goOn hi rfl (by rintro c ⟨⟩) ⟨fun _ h => h, fun _ h => h, fun _ h => h⟩
    · obtain ⟨rfl, rfl⟩ := Prod.mk.inj (Option.some.inj hstep)
      exact h.goOn hi rfl (by rintro c ⟨⟩) ⟨by rintro x ⟨⟩, by rintro v ⟨⟩, by rintro c ⟨⟩⟩
  | rs1 k w =>
    rw [listStep] at hstep
    obtain ⟨rfl, rfl⟩ := Prod.mk.inj (Option.some.inj hstep)
    split
    · rename_i hprev
      refine ⟨xs, trail, h.stay hi rfl (by rintro c ⟨⟩) (h.steady_set hi (fun _ h => h) ?_
        fun _ hc => Or.inl hc)⟩
      intro v hv
      rcases List.mem_cons.mp hv with rfl | hv
      · exact Or.inl (List.mem_singleton_self _)
      · rw [List.mem_singleton.mp hv]
        exact Or.inr (h.stable_of_prev hprev)
    · exact h.goOn hi k.role_retry (by rintro c ⟨⟩) (Pc.keeps_retry rfl)
  | rs2 k w =>
    rw [listStep] at hstep
    obtain ⟨rfl, rfl⟩ := Prod.mk.inj (Option.some.inj hstep)
    split
    · exact h.goOn hi rfl (by rintro c ⟨⟩) ⟨fun _ h => h, fun _ h => h, fun _ h => h⟩
    · exact h.goOn hi k.role_retry (by rintro c ⟨⟩) (Pc.keeps_retry rfl)
  | rs3 k w =>
    rw [listStep] at hstep
    split at hstep
    · rename_i hprev
      obtain ⟨rfl, rfl⟩ := Prod.mk.inj (Option.some.inj hstep)
      exact ⟨xs, trail, h.cutPrev hi rfl rfl rfl (by simp [Pc.holds]) hprev
        (h.keep hi ⟨fun _ h => h, fun _ h => h, fun _ h => h⟩)⟩
    · obtain ⟨rfl, rfl⟩ := Prod.mk.inj (Option.some.inj hstep)
      exact h.goOn hi k.role_retry (by rintro c ⟨⟩) (Pc.keeps_retry rfl)
  | rs4 k w =>
    rw [listStep] at hstep
    split at hstep
    · rename_i hnext
      obtain ⟨rfl, rfl⟩ := Prod.mk.inj (Option.some.inj hstep)
      exact ⟨xs, trail, h.cutNext hi rfl rfl (by simp [Pc.holds]) hnext
        (h.keep hi ⟨fun _ h => h, fun _ h => h, fun _ h => h⟩)⟩
    · obtain ⟨rfl, rfl⟩ := Prod.mk.inj (Option.some.inj hstep)
      exact h.goOn hi rfl (by rintro c ⟨⟩) ⟨fun _ h => h, fun _ h => h, fun _ h => h⟩
  | undo4 k w =>
    obtain ⟨rfl, rfl⟩ := Prod.mk.inj (Option.some.inj hstep)
    have hr := k.role_retry (c := w.cur)
    refine ⟨xs, trail, h.mendPrev hi ?_ rfl (congrArg Role.cutPrev hr)
      ((congrArg Role.cutNext hr).trans rfl) ((congrArg Role.pending hr).trans rfl)
      (h.keep hi (Pc.keeps_retry rfl))⟩
    rw [hr]
    exact ⟨⟨fun _ => rfl, fun _ => rfl, rfl, rfl, fun _ => rfl⟩, rfl, rfl, fun _ => rfl⟩
  | rs5 k w =>
    rw [listStep] at hstep
    split at hstep
    · rename_i hnext
      obtain ⟨rfl, rfl⟩ := Prod.mk.inj (Option.some.inj hstep)
      exact h.erase hi rfl rfl rfl (by simp [Pc.holds]) (by simp [Pc.holds]) hnext
        (h.keep hi ⟨fun _ h => h, fun _ h => h, fun _ h => h⟩)
    · obtain ⟨rfl, rfl⟩ := Prod.mk.inj (Option.some.inj hstep)
      exact h.goOn hi rfl (by rintro c ⟨⟩) ⟨fun _ h => h, fun _ h => h, fun _ h => h⟩
  | undo5Prev k w =>
    obtain ⟨rfl, rfl⟩ := Prod.mk.inj (Option.some.inj hstep)
    exact ⟨xs, trail, h.mendPrev hi
      ⟨⟨fun _ => rfl, fun _ => rfl, rfl, rfl, fun _ => rfl⟩, rfl, rfl, fun _ => rfl⟩ rfl rfl rfl rfl
      (h.keep hi ⟨fun _ h => h, fun _ h => h, fun _ h => h⟩)⟩
  | undo5Next k w =>
    obtain ⟨rfl, rfl⟩ := Prod.mk.inj (Option.some.inj hstep)
    exact ⟨xs, trail, h.mendNext hi rfl k.role_retry (h.keep hi (Pc.keeps_retry rfl))⟩
  | rs6 k w =>
    rw [listStep] at hstep
    split at hstep
    · rename_i hprev
      obtain ⟨rfl, rfl⟩ := Prod.mk.inj (Option.some.inj hstep)
      exact ⟨xs, _, h.settle hi
        ⟨⟨fun _ => rfl, fun _ => rfl, rfl, rfl, fun _ => rfl⟩, rfl, rfl, fun _ => rfl⟩ rfl rfl rfl rfl
        hprev (h.keep hi ⟨by rintro x ⟨⟩, by rintro v ⟨⟩, fun _ h => h⟩)⟩
    · obtain ⟨rfl, rfl⟩ := Prod.mk.inj (Option.some.inj hstep)
      exact h.goOn hi rfl (by rintro c ⟨⟩) ⟨fun _ h => h, fun _ h => h, fun _ h => h⟩
  | subSize k cur =>
    obtain ⟨rfl, rfl⟩ := Prod.mk.inj (Option.some.inj hstep)
    exact ⟨xs, trail, h.uncount hi rfl rfl rfl
      (h.keep hi ⟨by rintro x ⟨⟩, by rintro v ⟨⟩, by rintro c ⟨⟩⟩)⟩

/-- A node that is away is out of the list, and no operation has set its links. -/
theorem of_away (h : Inv s xs trail) {x : ℕ} (hx : s.away (.node x) = true) :
    x ∉ xs ∧ ∀ q m, ¬ Has Pc.entry s.threads (.node x, q, m) := by
  have hplace := h.counted.place x
  rw [hx, Bool.toNat_true] at hplace
  constructor
  · intro hmem
    rw [if_pos hmem] at hplace
    omega
  · rintro q m ⟨t, ht, he⟩
    have hpos := List.countP_pos_iff.mpr ⟨t, ht, Pc.enters_of_entry he⟩
    omega

theorem start {op : Op} (h : Inv s xs trail) (hi : s.threads[i]? = some pc)
    (hquiet : pc.quiet = true) (hop : op.pushed = none) :
    Inv { s with threads := s.threads.set i op.start } xs trail := by
  have hr : pc.role = .other := by cases pc <;> first | rfl | cases hquiet
  have hr' : op.start.role = .other := by cases op <;> first | rfl | cases hop
  have hsteady : Steady (s.threads.set i op.start) := by
    cases op <;> try cases hop
    case remove j =>
      refine h.steady_set hi (by rintro x ⟨⟩) (by rintro v ⟨⟩) ?_
      rintro c ⟨⟩
      exact Or.inr ⟨j, rfl⟩
    all_goals exact h.steady_set hi (by rintro x ⟨⟩) (by rintro v ⟨⟩) (by rintro c ⟨⟩)
  have := h.stay hi (hr'.trans hr.symm) (by rw [hr]; rintro c ⟨⟩) hsteady
  rw [State.moved, hr, hr'] at this
  exact this

theorem push {op : Op} {x : ℕ} (h : Inv s xs trail) (hi : s.threads[i]? = some pc)
    (hquiet : pc.quiet = true) (hop : op.pushed = some x) (haway : s.away (.node x) = true)
    (hfree : ∀ u ∈ s.threads, .node x ∉ u.holds) :
    Inv { s with
      threads := s.threads.set i op.start
      away := Function.update s.away (.node x) false } xs trail := by
  have hr : pc.role = .other := by cases pc <;> first | rfl | cases hquiet
  have hr' : op.start.role = .entering (.node x) none none := by cases op <;> cases hop <;> rfl
  obtain ⟨hx, hentry⟩ := h.of_away haway
  have hquietEntry : pc.entry = none := congrArg Role.entry hr
  have hpushEntry : op.start.entry = some (.node x, none, none) := congrArg Role.entry hr'
  have hgain := has_set_gain hi hquietEntry hpushEntry
  constructor
  case nodup => exact h.nodup
  case next =>
    refine h.next.same hi ?_ fun _ _ _ => rfl
    exact (congrArg Role.cutNext hr').trans (congrArg Role.cutNext hr).symm
  case prev =>
    refine h.prev.same hi ?_ ?_ fun _ _ _ => rfl
    · exact (congrArg Role.cutPrev hr').trans (congrArg Role.cutPrev hr).symm
    · exact (congrArg Role.pending hr').trans (congrArg Role.pending hr).symm
  case inserted =>
    refine has_insertion_set h.inserted fun w hw => ?_
    rw [Pc.insertion, hr'] at hw
    cases hw
  case outside =>
    refine ⟨fun y q m hk => ?_, fun j hj hout => ?_, h.outside.header, h.outside.tail⟩
    · rcases (hgain _).mp hk with heq | hk
      · obtain ⟨rfl, rfl, rfl⟩ : y = .node x ∧ q = none ∧ m = none := by simpa using heq
        exact h.outside.out x hx hentry
      · exact h.outside.entry y q m hk
    · exact h.outside.out j hj fun q m hk => hout q m ((hgain _).mpr (Or.inr hk))
  case steady =>
    refine h.steady.set hi (fun y hy => Or.inr ?_) ?_ ?_
    · rw [← Option.some.inj ((congrArg Role.fresh hr').symm.trans hy)]
      exact hfree
    · cases op <;> cases hop <;> rintro v ⟨⟩
    · cases op <;> cases hop <;> rintro c ⟨⟩ <;> exact ⟨x, rfl⟩
  case counted =>
    refine h.counted.set hi rfl (fun j => ?_) h.counted.linked ?_
    · simp only [Pc.enters, Pc.leaves, hr, hr', Role.enters, Role.leaves, Function.update_apply]
      by_cases hjx : j = x
      · simp [hjx, haway]
      · simp [hjx, Ne.symm hjx]
    · simp only [Pc.uncounted, Pc.counted, hr, hr', Role.uncounted, Role.counted]

theorem step (h : Inv s xs trail) {a : Act} (ha : Reusable s a) (hstep : s.step a = some s') :
    ∃ ys trail', Inv s' ys trail' := by
  cases a with
  | access t =>
    obtain ⟨pc, hi, hstep⟩ := Option.bind_eq_some_iff.mp hstep
    obtain ⟨⟨l', pc'⟩, hl, rfl⟩ := Option.map_eq_some_iff.mp hstep
    exact h.access hi hl
  | start t op =>
    obtain ⟨pc, hi, hstep⟩ := Option.bind_eq_some_iff.mp hstep
    split at hstep
    · rename_i hquiet
      unfold State.start at hstep
      split at hstep
      · rename_i hop
        obtain rfl := Option.some.inj hstep
        exact ⟨xs, trail, h.start hi hquiet hop⟩
      · rename_i x hop
        split at hstep
        · rename_i haway
          obtain rfl := Option.some.inj hstep
          exact ⟨xs, trail, h.push hi hquiet hop haway (ha x hop)⟩
        · cases hstep
    · cases hstep

theorem holds (h : Inv s xs trail) (hq : ∀ t ∈ s.threads, t.quiet = true) :
    s.links.Holds xs ∧ ∀ i, i ∈ xs ↔ s.away (.node i) = false := by
  have hrole : ∀ t ∈ s.threads, t.role = .other := by
    intro t ht
    have := hq t ht
    cases t <;> first | rfl | cases this
  have hzero : ∀ f : Pc → Bool, (∀ t, t.role = .other → f t = false) →
      s.threads.countP f = 0 := by
    intro f hf
    refine List.countP_eq_zero.mpr fun t ht => ?_
    rw [hf t (hrole t ht)]
    simp
  have hplace : ∀ j, (if j ∈ xs then 1 else 0) + (s.away (.node j)).toNat = 1 := by
    intro j
    have := h.counted.place j
    rw [hzero (Pc.enters (.node j)) fun t ht => congrArg (Role.enters (.node j)) ht,
      hzero (Pc.leaves (.node j)) fun t ht => congrArg (Role.leaves (.node j)) ht] at this
    exact this
  refine ⟨⟨h.nodup, fun a b hab => ?_, fun a b hab => ?_, fun j hj => ?_, ?_⟩, fun j => ?_⟩
  · rcases h.next.forward.link a b hab with hb | ⟨-, hk⟩
    · exact hb
    · exact absurd hk (not_has (fun t ht => congrArg Role.cutNext (hrole t ht)) _)
  · exact h.prev.backward.prev_eq hab
      (fun _ => not_has (fun t ht => congrArg Role.cutPrev (hrole t ht)) _)
      fun _ _ => not_has (fun t ht => congrArg Role.pending (hrole t ht)) _
  · exact h.outside.out j hj fun _ _ => not_has (fun t ht => congrArg Role.entry (hrole t ht)) _
  · have := h.counted.size
    rw [hzero Pc.uncounted fun t ht => congrArg Role.uncounted ht,
      hzero Pc.counted fun t ht => congrArg Role.counted ht] at this
    simpa using this
  · have := hplace j
    cases haway : s.away (.node j) <;> by_cases hj : j ∈ xs <;> simp_all

end Inv

theorem inv_init (n : ℕ) : Inv (State.init n) [] (fun _ => [.header]) := by
  have hidle : ∀ t ∈ (State.init n).threads, t = .idle := fun t ht => (List.mem_replicate.mp ht).2
  have hnone : ∀ {K : Type} {f : Pc → Option K}, f .idle = none →
      ∀ t ∈ (State.init n).threads, f t = none := by
    intro K f hf t ht
    rw [hidle t ht, hf]
  have hzero : ∀ {f : Pc → Bool}, f .idle = false → (State.init n).threads.countP f = 0 := by
    intro f hf
    refine List.countP_eq_zero.mpr fun t ht => ?_
    rw [hidle t ht, hf]
    simp
  have hholds := Links.holds_empty
  constructor
  case nodup => exact List.nodup_nil
  case next =>
    exact ⟨⟨fun a b hab => Or.inl (hholds.next a b hab), fun a b hk => absurd hk (not_has (hnone rfl) _)⟩,
      unique_of_none (hnone rfl)⟩
  case prev =>
    have hframe : ∀ {a b}, Adj (frame []) a b → a = .header := fun h =>
      ((adj_cons_cons.mp h).resolve_right not_adj_singleton).1
    refine ⟨⟨fun a b hab => Or.inl ?_, fun b v hk => absurd hk (not_has (hnone rfl) _), fun a b _ => ?_,
      fun a b hab => ?_, fun y a b => ?_⟩, unique_of_none (hnone rfl), unique_of_none (hnone rfl)⟩
    · rw [← hframe hab]
      exact hholds.prev a b hab
    · exact List.nodup_singleton _
    · rw [hframe hab]
      rfl
    · exact ⟨fun hk => absurd hk (not_has (hnone rfl) _), fun hk => absurd hk.2 not_adj_singleton⟩
  case inserted => exact fun w hw => absurd hw (not_has (hnone rfl) _)
  case outside =>
    exact ⟨fun x p n hk => absurd hk (not_has (hnone rfl) _), fun j hj _ => hholds.out j hj, rfl, rfl⟩
  case steady =>
    refine ⟨fun t ht v hv => ?_, fun t ht c hc => ?_⟩
    · rw [hidle t ht] at hv
      cases hv
    · rw [hidle t ht] at hc
      cases hc
  case counted =>
    refine ⟨fun j => ?_, fun j => ?_, ?_⟩
    · rw [hzero rfl, hzero rfl]
      rfl
    · simp [State.init]
    · rw [hzero rfl, hzero rfl]
      rfl

def State.Sound (s : State) : Prop := ∃ xs trail, Inv s xs trail

theorem State.Sound.step {a : Act} (h : s.Sound) (ha : Reusable s a) (hstep : s.step a = some s') :
    s'.Sound := by
  obtain ⟨xs, trail, h⟩ := h
  exact h.step ha hstep

theorem sound_init (n : ℕ) : (State.init n).Sound := ⟨_, _, inv_init n⟩

/-- In every state without an operation in progress `next` and `prev` are those of a list of
exactly the nodes that have been pushed and not been returned. -/
theorem list_keeps_nodes {n : ℕ} {as : List Act}
    (hr : run State.step (State.init n) as = some s)
    (hm : Meets State.step Reusable (State.init n) as) (hq : ∀ t ∈ s.threads, t.quiet = true) :
    ∃ xs, s.links.Holds xs ∧ ∀ i, i ∈ xs ↔ s.away (.node i) = false := by
  obtain ⟨xs, trail, h⟩ := run_induction (fun _ _ _ hs ha hstep => hs.step ha hstep)
    (sound_init n) hm hr
  exact ⟨xs, h.holds hq⟩

def popDuringPush : List Act :=
  .start 0 (.pushBack 0) :: List.replicate 8 (.access 0) ++
  .start 1 (.pushBack 1) :: List.replicate 6 (.access 1) ++
  .start 0 .popFront :: List.replicate 9 (.access 0)

theorem list_keeps_nodes_pop : ∃ s,
    run State.step (State.init 2) (popDuringPush ++ [.access 1, .access 1]) = some s ∧
    ∃ xs, s.links.Holds xs ∧ ∀ i, i ∈ xs ↔ s.away (.node i) = false := by
  have h : ∃ s, run State.step (State.init 2) (popDuringPush ++ [.access 1, .access 1]) = some s ∧
      ∀ t ∈ s.threads, t.quiet = true := by
    decide +kernel
  obtain ⟨s, hs, hq⟩ := h
  exact ⟨s, hs, list_keeps_nodes hs (by decide +kernel) hq⟩

/-- Before the second thread has come to IS3, the first one pushes the popped node again: it
finds it in the `prev` of the tail, and links it to itself. -/
theorem list_loses_node : ∃ s,
    run State.step (State.init 2)
      (popDuringPush ++ .start 0 (.pushBack 0) :: List.replicate 8 (.access 0) ++
        [.access 1, .access 1]) = some s ∧
    (∀ t ∈ s.threads, t.quiet = true) ∧
    ¬ ∃ xs, s.links.Holds xs ∧ ∀ i, i ∈ xs ↔ s.away (.node i) = false := by
  have h : ∃ s, run State.step (State.init 2)
      (popDuringPush ++ .start 0 (.pushBack 0) :: List.replicate 8 (.access 0) ++
        [.access 1, .access 1]) = some s ∧ (∀ t ∈ s.threads, t.quiet = true) ∧
      s.away (.node 0) = false ∧ s.links.prev (.node 0) = some (.node 0) := by
    decide +kernel
  obtain ⟨s, hs, hq, haway, hself⟩ := h
  refine ⟨s, hs, hq, ?_⟩
  rintro ⟨xs, hholds, hiff⟩
  have hmem : 0 ∈ xs := (hiff 0).mpr haway
  obtain ⟨a, ha⟩ := exists_prev (mem_frame_iff.mpr (Or.inr (Or.inr ⟨0, hmem, rfl⟩))) (by simp)
  rw [hholds.prev a _ ha] at hself
  exact ha.ne (frame_nodup hholds.nodup) (Option.some.inj hself)

end SofaBolt.IntrusiveList
