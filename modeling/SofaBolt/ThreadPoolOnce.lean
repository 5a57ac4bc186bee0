import SofaBolt.ThreadPoolTasks

namespace SofaBolt.ThreadPool.Pool

open SPMC Run

variable {s s' : Pool} {i j w : ℕ} {pc pc' : WorkerPc} {u u' : Submitter} {td : SingleThread}

def statusOf (tds : List SingleThread) (w : ℕ) : Option EThreadStatus :=
  (tds[w]?).map SingleThread.status

def tasksOf (tds : List SingleThread) (w : ℕ) : Option (SPMCQueue ℕ) :=
  (tds[w]?).bind SingleThread.tasks

theorem statusOf_set {tds : List SingleThread} (h : tds[w]? = some td) (td' : SingleThread) :
    statusOf (tds.set w td') = Function.update (statusOf tds) w (some td'.status) := by
  funext v
  by_cases hvw : v = w
  · subst hvw
    rw [statusOf, List.getElem?_set_self (List.getElem?_eq_some_iff.mp h).1, Function.update_self]
    rfl
  · rw [statusOf, List.getElem?_set_ne (Ne.symm hvw), Function.update_of_ne hvw]
    rfl

theorem tasksOf_set {tds : List SingleThread} (h : tds[w]? = some td) (td' : SingleThread) :
    tasksOf (tds.set w td') = Function.update (tasksOf tds) w td'.tasks := by
  funext v
  by_cases hvw : v = w
  · subst hvw
    rw [tasksOf, List.getElem?_set_self (List.getElem?_eq_some_iff.mp h).1, Function.update_self]
    rfl
  · rw [tasksOf, List.getElem?_set_ne (Ne.symm hvw), Function.update_of_ne hvw]
    rfl

theorem statusOf_set_same {tds : List SingleThread} (h : tds[w]? = some td) (td' : SingleThread)
    (hst : td'.status = td.status) : statusOf (tds.set w td') = statusOf tds := by
  rw [statusOf_set h, hst, Function.update_eq_self_iff, statusOf, h]
  rfl

theorem tasksOf_set_same {tds : List SingleThread} (h : tds[w]? = some td) (td' : SingleThread)
    (htk : td'.tasks = td.tasks) : tasksOf (tds.set w td') = tasksOf tds := by
  rw [tasksOf_set h, htk, Function.update_eq_self_iff, tasksOf, h]
  rfl

structure Accounted (s : Pool) : Prop where
  tasks : ∀ x, (s.tds.flatMap SingleThread.left).count x +
    (s.workers.flatMap WorkerPc.hand).count x +
    (s.submitters.flatMap fun u => u.pc.hand).count x + s.executed.count x =
      if x < s.nextTask then 1 else 0
  submits : ∀ x, (s.submitters.flatMap fun u => u.pc.current).count x + s.returned.count x =
    if x < s.nextTask then 1 else 0
  before : ∀ x ∈ s.before, x ∈ s.returned ∧ (s.tds.flatMap SingleThread.left).count x = 0

def joinedWorkers (capacity : ℕ) : DestructorPc → ℕ
  | .join n => n
  | .loadStatus n => n + 1
  | .returned => capacity
  | _ => 0

structure Inv (s : Pool) : Prop where
  size : s.queueSize = 0 ∨ ∃ k, s.queueSize = 2 ^ k
  length : s.workers.length = s.tdCapacity
  paired : Paired (statusOf s.tds) s.submitters s.tdMtx s.workers
  queued : Queued s.queueSize (tasksOf s.tds) s.submitters s.workers
  accounted : Accounted s
  joined : ∀ n < joinedWorkers s.tdCapacity s.destructor, s.workers[n]? = some .exited

theorem Accounted.worker (h : Accounted s) (hi : s.workers[i]? = some pc)
    (hhand : pc'.hand = pc.hand) :
    Accounted { s with workers := s.workers.set i pc' } := by
  refine ⟨fun x => ?_, h.submits, h.before⟩
  obtain ⟨n, hn, hset⟩ := exists_count_flatMap hi WorkerPc.hand x
  have := h.tasks x
  simp only
  rw [hset, hhand]
  omega

theorem Accounted.execute {x : ℕ} (h : Accounted s) (hi : s.workers[i]? = some pc)
    (hpc : pc.hand = [x]) (hpc' : pc'.hand = []) :
    Accounted { s with executed := s.executed ++ [x], workers := s.workers.set i pc' } := by
  refine ⟨fun y => ?_, h.submits, h.before⟩
  obtain ⟨n, hn, hset⟩ := exists_count_flatMap hi WorkerPc.hand y
  have := h.tasks y
  simp only
  rw [hset, hpc', List.count_append]
  rw [hn, hpc] at this
  rw [List.count_nil]
  omega

theorem Accounted.pop {w : ℕ} {td td' : SingleThread} (h : Accounted s)
    (hi : s.workers[i]? = some pc) (htd : s.tds[w]? = some td)
    (hcount : ∀ x, td'.left.count x + pc'.hand.count x = td.left.count x + pc.hand.count x)
    (hle : ∀ x, td'.left.count x ≤ td.left.count x) :
    Accounted { s with tds := s.tds.set w td', workers := s.workers.set i pc' } := by
  refine ⟨fun x => ?_, h.submits, fun x hx => ⟨(h.before x hx).1, ?_⟩⟩
  · obtain ⟨n, hn, hset⟩ := exists_count_flatMap hi WorkerPc.hand x
    obtain ⟨m, hm, hset'⟩ := exists_count_flatMap htd SingleThread.left x
    have := h.tasks x
    have := hcount x
    simp only
    rw [hset, hset']
    omega
  · obtain ⟨m, hm, hset'⟩ := exists_count_flatMap htd SingleThread.left x
    have := (h.before x hx).2
    have := hle x
    simp only
    rw [hset']
    omega

theorem Inv.worker (hi : Inv s) (hw : s.workers[i]? = some pc) (hm : WorkerMove s i pc s')
    (hpc : pc ≠ .exited) : Inv s' := by
  have hlen : ∀ pc', (s.workers.set i pc').length = s.tdCapacity := fun pc' =>
    List.length_set.trans hi.length
  have hjoined : ∀ pc', ∀ n < joinedWorkers s.tdCapacity s.destructor,
      (s.workers.set i pc')[n]? = some .exited := by
    intro pc' n hn
    have hne : i ≠ n := by
      rintro rfl
      exact hpc (Option.some.inj (hw.symm.trans (hi.joined i hn)))
    rw [List.getElem?_set_ne hne, hi.joined n hn]
  cases hm with
  | @quiet pc' active need locked hhand hpop hret =>
    refine ⟨hi.size, hlen pc', ?_, hi.queued.worker hpop, ?_, hjoined pc'⟩
    · refine hi.paired.worker hw fun hr => ?_
      rcases hret hr with hr | ⟨td, htd, hst⟩
      · exact hi.paired.retiring i pc hw hr
      · rw [statusOf, Option.mem_def.mp htd, Option.map_some, hst]
    · exact ⟨(hi.accounted.worker hw hhand).tasks, hi.accounted.submits, hi.accounted.before⟩
  | @execute x again heq =>
    subst heq
    refine ⟨hi.size, hlen _, hi.paired.worker hw fun hr => ?_, hi.queued.worker ?_,
      hi.accounted.execute hw rfl ?_, hjoined _⟩
    · refine hi.paired.retiring i _ hw ?_
      cases again with
      | none => cases hr
      | some r => exact hr
    · intro w k pop heq
      cases again <;> cases heq
    · cases again <;> rfl
  | @standby td heq htd =>
    subst heq
    refine ⟨hi.size, hlen _, ?_, ?_, hi.accounted.pop hw htd (fun x => rfl) (fun x => le_rfl),
      hjoined _⟩
    · rw [statusOf_set htd]
      exact hi.paired.standby hw
    · rw [tasksOf_set_same htd { td with status := .standby } rfl]
      exact hi.queued.worker (by simp)
  | @pop w k pop pop' td q q' heq htd htk hstep =>
    subst heq
    have hq : tasksOf s.tds w = some q := by rw [tasksOf, htd, Option.bind_some, htk]
    refine ⟨hi.size, hlen _, ?_, ?_, ?_, hjoined _⟩
    · rw [statusOf_set_same htd { td with tasks := some q' } rfl]
      exact hi.paired.worker hw fun hr => hi.paired.retiring i _ hw hr
    · rw [tasksOf_set htd]
      exact hi.queued.pop hw hq hstep
    · -- the pop takes the first task of the queue, or nothing
      have hleft : td.left = q.left := by rw [SingleThread.left, htk]; rfl
      have hpop : WorkerPc.hand (.pop w k pop) = [] := by
        cases pop <;> first | rfl | cases hstep
      rcases (hi.queued.ok w q hq).popStep_left (hi.queued.consumer hw hq) hstep with
        ⟨hsame, hno⟩ | ⟨val, hcons, rfl⟩
      · have hpop' : WorkerPc.hand (.pop w k pop') = [] := by
          cases pop' with
          | returned result val =>
            cases result with
            | true => exact absurd rfl (hno val)
            | false => rfl
          | _ => rfl
        refine hi.accounted.pop hw htd (fun x => ?_) fun x => ?_
        · rw [hpop, hpop', hleft, ← hsame]
          rfl
        · rw [hleft, ← hsame]
          exact le_rfl
      · refine hi.accounted.pop hw htd (fun x => ?_) fun x => ?_
        · rw [hpop, hleft, hcons, List.count_cons, List.count_nil]
          change q'.left.count x + List.count x [val] = _
          rw [List.count_singleton]
          omega
        · rw [hleft, hcons]
          exact List.count_le_count_cons

theorem Inv.wake (hi : Inv s) : Inv { s with workers := s.workers.map wake } := by
  have hhand : (s.workers.map Pool.wake).flatMap WorkerPc.hand = s.workers.flatMap WorkerPc.hand := by
    rw [List.flatMap_map]
    congr 1
    funext pc
    cases pc <;> rfl
  refine ⟨hi.size, by simpa using hi.length, hi.paired.wake, hi.queued.wake, ?_, fun n hn => ?_⟩
  · refine ⟨fun x => ?_, hi.accounted.submits, hi.accounted.before⟩
    simp only
    rw [hhand]
    exact hi.accounted.tasks x
  · simp only
    rw [List.getElem?_map, hi.joined n hn]
    rfl

theorem Accounted.submitter (h : Accounted s) (hj : s.submitters[j]? = some u)
    (hhand : u'.pc.hand = u.pc.hand) (hcur : u'.pc.current = u.pc.current) :
    Accounted { s with submitters := s.submitters.set j u' } := by
  refine ⟨fun x => ?_, fun x => ?_, h.before⟩
  · obtain ⟨n, hn, hset⟩ := exists_count_flatMap hj (fun u => u.pc.hand) x
    have := h.tasks x
    simp only
    rw [hset, hhand]
    omega
  · obtain ⟨n, hn, hset⟩ := exists_count_flatMap hj (fun u => u.pc.current) x
    have := h.submits x
    simp only
    rw [hset, hcur]
    omega

theorem Inv.quiet {mtx : Option ℕ} {active : ℕ} {locked : Bool} (hi : Inv s)
    (hj : s.submitters[j]? = some u)
    (hp : Paired (statusOf s.tds) (s.submitters.set j u') mtx s.workers)
    (hhand : u'.pc.hand = u.pc.hand) (hcur : u'.pc.current = u.pc.current)
    (hpush : ∀ x w pc, u'.pc = .push x w pc → pc = .loadWrite x) :
    Inv { s with
      submitters := s.submitters.set j u'
      tdMtx := mtx
      activeTdSize := active
      wakeupMtx := locked } := by
  obtain ⟨htasks, hsubmits, hbefore⟩ := hi.accounted.submitter hj hhand hcur
  exact ⟨hi.size, hi.length, hp, hi.queued.submitter hpush, ⟨htasks, hsubmits, hbefore⟩, hi.joined⟩

theorem Inv.on {active : ℕ} {locked : Bool} (hi : Inv s) (hj : s.submitters[j]? = some u)
    (howns : u'.owns = u.owns) (htarget : u'.pc.target = none) (hchosen : u'.pc.chosen = none)
    (hin : u'.pc.inTd = true → u.pc.inTd = true)
    (hdel : ∀ status again, u'.pc ≠ .deleteCas status again)
    (hpush : ∀ x w pc, u'.pc ≠ .push x w pc)
    (hhand : u'.pc.hand = u.pc.hand) (hcur : u'.pc.current = u.pc.current) :
    Inv { s with
      submitters := s.submitters.set j u'
      activeTdSize := active
      wakeupMtx := locked } := by
  refine hi.quiet hj (hi.paired.submitter hj (fun w hw => Or.inl (howns ▸ hw)) ?_ ?_
    (fun h => hi.paired.locked j u hj (hin h)) (fun _ _ => id)
    fun status again h => absurd h (hdel status again)) hhand hcur
    fun x w pc h => absurd h (hpush x w pc)
  · rw [htarget]
    simp
  · rw [hchosen]
    simp

theorem Accounted.tds (h : Accounted s) (htd : s.tds[w]? = some td) (td' : SingleThread)
    (hleft : td'.left = td.left) : Accounted { s with tds := s.tds.set w td' } := by
  have hcount : ∀ x, ((s.tds.set w td').flatMap SingleThread.left).count x =
      (s.tds.flatMap SingleThread.left).count x := by
    intro x
    obtain ⟨m, hm, hset⟩ := exists_count_flatMap htd SingleThread.left x
    rw [hset, hleft, hm]
  refine ⟨fun x => ?_, h.submits, fun x hx => ⟨(h.before x hx).1, ?_⟩⟩
  · simp only
    rw [hcount]
    exact h.tasks x
  · simp only
    rw [hcount]
    exact (h.before x hx).2

theorem Inv.makeQueue (hi : Inv s) (htd : s.tds[w]? = some td) :
    Inv { s with
      tds := s.tds.set w
        { td with tasks := some (td.tasks.getD (SPMCQueue.init s.queueSize)) } } := by
  refine ⟨hi.size, hi.length, ?_, ?_, hi.accounted.tds htd _ ?_, hi.joined⟩
  · rw [statusOf_set_same htd
      { td with tasks := some (td.tasks.getD (SPMCQueue.init s.queueSize)) } rfl]
    exact hi.paired
  · rw [tasksOf_set htd]
    have htk : tasksOf s.tds w = td.tasks := by rw [tasksOf, htd, Option.bind_some]
    cases h : td.tasks with
    | none => exact hi.queued.make hi.size (htk.trans h)
    | some q =>
      rw [Option.getD_some, Function.update_eq_self_iff.mpr (h ▸ htk).symm]
      exact hi.queued
  · rw [SingleThread.left, SingleThread.left]
    cases td.tasks <;> rfl

theorem Accounted.push {x : ℕ} {td' : SingleThread} (h : Accounted s)
    (hj : s.submitters[j]? = some u) (htd : s.tds[w]? = some td) (hcur : u'.pc.current = u.pc.current)
    (hmem : x ∈ u.pc.current)
    (hcase : (td'.left = td.left ∧ u'.pc.hand = u.pc.hand) ∨
      (td'.left = td.left ++ [x] ∧ u.pc.hand = [x] ∧ u'.pc.hand = [])) :
    Accounted { s with tds := s.tds.set w td', submitters := s.submitters.set j u' } := by
  rcases hcase with ⟨hleft, hhand⟩ | ⟨hleft, hhand, hhand'⟩
  · obtain ⟨htasks, hsubmits, hbefore⟩ := (h.submitter hj hhand hcur).tds (s := { s with
      submitters := s.submitters.set j u' }) htd td' hleft
    exact ⟨htasks, hsubmits, hbefore⟩
  have hret : x ∉ s.returned := by
    intro hx
    obtain ⟨n, hn, -⟩ := exists_count_flatMap hj (fun u => u.pc.current) x
    have hsub := h.submits x
    have h₁ := List.count_pos_iff.mpr hx
    have h₂ : 0 < u.pc.current.count x := List.count_pos_iff.mpr hmem
    split_ifs at hsub <;> omega
  refine ⟨fun y => ?_, fun y => ?_, fun y hy => ⟨(h.before y hy).1, ?_⟩⟩
  · obtain ⟨n, hn, hset⟩ := exists_count_flatMap hj (fun u => u.pc.hand) y
    obtain ⟨m, hm, hset'⟩ := exists_count_flatMap htd SingleThread.left y
    have := h.tasks y
    simp only
    rw [hset, hset', hleft, hhand', List.count_append, List.count_nil]
    rw [hhand] at hn
    omega
  · obtain ⟨n, hn, hset⟩ := exists_count_flatMap hj (fun u => u.pc.current) y
    have := h.submits y
    simp only
    rw [hset, hcur]
    omega
  · obtain ⟨m, hm, hset'⟩ := exists_count_flatMap htd SingleThread.left y
    obtain ⟨hret', hzero⟩ := h.before y hy
    have hne : x ≠ y := by
      rintro rfl
      exact hret hret'
    simp only
    rw [hset', hleft, List.count_append, List.count_singleton, if_neg (by simpa using hne)]
    omega

theorem Accounted.runInline {x : ℕ} (h : Accounted s) (hj : s.submitters[j]? = some u)
    (hcur : u'.pc.current = u.pc.current) (hhand : u.pc.hand = [x]) (hhand' : u'.pc.hand = []) :
    Accounted { s with executed := s.executed ++ [x], submitters := s.submitters.set j u' } := by
  refine ⟨fun y => ?_, fun y => ?_, h.before⟩
  · obtain ⟨n, hn, hset⟩ := exists_count_flatMap hj (fun u => u.pc.hand) y
    have := h.tasks y
    simp only
    rw [hset, hhand', List.count_append, List.count_nil]
    rw [hhand] at hn
    omega
  · obtain ⟨n, hn, hset⟩ := exists_count_flatMap hj (fun u => u.pc.current) y
    have := h.submits y
    simp only
    rw [hset, hcur]
    omega

theorem Accounted.ret {x : ℕ} (h : Accounted s) (hj : s.submitters[j]? = some u)
    (hhand : u'.pc.hand = u.pc.hand) (hcur : u.pc.current = [x]) (hcur' : u'.pc.current = []) :
    Accounted { s with returned := s.returned ++ [x], submitters := s.submitters.set j u' } := by
  refine ⟨fun y => ?_, fun y => ?_, fun y hy => ⟨?_, (h.before y hy).2⟩⟩
  · obtain ⟨n, hn, hset⟩ := exists_count_flatMap hj (fun u => u.pc.hand) y
    have := h.tasks y
    simp only
    rw [hset, hhand]
    omega
  · obtain ⟨n, hn, hset⟩ := exists_count_flatMap hj (fun u => u.pc.current) y
    have := h.submits y
    simp only
    rw [hset, hcur', List.count_append, List.count_nil]
    rw [hcur] at hn
    omega
  · exact List.mem_append_left _ (h.before y hy).1

/-- No other thread pushes to the queue of the worker a thread is paired with. -/
theorem Inv.alone {x : ℕ} {pc : SPMC.PushPc ℕ} {paired : Option ℕ} (hi : Inv s)
    (hj : s.submitters[j]? = some ⟨.push x w pc, paired⟩) :
    ∀ n r, s.submitters[n]? = some r → r.pc.target = some w → n = j := by
  have howns : ∀ r ∈ s.submitters, r.pc.target = some w → w ∈ r.owns := by
    intro r hr ht
    have hp := hi.paired.target r hr w ht
    obtain ⟨pc, p⟩ := r
    cases pc <;> first | exact hp | cases ht
  intro n r hn ht
  exact hi.paired.unique n j r _ w hn hj (howns r (mem_of_getElem? hn) ht)
    (howns _ (mem_of_getElem? hj) rfl)

theorem Inv.push {x : ℕ} {pc pc' : SPMC.PushPc ℕ} {paired : Option ℕ} {q q' : SPMCQueue ℕ} (hi : Inv s)
    (hj : s.submitters[j]? = some ⟨.push x w pc, paired⟩) (htd : s.tds[w]? = some td)
    (htk : td.tasks = some q) (hstep : q.pushStep pc = some (q', pc')) :
    Inv { s with
      tds := s.tds.set w { td with tasks := some q' }
      submitters := s.submitters.set j ⟨.push x w pc', paired⟩ } := by
  have hq : tasksOf s.tds w = some q := by rw [tasksOf, htd, Option.bind_some, htk]
  have hleft : td.left = q.left := by rw [SingleThread.left, htk]; rfl
  have hhand : SubmitPc.hand (.push x w pc) = [x] := by
    cases pc <;> first | rfl | cases hstep
  refine ⟨hi.size, hi.length, ?_, ?_, hi.accounted.push (x := x) hj htd rfl (by simp
    [SubmitPc.current]) ?_, hi.joined⟩
  · rw [statusOf_set_same htd { td with tasks := some q' } rfl]
    exact hi.paired.submitter hj (fun v hv => Or.inl hv)
      (hi.paired.target ⟨.push x w pc, paired⟩ (mem_of_getElem? hj)) (by simp [SubmitPc.chosen])
      (fun h => by cases h) (fun _ _ => id) (by simp)
  · rw [tasksOf_set htd]
    exact hi.queued.push hj hq (hi.alone hj) hstep
  · rw [hhand, hleft]
    rcases (hi.queued.ok w q hq).pushStep_left hstep with ⟨hsame, hno, -⟩ | ⟨val, hval, happ, rfl⟩
    · refine Or.inl ⟨hsame, ?_⟩
      cases pc' with
      | returned result =>
        cases result with
        | true => exact absurd rfl hno
        | false => rfl
      | _ => rfl
    · obtain rfl := (hi.queued.producer hj hq).2 val hval
      exact Or.inr ⟨happ, rfl, rfl⟩

theorem Inv.restatus {status : EThreadStatus} (hi : Inv s) (hj : s.submitters[j]? = some u)
    (htd : s.tds[w]? = some td)
    (hp : Paired (Function.update (statusOf s.tds) w (some status)) (s.submitters.set j u') s.tdMtx
      s.workers)
    (hhand : u'.pc.hand = u.pc.hand) (hcur : u'.pc.current = u.pc.current)
    (hpush : ∀ x w pc, u'.pc ≠ .push x w pc) :
    Inv { s with
      tds := s.tds.set w { td with status }
      submitters := s.submitters.set j u' } := by
  have hacc : Accounted { s with submitters := s.submitters.set j u' } :=
    hi.accounted.submitter hj hhand hcur
  obtain ⟨htasks, hsubmits, hbefore⟩ := hacc.tds htd { td with status } rfl
  refine ⟨hi.size, hi.length, ?_, ?_, ⟨htasks, hsubmits, hbefore⟩, hi.joined⟩
  · rw [statusOf_set htd]
    exact hp
  · rw [tasksOf_set_same htd { td with status } rfl]
    exact hi.queued.submitter fun x w pc h => absurd h (hpush x w pc)

/-- A thread that has been through the workers, with the one that it has found. -/
theorem Inv.unlockTd {x : ℕ} {found paired : Option ℕ} (hi : Inv s)
    (hj : s.submitters[j]? = some ⟨.unlockTd x found, paired⟩)
    (h : s.submitterStep j paired (.unlockTd x found) = some s') : Inv s' := by
  cases h
  have hmtx := hi.paired.locked j _ hj rfl
  have htarget := hi.paired.target _ (mem_of_getElem? hj)
  have hother : ∀ j', j' ≠ j → s.tdMtx = some j' → (none : Option ℕ) = some j' := by
    intro j' hne hj'
    exact absurd (Option.some.inj (hj'.symm.trans hmtx)) hne
  cases found with
  | none =>
    exact hi.quiet hj (hi.paired.submitter hj (fun v hv => Or.inl hv)
      (by simp [SubmitPc.target]) (by simp [SubmitPc.chosen]) (fun h => by cases h) hother
      (by simp)) rfl rfl (by simp)
  | some w =>
    refine hi.quiet hj (hi.paired.submitter hj (fun v hv => Or.inl hv) htarget
      (by simp [SubmitPc.chosen]) (fun h => by cases h) hother (by simp)) rfl rfl ?_
    intro x' w' pc h
    cases h
    rfl

/-- The compare-exchanges of `deleteThreadLocalPairThread`: the first one lets go of the
worker, and the second one fails. -/
theorem Inv.deleteCas {status : EThreadStatus} {again : Bool} {paired : Option ℕ} (hi : Inv s)
    (hj : s.submitters[j]? = some ⟨.deleteCas status again, paired⟩)
    (hagain : ∀ status' ∈ SubmitPc.again (.deleteCas status again), ∀ w ∈ paired,
      ∀ td ∈ s.tds[w]?, td.status ≠ status')
    (h : s.submitterStep j paired (.deleteCas status again) = some s') : Inv s' := by
  obtain rfl := hi.paired.expected _ (mem_of_getElem? hj) status again rfl
  obtain ⟨w, rfl, h₁⟩ := Option.bind_eq_some_iff.mp h
  obtain ⟨td, htd, h₂⟩ := Option.map_eq_some_iff.mp h₁
  rw [if_neg (by simp)] at h₂
  split_ifs at h₂ with hst
  · cases again with
    | true => exact absurd hst (hagain _ rfl w rfl td htd)
    | false =>
      cases h₂
      exact hi.restatus hj htd (hi.paired.inactive hj) rfl rfl (by simp)
  · cases h₂
    exact hi.quiet hj (hi.paired.submitter hj (fun v hv => by cases hv)
      (by simp [SubmitPc.target]) (by simp [SubmitPc.chosen]) (fun h => by cases h)
      (fun _ _ => id) (by simp)) (by cases again <;> rfl) rfl (by simp)

theorem Inv.submitter {paired : Option ℕ} {pc : SubmitPc} (hi : Inv s)
    (hj : s.submitters[j]? = some ⟨pc, paired⟩)
    (hagain : ∀ status ∈ pc.again, ∀ w ∈ paired, ∀ td ∈ s.tds[w]?, td.status ≠ status)
    (h : s.submitterStep j paired pc = some s') : Inv s' := by
  cases pc with
  | idle => cases h
  | ended => cases h
  | testExit x =>
    cases h
    cases s.exit with
    | true => exact hi.on hj rfl rfl rfl (by simp [SubmitPc.inTd]) (by simp) (by simp) rfl rfl
    | false => exact hi.on hj rfl rfl rfl (by simp [SubmitPc.inTd]) (by simp) (by simp) rfl rfl
  | loadActive x =>
    cases h
    split_ifs
    · exact hi.on hj rfl rfl rfl (by simp [SubmitPc.inTd]) (by simp) (by simp) rfl rfl
    · exact hi.on hj rfl rfl rfl (by simp [SubmitPc.inTd]) (by simp) (by simp) rfl rfl
  | getSpecific x =>
    cases h
    cases paired with
    | none => exact hi.on hj rfl rfl rfl (by simp [SubmitPc.inTd]) (by simp) (by simp) rfl rfl
    | some w =>
      refine hi.quiet hj (hi.paired.submitter hj (fun v hv => Or.inl hv) (fun v hv => hv)
        (by simp [SubmitPc.chosen]) (fun h => by cases h) (fun _ _ => id) (by simp)) rfl rfl ?_
      intro x' w' pc h
      cases h
      rfl
  | lockTd x =>
    obtain ⟨hfree, h⟩ := Option.ite_none_right_eq_some.mp h
    cases h
    refine hi.quiet hj (hi.paired.submitter hj (fun v hv => Or.inl hv) (by simp [SubmitPc.target])
      (by simp [SubmitPc.chosen]) (fun _ => rfl) (fun j' _ hj' => ?_) (by simp)) rfl rfl (by simp)
    cases hfree.symm.trans hj'
  | scan x n =>
    rw [submitterStep] at h
    split_ifs at h
    · obtain ⟨td, htd, h⟩ := Option.map_eq_some_iff.mp h
      cases h
      split_ifs with hst
      · refine hi.quiet hj (hi.paired.submitter hj (fun v hv => Or.inl hv)
          (by simp [SubmitPc.target]) (fun v hv => ?_) (fun _ => hi.paired.locked j _ hj rfl)
          (fun _ _ => id) (by simp)) rfl rfl (by simp)
        obtain rfl : n = v := Option.some.inj hv
        rw [statusOf, htd, Option.map_some, hst]
      · exact hi.on hj rfl rfl rfl (fun _ => rfl) (by simp) (by simp) rfl rfl
    · cases h
      exact hi.on hj rfl rfl rfl (fun _ => rfl) (by simp) (by simp) rfl rfl
  | makeQueue x n =>
    obtain ⟨td, htd, h⟩ := Option.map_eq_some_iff.mp h
    cases h
    have hi₁ := hi.makeQueue htd
    refine hi₁.quiet hj (hi₁.paired.submitter hj (fun v hv => Or.inl hv)
      (by simp [SubmitPc.target]) (fun v hv => ?_) (fun _ => hi.paired.locked j _ hj rfl)
      (fun _ _ => id) (by simp)) rfl rfl (by simp)
    exact hi₁.paired.chosen _ (mem_of_getElem? hj) v hv
  | storeActive x n =>
    obtain ⟨td, htd, h⟩ := Option.map_eq_some_iff.mp h
    cases h
    exact hi.restatus hj htd (hi.paired.storeActive hj) rfl rfl (by simp)
  | addActive x n =>
    cases h
    exact hi.on hj rfl rfl rfl (by simp [SubmitPc.inTd]) (by simp) (by simp) rfl rfl
  | setSpecific x n =>
    cases h
    exact hi.quiet hj (hi.paired.submitter hj (fun v hv => Or.inl hv) (fun v hv => hv)
      (by simp [SubmitPc.chosen]) (fun _ => hi.paired.locked j _ hj rfl) (fun _ _ => id)
      (by simp)) rfl rfl (by simp)
  | unlockTd x found => exact hi.unlockTd hj h
  | push x w pc =>
    cases pc with
    | returned result =>
      cases h
      cases result with
      | true => exact hi.on hj rfl rfl rfl (fun h => by cases h) (by simp) (by simp) rfl rfl
      | false => exact hi.on hj rfl rfl rfl (fun h => by cases h) (by simp) (by simp) rfl rfl
    | _ =>
      obtain ⟨td, htd, h⟩ := Option.bind_eq_some_iff.mp h
      obtain ⟨q, htk, h⟩ := Option.bind_eq_some_iff.mp h
      obtain ⟨⟨q', pc'⟩, hstep, h⟩ := Option.map_eq_some_iff.mp h
      cases h
      exact hi.push hj htd htk hstep
  | runInline x =>
    cases h
    refine ⟨hi.size, hi.length, ?_, hi.queued.submitter (by simp),
      hi.accounted.runInline hj rfl rfl rfl, hi.joined⟩
    exact hi.paired.submitter hj (fun v hv => Or.inl hv) (by simp [SubmitPc.target])
      (by simp [SubmitPc.chosen]) (fun h => by cases h) (fun _ _ => id) (by simp)
  | loadWakeup x =>
    cases h
    split_ifs
    · exact hi.on hj rfl rfl rfl (by simp [SubmitPc.inTd]) (by simp) (by simp) rfl rfl
    · exact hi.on hj rfl rfl rfl (by simp [SubmitPc.inTd]) (by simp) (by simp) rfl rfl
  | lockWakeup x =>
    rw [submitterStep] at h
    split_ifs at h
    cases h
    exact hi.on hj rfl rfl rfl (by simp [SubmitPc.inTd]) (by simp) (by simp) rfl rfl
  | notify x =>
    cases h
    exact hi.wake.on hj rfl rfl rfl (by simp [SubmitPc.inTd]) (by simp) (by simp) rfl rfl
  | ret x =>
    cases h
    refine ⟨hi.size, hi.length, ?_, hi.queued.submitter (by simp),
      hi.accounted.ret hj rfl rfl rfl, hi.joined⟩
    exact hi.paired.submitter hj (fun v hv => Or.inl hv) (by simp [SubmitPc.target])
      (by simp [SubmitPc.chosen]) (fun h => by cases h) (fun _ _ => id) (by simp)
  | deleteLoad =>
    obtain ⟨w, rfl, h⟩ := Option.bind_eq_some_iff.mp h
    obtain ⟨td, htd, h⟩ := Option.map_eq_some_iff.mp h
    cases h
    have hst : statusOf s.tds w = some .active := hi.paired.active _ (mem_of_getElem? hj) w rfl
    rw [statusOf, htd, Option.map_some, Option.some.injEq] at hst
    refine hi.quiet hj (hi.paired.submitter hj (fun v hv => Or.inl hv) (by simp [SubmitPc.target])
      (by simp [SubmitPc.chosen]) (fun h => by cases h) (fun _ _ => id) ?_) rfl rfl (by simp)
    intro status again h
    cases h
    exact hst
  | deleteCas status again => exact hi.deleteCas hj hagain h

theorem inv_init (capacity queueSize submitters : ℕ)
    (hsize : queueSize = 0 ∨ ∃ k, queueSize = 2 ^ k) :
    Inv (init capacity queueSize submitters) := by
  have hu : ∀ u ∈ (init capacity queueSize submitters).submitters, u = ⟨.idle, none⟩ := fun u h =>
    List.eq_of_mem_replicate h
  have hw : ∀ pc ∈ (init capacity queueSize submitters).workers, pc = .loop := fun pc h =>
    List.eq_of_mem_replicate h
  have htk : ∀ w q, tasksOf (init capacity queueSize submitters).tds w ≠ some q := by
    intro w q h
    obtain ⟨td, htd, h⟩ := Option.bind_eq_some_iff.mp h
    rw [List.eq_of_mem_replicate (mem_of_getElem? htd)] at h
    cases h
  refine ⟨hsize, List.length_replicate, ?_, ?_, ?_, fun n hn => absurd hn (Nat.not_lt_zero n)⟩
  · constructor
    case active =>
      intro u h w hown
      rw [hu u h] at hown
      cases hown
    case unique =>
      intro j j' u u' w h h' hown
      rw [hu u (mem_of_getElem? h)] at hown
      cases hown
    case target =>
      intro u h w ht
      rw [hu u h] at ht
      cases ht
    case chosen =>
      intro u h w hc
      rw [hu u h] at hc
      cases hc
    case locked =>
      intro j u h hin
      rw [hu u (mem_of_getElem? h)] at hin
      cases hin
    case expected =>
      intro u h status again heq
      rw [hu u h] at heq
      cases heq
    case retiring =>
      intro i pc h hret
      rw [hw pc (mem_of_getElem? h)] at hret
      cases hret
  · refine ⟨fun w q h => absurd h (htk w q), fun pc h w k pop heq => ?_, fun u h x w pc heq => ?_⟩
    · rw [hw pc h] at heq
      cases heq
    · rw [hu u h] at heq
      cases heq
  · have hnil : ∀ {α : Type} (n : ℕ) (a : α) (f : α → List ℕ), f a = [] →
        (List.replicate n a).flatMap f = [] := by
      intro α n a f hf
      refine List.flatMap_eq_nil_iff.mpr fun b hb => ?_
      rw [List.eq_of_mem_replicate hb, hf]
    refine ⟨fun x => ?_, fun x => ?_, fun x hx => by cases hx⟩
    · simp only [init]
      rw [hnil _ _ _ rfl, hnil _ _ _ rfl, hnil _ _ _ rfl]
      rfl
    · simp only [init]
      rw [hnil _ _ _ rfl]
      rfl

theorem Accounted.submit (h : Accounted s) (hj : s.submitters[j]? = some u)
    (hhand : u.pc.hand = []) (hcur : u.pc.current = []) (hhand' : u'.pc.hand = [s.nextTask])
    (hcur' : u'.pc.current = [s.nextTask]) :
    Accounted { s with nextTask := s.nextTask + 1, submitters := s.submitters.set j u' } := by
  have hif : ∀ x, (if x < s.nextTask + 1 then 1 else 0) =
      (if x < s.nextTask then 1 else 0) + List.count x [s.nextTask] := by
    intro x
    rw [List.count_singleton]
    by_cases hx : s.nextTask = x
    · simp [hx]
    · simp only [beq_iff_eq, hx, if_false, Nat.add_zero]
      congr 1
      exact propext ⟨fun h => by omega, fun h => by omega⟩
  refine ⟨fun x => ?_, fun x => ?_, h.before⟩
  · obtain ⟨n, hn, hset⟩ := exists_count_flatMap hj (fun u => u.pc.hand) x
    have := h.tasks x
    simp only
    rw [hset, hhand', hif]
    rw [hhand, List.count_nil] at hn
    omega
  · obtain ⟨n, hn, hset⟩ := exists_count_flatMap hj (fun u => u.pc.current) x
    have := h.submits x
    simp only
    rw [hset, hcur', hif]
    rw [hcur, List.count_nil] at hn
    omega

theorem Inv.destructor (hi : Inv s) (h : s.destructorStep s.destructor = some s') : Inv s' := by
  have hjoined := hi.joined
  have hacc := hi.accounted
  cases hd : s.destructor with
  | idle =>
    rw [hd] at h
    cases h
  | returned =>
    rw [hd] at h
    cases h
  | lockWakeup =>
    rw [hd, destructorStep] at h
    split_ifs at h
    cases h
    exact ⟨hi.size, hi.length, hi.paired, hi.queued, ⟨hacc.tasks, hacc.submits, hacc.before⟩,
      fun n hn => absurd hn (Nat.not_lt_zero n)⟩
  | notify =>
    rw [hd] at h
    cases h
    obtain ⟨hsize, hlen, hpair, hqueue, ⟨htasks, hsubmits, hbefore⟩, -⟩ := hi.wake
    exact ⟨hsize, hlen, hpair, hqueue, ⟨htasks, hsubmits, hbefore⟩,
      fun n hn => absurd hn (Nat.not_lt_zero n)⟩
  | join n =>
    rw [hd] at h hjoined
    rw [destructorStep] at h
    split_ifs at h with hn hex
    · cases h
      refine ⟨hi.size, hi.length, hi.paired, hi.queued, ⟨hacc.tasks, hacc.submits, hacc.before⟩,
        fun m hm => ?_⟩
      rcases Nat.lt_succ_iff_lt_or_eq.mp hm with hm | rfl
      · exact hjoined m hm
      · exact hex
    · cases h
      exact ⟨hi.size, hi.length, hi.paired, hi.queued, ⟨hacc.tasks, hacc.submits, hacc.before⟩,
        fun m hm => hjoined m (lt_of_lt_of_le hm (not_lt.mp hn))⟩
  | loadStatus n =>
    rw [hd] at h hjoined
    obtain ⟨td, htd, h⟩ := Option.map_eq_some_iff.mp h
    cases h
    obtain ⟨htasks, hsubmits, hbefore⟩ := hacc.tds htd
      { td with deleted := td.deleted || td.status = .standby } rfl
    refine ⟨hi.size, hi.length, ?_, ?_, ⟨htasks, hsubmits, hbefore⟩, hjoined⟩
    · rw [statusOf_set_same htd { td with deleted := td.deleted || td.status = .standby } rfl]
      exact hi.paired
    · rw [tasksOf_set_same htd { td with deleted := td.deleted || td.status = .standby } rfl]
      exact hi.queued

theorem Inv.submit (hi : Inv s) (h : s.step (.submit j) = some s') : Inv s' := by
  obtain ⟨⟨pc, paired⟩, hj, h⟩ := Option.bind_eq_some_iff.mp h
  obtain ⟨hidle, h⟩ := Option.ite_none_right_eq_some.mp h
  cases h
  obtain rfl : pc = .idle := hidle
  have hp : Paired (statusOf s.tds) (s.submitters.set j ⟨.testExit s.nextTask, paired⟩) s.tdMtx
      s.workers :=
    hi.paired.submitter hj (fun v hv => Or.inl hv) (by simp [SubmitPc.target])
      (by simp [SubmitPc.chosen]) (fun h => by cases h) (fun _ _ => id) (by simp)
  exact ⟨hi.size, hi.length, hp, hi.queued.submitter (by simp),
    hi.accounted.submit hj rfl rfl rfl rfl, hi.joined⟩

theorem Inv.endThread (hi : Inv s) (h : s.step (.endThread j) = some s') : Inv s' := by
  obtain ⟨⟨pc, paired⟩, hj, h⟩ := Option.bind_eq_some_iff.mp h
  obtain ⟨hidle, h⟩ := Option.ite_none_right_eq_some.mp h
  cases h
  obtain rfl : pc = .idle := hidle
  cases paired with
  | none => exact hi.on hj rfl rfl rfl (fun h => by cases h) (by simp) (by simp) rfl rfl
  | some w => exact hi.on hj rfl rfl rfl (fun h => by cases h) (by simp) (by simp) rfl rfl

theorem Inv.workerStep (hi : Inv s) (hw : s.workers[i]? = some pc)
    (hstale : s.exit = true → pc.stale = none) (h : s.workerStep i pc = some s') : Inv s' := by
  refine hi.worker hw (workerStep_move hstale h) ?_
  rintro rfl
  cases h

theorem Inv.step {a : Act} (hi : Inv s) (hg : Granted s a) (h : s.step a = some s') : Inv s' := by
  cases a with
  | submit j => exact hi.submit h
  | endThread j => exact hi.endThread h
  | destroy =>
    obtain ⟨hidle, h⟩ := Option.ite_none_right_eq_some.mp h
    cases h
    refine ⟨hi.size, hi.length, hi.paired, hi.queued, ?_, fun n hn => absurd hn (Nat.not_lt_zero n)⟩
    exact ⟨hi.accounted.tasks, hi.accounted.submits, fun x hx =>
      ⟨hx, List.count_eq_zero.mpr (hg x hx)⟩⟩
  | worker i =>
    obtain ⟨pc, hw, h⟩ := Option.bind_eq_some_iff.mp h
    exact hi.workerStep hw (hg pc hw).2 h
  | submitter j =>
    obtain ⟨⟨pc, paired⟩, hj, h⟩ := Option.bind_eq_some_iff.mp h
    exact hi.submitter hj (hg _ hj).2 h
  | destructor => exact hi.destructor h

theorem hand_subset_current {x : ℕ} {pc : SubmitPc} (h : x ∈ pc.hand) : x ∈ pc.current := by
  cases pc with
  | push y w pc =>
    cases pc with
    | returned result =>
      cases result with
      | true => cases h
      | false => exact h
    | _ => exact h
  | loadWakeup y => cases h
  | lockWakeup y => cases h
  | notify y => cases h
  | ret y => cases h
  | _ => exact h

/-- What has been submitted before the destruction is executed once when that is over. -/
theorem pool_executes_once (capacity queueSize submitters : ℕ)
    (hsize : queueSize = 0 ∨ ∃ k, queueSize = 2 ^ k) (as : List Act) (s : Pool)
    (hm : Meets step Granted (init capacity queueSize submitters) as)
    (hr : run step (init capacity queueSize submitters) as = some s)
    (hd : s.destructor = .returned) : ∀ x ∈ s.before, s.executed.count x = 1 := by
  intro x hx
  have hi : Inv s := run_induction (fun _ _ _ hi hg h => hi.step hg h)
    (inv_init capacity queueSize submitters hsize) hm hr
  obtain ⟨hret, hleft⟩ := hi.accounted.before x hx
  have hworkers : s.workers.flatMap WorkerPc.hand = [] := by
    refine List.flatMap_eq_nil_iff.mpr fun pc hpc => ?_
    obtain ⟨i, hi', rfl⟩ := List.mem_iff_getElem.mp hpc
    have hex := hi.joined i (by rw [hd]; exact hi.length ▸ hi')
    rw [List.getElem?_eq_getElem hi', Option.some.injEq] at hex
    rw [hex]
    rfl
  have hpos := List.count_pos_iff.mpr hret
  have hsubmits := hi.accounted.submits x
  have hcur : (s.submitters.flatMap fun u => u.pc.current).count x = 0 := by
    split_ifs at hsubmits <;> omega
  have hhand : (s.submitters.flatMap fun u => u.pc.hand).count x = 0 := by
    rw [List.count_eq_zero] at hcur ⊢
    intro hmem
    obtain ⟨u, hu, hxu⟩ := List.mem_flatMap.mp hmem
    exact hcur (List.mem_flatMap.mpr ⟨u, hu, hand_subset_current hxu⟩)
  have hlt : x < s.nextTask := by
    by_contra hge
    rw [if_neg hge] at hsubmits
    omega
  have htasks := hi.accounted.tasks x
  rw [hleft, hworkers, hhand, List.count_nil, if_pos hlt] at htasks
  omega

def twoTasks : List Act :=
  .submit 0 :: List.replicate 17 (.submitter 0) ++ List.replicate 9 (.worker 0) ++
    .submit 0 :: List.replicate 5 (.submitter 0) ++ .destroy :: List.replicate 9 (.worker 0) ++
    List.replicate 5 .destructor

theorem pool_executes_once_two :
    ∃ s, run step (init 1 2 1) twoTasks = some s ∧ s.before = [0, 1] ∧
      ∀ x ∈ s.before, s.executed.count x = 1 := by
  have h : (run step (init 1 2 1) twoTasks).map (fun s => (s.destructor, s.before)) =
      some (.returned, [0, 1]) := by
    decide +kernel
  obtain ⟨s, hs, heq⟩ := Option.map_eq_some_iff.mp h
  obtain ⟨hd, hb⟩ := Prod.mk.inj heq
  exact ⟨s, hs, hb, pool_executes_once 1 2 1 (Or.inr ⟨1, rfl⟩) twoTasks s (by decide +kernel) hs hd⟩

/-- A task is in the queue of its worker when the pool is destroyed: the worker sees
`_exit`, and so does the loop that is to empty the queue. -/
theorem pool_drops_queued :
    (run step (init 1 2 1) (.submit 0 :: List.replicate 17 (.submitter 0) ++
        .destroy :: List.replicate 2 (.worker 0) ++ List.replicate 5 .destructor)).map
      (fun s => (s.destructor, s.before, s.executed)) = some (.returned, [0], []) := by
  decide +kernel

end SofaBolt.ThreadPool.Pool
