import SofaBolt.ThreadPool

namespace SofaBolt

namespace SPMCQueue

open SPMC RingIndex

variable {α : Type*} {size : ℕ} {q q' : SPMCQueue α} {x : α}

def left (q : SPMCQueue α) : List α := q.pushed.drop q.readIdx

inductive Ok : ℕ → SPMCQueue α → Prop where
  | zero : Ok 0 (init 0)
  | power {k : ℕ} {q : SPMCQueue α} : q.WF k → Ok (2 ^ k) q

theorem ok_init (h : size = 0 ∨ ∃ k, size = 2 ^ k) : Ok size (init size : SPMCQueue α) := by
  rcases h with rfl | ⟨k, rfl⟩
  · exact .zero
  · exact .power (wf_init k)

theorem Ok.read_le (h : Ok size q) : q.readIdx ≤ q.pushed.length := by
  cases h with
  | zero => exact le_rfl
  | power hw => exact hw.pushed_length.symm ▸ hw.read_le

theorem Ok.consumer_evolves {pc : SPMC.PopPc α} (h : Ok size q) (hc : ConsumerOk q pc)
    (he : Evolves q q') : ConsumerOk q' pc := by
  cases h with
  | power hw => exact hc.evolves hw he
  | zero =>
    cases pc with
    | loadWrite read val => exact le_trans hc he.read_le
    | copy read => exact absurd hc.2 (Nat.not_lt_zero read)
    | claim read val => exact absurd hc.2.1 (Nat.not_lt_zero read)
    | _ => trivial

theorem Ok.pushStep {pc pc' : SPMC.PushPc α} (h : Ok size q) (hp : ProducerOk q pc)
    (hstep : q.pushStep pc = some (q', pc')) : Ok size q' ∧ ProducerOk q' pc' ∧ Evolves q q' := by
  cases h with
  | power hw =>
    obtain ⟨hw', hrest⟩ := hw.pushStep hp hstep
    exact ⟨.power hw', hrest⟩
  | zero =>
    cases pc with
    | loadWrite val =>
      cases hstep
      exact ⟨.zero, rfl, Evolves.refl _⟩
    | loadRead val write =>
      -- the queue is full
      obtain rfl : write = 0 := hp
      cases hstep
      exact ⟨.zero, trivial, Evolves.refl _⟩
    | store val write => exact absurd hp.2.1 (Nat.not_lt_zero write)
    | publish val write => exact absurd hp.2.1 (Nat.not_lt_zero write)
    | _ => cases hstep

theorem Ok.popStep {pc pc' : SPMC.PopPc α} (h : Ok size q) (hc : ConsumerOk q pc)
    (hstep : q.popStep pc = some (q', pc')) : Ok size q' ∧ ConsumerOk q' pc' ∧ Evolves q q' := by
  cases h with
  | power hw =>
    obtain ⟨hw', hrest⟩ := hw.popStep hc hstep
    exact ⟨.power hw', hrest⟩
  | zero =>
    cases pc with
    | loadRead val =>
      cases hstep
      exact ⟨.zero, le_rfl, Evolves.refl _⟩
    | loadWrite read val =>
      obtain rfl : read = 0 := Nat.le_zero.mp hc
      cases hstep
      exact ⟨.zero, trivial, Evolves.refl _⟩
    | copy read => exact absurd hc.2 (Nat.not_lt_zero read)
    | claim read val => exact absurd hc.2.1 (Nat.not_lt_zero read)
    | _ => cases hstep

/-- A push that has returned true has put its value behind the others. -/
theorem Ok.pushStep_left {pc pc' : SPMC.PushPc α} (h : Ok size q)
    (hstep : q.pushStep pc = some (q', pc')) :
    (q'.left = q.left ∧ pc' ≠ .returned true ∧ ∀ val ∈ pc'.val, val ∈ pc.val) ∨
      ∃ val, pc.val = some val ∧ q'.left = q.left ++ [val] ∧ pc' = .returned true := by
  cases pc with
  | loadWrite val =>
    cases hstep
    exact Or.inl ⟨rfl, by simp, fun v hv => hv⟩
  | loadRead val write =>
    cases hstep
    cases isFull q.capacity q.readIdx write with
    | true => exact Or.inl ⟨rfl, by simp, fun v hv => by cases hv⟩
    | false => exact Or.inl ⟨rfl, by simp, fun v hv => hv⟩
  | store val write =>
    cases hstep
    exact Or.inl ⟨rfl, by simp, fun v hv => hv⟩
  | publish val write =>
    cases hstep
    refine Or.inr ⟨val, rfl, ?_, rfl⟩
    exact List.drop_append_of_le_length h.read_le
  | _ => cases hstep

theorem Ok.popStep_left {pc pc' : SPMC.PopPc α} (h : Ok size q) (hc : ConsumerOk q pc)
    (hstep : q.popStep pc = some (q', pc')) :
    (q'.left = q.left ∧ ∀ val, pc' ≠ .returned true val) ∨
      ∃ val, q.left = val :: q'.left ∧ pc' = .returned true (some val) := by
  cases pc with
  | loadRead val =>
    cases hstep
    exact Or.inl ⟨rfl, by simp⟩
  | loadWrite read val =>
    cases hstep
    refine Or.inl ⟨rfl, ?_⟩
    split_ifs <;> simp
  | copy read =>
    cases hstep
    exact Or.inl ⟨rfl, by simp⟩
  | claim read val =>
    obtain ⟨-, hlt, hval⟩ := hc
    simp only [SPMCQueue.popStep] at hstep
    by_cases hr : q.readIdx = read
    · subst hr
      rw [if_pos rfl] at hstep
      cases hstep
      cases h with
      | zero => exact absurd hlt (Nat.not_lt_zero _)
      | power hw =>
        have hlen : q.readIdx < q.pushed.length := hw.pushed_length.symm ▸ hlt
        have hwrap := hw.write_lt
        refine Or.inr ⟨q.pushed[q.readIdx], ?_, ?_⟩
        · rw [left, left, next_eq (by omega)]
          exact List.drop_eq_getElem_cons hlen
        · rw [hval rfl, List.getElem?_eq_getElem hlen]
    · rw [if_neg hr] at hstep
      cases hstep
      exact Or.inl ⟨rfl, by simp⟩
  | _ => cases hstep

end SPMCQueue

namespace ThreadPool

open SPMC Run

def SingleThread.left (td : SingleThread) : List ℕ := td.tasks.elim [] SPMCQueue.left

def WorkerPc.hand : WorkerPc → List ℕ
  | .pop _ _ (.returned true task) => task.toList
  | .execute x _ => [x]
  | .subWakeup task | .unlockWakeup task => task.toList
  | _ => []

/-- What a failed pop has left in `task` when the predicate of the wait is evaluated. -/
def WorkerPc.stale : WorkerPc → Option ℕ
  | .predicate _ task => task
  | _ => none

def Caller.retiring : Caller → Bool
  | .consume status => status = .inactive
  | _ => false

def WorkerPc.retiring : WorkerPc → Bool
  | .tryConsumeOne _ k | .pop _ k _ => k.retiring
  | .execute _ again => again.any fun r => r.2.retiring
  | .storeStandby => true
  | _ => false

def SubmitPc.current : SubmitPc → List ℕ
  | .testExit x | .loadActive x | .getSpecific x | .lockTd x | .scan x _ | .makeQueue x _
  | .storeActive x _ | .addActive x _ | .setSpecific x _ | .unlockTd x _ | .push x _ _
  | .runInline x | .loadWakeup x | .lockWakeup x | .notify x | .ret x => [x]
  | .idle | .deleteLoad | .deleteCas _ _ | .ended => []

def SubmitPc.hand : SubmitPc → List ℕ
  | .push _ _ (.returned true) | .loadWakeup _ | .lockWakeup _ | .notify _ | .ret _ => []
  | pc => pc.current

def SubmitPc.chosen : SubmitPc → Option ℕ
  | .makeQueue _ i | .storeActive _ i => some i
  | _ => none

def SubmitPc.inTd : SubmitPc → Bool
  | .scan _ _ | .makeQueue _ _ | .storeActive _ _ | .addActive _ _ | .setSpecific _ _
  | .unlockTd _ _ => true
  | _ => false

def SubmitPc.target : SubmitPc → Option ℕ
  | .push _ w _ => some w
  | .unlockTd _ td => td
  | _ => none

def SubmitPc.again : SubmitPc → Option EThreadStatus
  | .deleteCas status true => some status
  | _ => none

def Submitter.owns (u : Submitter) : Option ℕ :=
  match u.pc with
  | .addActive _ i | .setSpecific _ i => some i
  | .deleteCas _ true | .ended => none
  | _ => u.paired

namespace Pool

def workerAccess (i : ℕ) : WorkerPc → Option ℕ
  | .loadStatus | .storeStandby => some i
  | .pop w _ _ => some w
  | .stealFrom _ active n | .getFrom _ _ active n => if n < active then some n else none
  | _ => none

def submitterAccess (s : Pool) (u : Submitter) : Option ℕ :=
  match u.pc with
  | .scan _ n => if n < s.tdCapacity then some n else none
  | .makeQueue _ n | .storeActive _ n => some n
  | .push _ w _ => some w
  | .deleteLoad | .deleteCas _ _ => u.paired
  | _ => none

/-- No task of a `submit` that has returned is in a queue when `~ThreadPool` begins; no worker
leaves the wait, because of `_exit`, with a task that a failed pop has left; the second
compare-exchange of `deleteThreadLocalPairThread` fails; no worker is accessed that has been
deleted. -/
def Granted (s : Pool) : Act → Prop
  | .submit _ | .endThread _ | .destructor => True
  | .destroy => ∀ x ∈ s.returned, x ∉ s.tds.flatMap SingleThread.left
  | .worker i => ∀ pc ∈ s.workers[i]?,
    (∀ w ∈ workerAccess i pc, ∃ td ∈ s.tds[w]?, td.deleted = false) ∧
      (s.exit = true → pc.stale = none)
  | .submitter j => ∀ u ∈ s.submitters[j]?,
    (∀ w ∈ s.submitterAccess u, ∃ td ∈ s.tds[w]?, td.deleted = false) ∧
      ∀ status ∈ u.pc.again, ∀ w ∈ u.paired, ∀ td ∈ s.tds[w]?, td.status ≠ status

instance (s : Pool) (a : Act) : Decidable (Granted s a) := by
  cases a <;> unfold Granted <;> infer_instance

/-- The worker gets on with what it has; it executes its task; it becomes STANDBY; or it is
in a pop. -/
inductive WorkerMove (s : Pool) (i : ℕ) (pc : WorkerPc) : Pool → Prop where
  | quiet {pc' : WorkerPc} {active need : ℕ} {locked : Bool} : pc'.hand = pc.hand →
    (∀ w k pop, pc' = .pop w k pop → ∃ task, pop = .loadRead task) →
    (pc'.retiring = true → pc.retiring = true ∨
      ∃ td ∈ s.tds[i]?, td.status = .inactive) →
    WorkerMove s i pc { s with
      workers := s.workers.set i pc'
      activeTdSize := active
      needWakeup := need
      wakeupMtx := locked }
  | execute {x : ℕ} {again : Option (ℕ × Caller)} : pc = .execute x again →
    WorkerMove s i pc { s with
      executed := s.executed ++ [x]
      workers := s.workers.set i (again.elim .loop fun r => .tryConsumeOne r.1 r.2) }
  | standby {td : SingleThread} : pc = .storeStandby → s.tds[i]? = some td →
    WorkerMove s i pc { s with
      tds := s.tds.set i { td with status := .standby }
      workers := s.workers.set i .subActive }
  | pop {w : ℕ} {k : Caller} {pop pop' : SPMC.PopPc ℕ} {td : SingleThread} {q q' : SPMCQueue ℕ} :
    pc = .pop w k pop → s.tds[w]? = some td → td.tasks = some q →
    q.popStep pop = some (q', pop') →
    WorkerMove s i pc { s with
      tds := s.tds.set w { td with tasks := some q' }
      workers := s.workers.set i (.pop w k pop') }

variable {s s' : Pool} {i j : ℕ} {pc pc' : WorkerPc} {u u' : Submitter}

/-- What a worker tries next has neither been popped nor does it pop yet. -/
theorem failed_hand (k : Caller) (task : Option ℕ) : (k.failed task).hand = [] := by
  cases k with
  | consume status =>
    rw [Caller.failed]
    split_ifs <;> rfl
  | _ => rfl

theorem failed_ne_pop (k : Caller) (task : Option ℕ) (w : ℕ) (k' : Caller) (pop : SPMC.PopPc ℕ) :
    k.failed task ≠ .pop w k' pop := by
  cases k with
  | consume status =>
    rw [Caller.failed]
    split_ifs <;> simp
  | _ => simp [Caller.failed]

theorem failed_retiring {k : Caller} {task : Option ℕ} (h : (k.failed task).retiring = true) :
    k.retiring = true := by
  cases k with
  | consume status =>
    rw [Caller.failed] at h
    split_ifs at h with hst
    · simpa [Caller.retiring] using hst
    · cases h
  | _ => cases h

theorem got_retiring {k : Caller} {w x : ℕ} (h : (k.got w x).retiring = true) :
    k.retiring = true := by
  cases k with
  | consume status => exact h
  | _ => cases h

theorem WorkerMove.on {active need : ℕ} {locked : Bool} (hhand : pc.hand = [])
    (hhand' : pc'.hand = []) (hpop : ∀ w k pop, pc' ≠ .pop w k pop) (hret : pc'.retiring = false) :
    WorkerMove s i pc { s with
      workers := s.workers.set i pc'
      activeTdSize := active
      needWakeup := need
      wakeupMtx := locked } :=
  .quiet (hhand'.trans hhand.symm) (fun w k pop h => absurd h (hpop w k pop))
    (fun h => by rw [hret] at h; cases h)

theorem workerStep_move (hstale : s.exit = true → pc.stale = none)
    (h : s.workerStep i pc = some s') : WorkerMove s i pc s' := by
  cases pc with
  | loop =>
    cases h
    cases s.exit with
    | true => exact .on rfl rfl (by simp) rfl
    | false => exact .on rfl rfl (by simp) rfl
  | loadStatus =>
    obtain ⟨td, htd, h⟩ := Option.map_eq_some_iff.mp h
    cases h
    by_cases hst : td.status = .active ∨ td.status = .inactive
    · rw [if_pos hst]
      refine .quiet rfl (by simp) fun hret => Or.inr ⟨td, htd, ?_⟩
      exact of_decide_eq_true hret
    · rw [if_neg hst]
      exact .on rfl rfl (by simp) rfl
  | tryConsumeOne w k =>
    cases h
    cases s.exit with
    | true =>
      refine .quiet (failed_hand k none) (fun w k' pop h => absurd h (failed_ne_pop k _ w k' pop))
        fun hret => Or.inl (failed_retiring hret)
    | false =>
      refine .quiet rfl (fun w' k' pop h => ?_) Or.inl
      cases h
      exact ⟨none, rfl⟩
  | pop w k pop =>
    cases pop with
    | returned result task =>
      cases result with
      | false =>
        cases h
        exact .quiet (failed_hand k task)
          (fun w k' pop h => absurd h (failed_ne_pop k _ w k' pop))
          fun hret => Or.inl (failed_retiring hret)
      | true =>
        obtain ⟨x, rfl, h⟩ := Option.map_eq_some_iff.mp h
        cases h
        refine .quiet ?_ ?_ fun hret => Or.inl (got_retiring hret)
        · cases k <;> rfl
        · intro w' k' pop h
          cases k <;> cases h
    | _ =>
      obtain ⟨td, htd, h⟩ := Option.bind_eq_some_iff.mp h
      obtain ⟨q, hq, h⟩ := Option.bind_eq_some_iff.mp h
      obtain ⟨⟨q', pop'⟩, hstep, h⟩ := Option.map_eq_some_iff.mp h
      cases h
      exact .pop rfl htd hq hstep
  | execute x again =>
    cases h
    exact .execute rfl
  | storeStandby =>
    obtain ⟨td, htd, h⟩ := Option.map_eq_some_iff.mp h
    cases h
    exact .standby rfl htd
  | subActive =>
    cases h
    exact .on rfl rfl (by simp) rfl
  | tryStealOne status =>
    cases h
    cases s.exit with
    | true => exact .on rfl rfl (by simp) rfl
    | false => exact .on rfl rfl (by simp) rfl
  | loadActive status =>
    cases h
    exact .on rfl rfl (by simp) rfl
  | stealFrom status active n =>
    rw [workerStep] at h
    split_ifs at h
    · obtain ⟨td, htd, h⟩ := Option.map_eq_some_iff.mp h
      cases h
      split_ifs
      · exact .on rfl rfl (by simp) rfl
      · exact .on rfl rfl (by simp) rfl
    · cases h
      exact .on rfl rfl (by simp) rfl
  | lockWakeup status =>
    rw [workerStep] at h
    split_ifs at h
    cases h
    exact .on rfl rfl (by simp) rfl
  | addWakeup status =>
    cases h
    exact .on rfl rfl (by simp) rfl
  | predicate status task =>
    cases h
    cases hexit : s.exit with
    | true =>
      obtain rfl : task = none := hstale hexit
      exact .on rfl rfl (by simp) rfl
    | false =>
      by_cases hst : status = .standby
      · simp only [hst, if_true, Bool.false_eq_true, if_false]
        exact .on rfl rfl (by simp) rfl
      · simp only [hst, Bool.false_eq_true, if_false]
        refine .quiet rfl (fun w k pop h => ?_) (fun hret => by cases hret)
        cases h
        exact ⟨task, rfl⟩
  | getActive status task =>
    cases h
    exact .on rfl rfl (by simp) rfl
  | getFrom status task active n =>
    rw [workerStep] at h
    split_ifs at h
    · obtain ⟨td, htd, h⟩ := Option.map_eq_some_iff.mp h
      cases h
      split_ifs
      · exact .on rfl rfl (by simp) rfl
      · refine .quiet rfl (fun w k pop h => ?_) (fun hret => by cases hret)
        cases h
        exact ⟨task, rfl⟩
    · cases h
      exact .on rfl rfl (by simp) rfl
  | wait status task =>
    cases h
    exact .on rfl rfl (by simp) rfl
  | asleep status task =>
    cases h
    exact .on rfl rfl (by simp) rfl
  | awake status task =>
    rw [workerStep] at h
    split_ifs at h
    cases h
    exact .on rfl rfl (by simp) rfl
  | subWakeup task =>
    cases h
    exact .quiet rfl (by simp) (fun hret => by cases hret)
  | unlockWakeup task =>
    cases h
    cases task with
    | none => exact .on rfl rfl (by simp) rfl
    | some x => exact .quiet rfl (by simp) (fun hret => by cases hret)
  | exited => cases h

/-- A worker is paired with one thread at most, and it is ACTIVE as long; a thread that has
chosen a worker is alone with it; and a worker becomes STANDBY only when it is INACTIVE. -/
structure Paired (st : ℕ → Option EThreadStatus) (us : List Submitter) (mtx : Option ℕ)
    (ws : List WorkerPc) : Prop where
  active : ∀ u ∈ us, ∀ w ∈ u.owns, st w = some .active
  unique : ∀ (j j' : ℕ) (u u' : Submitter) (w : ℕ), us[j]? = some u → us[j']? = some u' →
    w ∈ u.owns → w ∈ u'.owns → j = j'
  target : ∀ u ∈ us, ∀ w ∈ u.pc.target, u.paired = some w
  chosen : ∀ u ∈ us, ∀ w ∈ u.pc.chosen, st w = some .standby
  locked : ∀ (j : ℕ) (u : Submitter), us[j]? = some u → u.pc.inTd = true → mtx = some j
  expected : ∀ u ∈ us, ∀ status again, u.pc = .deleteCas status again → status = .active
  retiring : ∀ (i : ℕ) (pc : WorkerPc), ws[i]? = some pc → pc.retiring = true → st i = some .inactive

section Paired

variable {st st' : ℕ → Option EThreadStatus} {us : List Submitter} {mtx mtx' : Option ℕ}
  {ws : List WorkerPc} {w : ℕ}

theorem inTd_of_chosen {pc : SubmitPc} (h : w ∈ pc.chosen) : pc.inTd = true := by
  cases pc with
  | makeQueue x i => rfl
  | storeActive x i => rfl
  | _ => cases h

theorem Paired.worker (h : Paired st us mtx ws) (hi : ws[i]? = some pc)
    (hret : pc'.retiring = true → st i = some .inactive) : Paired st us mtx (ws.set i pc') := by
  refine { h with retiring := fun n pc₁ hn hret₁ => ?_ }
  by_cases hni : n = i
  · subst hni
    rw [List.getElem?_set_self (List.getElem?_eq_some_iff.mp hi).1] at hn
    exact hret (Option.some.inj hn ▸ hret₁)
  · rw [List.getElem?_set_ne (Ne.symm hni)] at hn
    exact h.retiring n pc₁ hn hret₁

theorem Paired.wake (h : Paired st us mtx ws) : Paired st us mtx (ws.map wake) := by
  refine { h with retiring := fun n pc₁ hn hret => ?_ }
  rw [List.getElem?_map, Option.map_eq_some_iff] at hn
  obtain ⟨pc₀, hpc₀, rfl⟩ := hn
  refine h.retiring n pc₀ hpc₀ ?_
  cases pc₀ <;> exact hret

/-- The status of a worker changes that is paired with nobody and that nobody has chosen. -/
theorem Paired.status (h : Paired st us mtx ws) (hst : ∀ v, v ≠ w → st' v = st v)
    (hactive : ∀ u ∈ us, w ∉ u.owns) (hchosen : ∀ u ∈ us, w ∈ u.pc.chosen → st' w = some .standby)
    (hret : ∀ pc, ws[w]? = some pc → pc.retiring = true → st' w = some .inactive) :
    Paired st' us mtx ws := by
  refine { h with active := fun u hu v hv => ?_, chosen := fun u hu v hv => ?_, retiring := ?_ }
  · have hne : v ≠ w := by
      rintro rfl
      exact hactive u hu hv
    rw [hst v hne]
    exact h.active u hu v hv
  · by_cases hvw : v = w
    · subst hvw
      exact hchosen u hu hv
    · rw [hst v hvw]
      exact h.chosen u hu v hv
  · intro n pc hn hr
    by_cases hnw : n = w
    · subst hnw
      exact hret pc hn hr
    · rw [hst n hnw]
      exact h.retiring n pc hn hr

/-- A thread moves on; what it owns now it did own, or nobody does. -/
theorem Paired.submitter (h : Paired st us mtx ws) (hj : us[j]? = some u)
    (howns : ∀ w ∈ u'.owns, w ∈ u.owns ∨ st w = some .active ∧ ∀ r ∈ us, w ∉ r.owns)
    (htarget : ∀ w ∈ u'.pc.target, u'.paired = some w)
    (hchosen : ∀ w ∈ u'.pc.chosen, st w = some .standby)
    (hlock : u'.pc.inTd = true → mtx' = some j)
    (hmtx : ∀ j', j' ≠ j → mtx = some j' → mtx' = some j')
    (hexp : ∀ status again, u'.pc = .deleteCas status again → status = .active) :
    Paired st (us.set j u') mtx' ws := by
  have hmem : ∀ r ∈ us.set j u', r = u' ∨ r ∈ us := fun r hr =>
    (List.mem_or_eq_of_mem_set hr).symm
  have hu := mem_of_getElem? hj
  constructor
  case active =>
    intro r hr w hw
    rcases hmem r hr with rfl | hr
    · rcases howns w hw with hw | ⟨hw, -⟩
      · exact h.active u hu w hw
      · exact hw
    · exact h.active r hr w hw
  case unique =>
    -- what another thread owns is not new
    have hother : ∀ n r w, us[n]? = some r → w ∈ r.owns → w ∈ u'.owns → n = j := by
      intro n r w hn hw hw'
      rcases howns w hw' with hw' | ⟨-, hno⟩
      · exact h.unique n j r u w hn hj hw hw'
      · exact absurd hw (hno r (mem_of_getElem? hn))
    intro n n' r r' w hn hn' hw hw'
    rcases getElem?_set_cases hj hn with ⟨rfl, rfl⟩ | ⟨-, hn₁⟩
    · rcases getElem?_set_cases hj hn' with ⟨rfl, -⟩ | ⟨-, hn₁'⟩
      · rfl
      · exact (hother n' r' w hn₁' hw' hw).symm
    · rcases getElem?_set_cases hj hn' with ⟨rfl, rfl⟩ | ⟨-, hn₁'⟩
      · exact hother n r w hn₁ hw hw'
      · exact h.unique n n' r r' w hn₁ hn₁' hw hw'
  case target =>
    intro r hr
    rcases hmem r hr with rfl | hr
    · exact htarget
    · exact h.target r hr
  case chosen =>
    intro r hr
    rcases hmem r hr with rfl | hr
    · exact hchosen
    · exact h.chosen r hr
  case locked =>
    intro n r hn hin
    rcases getElem?_set_cases hj hn with ⟨rfl, rfl⟩ | ⟨hne, hn⟩
    · exact hlock hin
    · exact hmtx n hne (h.locked n r hn hin)
  case expected =>
    intro r hr
    rcases hmem r hr with rfl | hr
    · exact hexp
    · exact h.expected r hr
  case retiring => exact h.retiring

theorem Paired.standby (h : Paired st us mtx ws) (hi : ws[i]? = some .storeStandby) :
    Paired (Function.update st i (some .standby)) us mtx (ws.set i .subActive) := by
  have hst := h.retiring i _ hi rfl
  refine (h.worker hi (fun hret => by cases hret)).status (fun v hv => Function.update_of_ne hv _ _)
    (fun u hu hown => ?_) (fun u _ _ => Function.update_self _ _ _) fun pc hpc hret => ?_
  · cases hst.symm.trans (h.active u hu i hown)
  · rw [List.getElem?_set_self (List.getElem?_eq_some_iff.mp hi).1] at hpc
    cases hpc
    cases hret

/-- A thread makes the worker ACTIVE that it has chosen, and owns it. -/
theorem Paired.storeActive {x : ℕ} {paired : Option ℕ} (h : Paired st us mtx ws)
    (hj : us[j]? = some ⟨.storeActive x w, paired⟩) :
    Paired (Function.update st w (some .active)) (us.set j ⟨.addActive x w, paired⟩) mtx ws := by
  have hmtx := h.locked j _ hj rfl
  have hst := h.chosen _ (mem_of_getElem? hj) w rfl
  have hfree : ∀ r ∈ us, w ∉ r.owns := by
    intro r hr hw
    cases hst.symm.trans (h.active r hr w hw)
  have hlt := (List.getElem?_eq_some_iff.mp hj).1
  have hfree' : ∀ r ∈ us.set j ⟨.scan x 0, paired⟩, w ∉ r.owns := by
    intro r hr
    rcases List.mem_or_eq_of_mem_set hr with hr | rfl
    · exact hfree r hr
    · exact hfree ⟨.storeActive x w, paired⟩ (mem_of_getElem? hj)
  -- for a moment it has let go of the worker
  have h₁ : Paired st (us.set j ⟨.scan x 0, paired⟩) mtx ws :=
    h.submitter hj (fun v hv => Or.inl hv) (by simp [SubmitPc.target])
      (by simp [SubmitPc.chosen]) (fun _ => hmtx) (fun _ _ => id) (by simp)
  have h₂ : Paired (Function.update st w (some .active)) (us.set j ⟨.scan x 0, paired⟩) mtx ws := by
    refine h₁.status (fun v hv => Function.update_of_ne hv _ _) hfree' (fun r hr hw => ?_)
      fun pc hpc hret => ?_
    · obtain ⟨n, hn⟩ := List.mem_iff_getElem?.mp hr
      have hjn := h₁.locked n r hn (inTd_of_chosen hw)
      obtain rfl : n = j := Option.some.inj (hjn.symm.trans hmtx)
      rw [List.getElem?_set_self hlt] at hn
      cases hn
      cases hw
    · cases hst.symm.trans (h₁.retiring w pc hpc hret)
  have h₃ : Paired (Function.update st w (some .active))
      ((us.set j ⟨.scan x 0, paired⟩).set j ⟨.addActive x w, paired⟩) mtx ws := by
    refine h₂.submitter (List.getElem?_set_self hlt) (fun v hv => ?_) (by simp [SubmitPc.target])
      (by simp [SubmitPc.chosen]) (fun _ => hmtx) (fun _ _ => id) (by simp)
    obtain rfl : w = v := Option.some.inj hv
    exact Or.inr ⟨Function.update_self _ _ _, hfree'⟩
  rwa [List.set_set] at h₃

theorem Paired.inactive {status : EThreadStatus} (h : Paired st us mtx ws)
    (hj : us[j]? = some ⟨.deleteCas status false, some w⟩) :
    Paired (Function.update st w (some .inactive))
      (us.set j ⟨.deleteCas status true, some w⟩) mtx ws := by
  have hst := h.active _ (mem_of_getElem? hj) w rfl
  have h₁ : Paired st (us.set j ⟨.deleteCas status true, some w⟩) mtx ws :=
    h.submitter hj (fun v hv => by cases hv) (by simp [SubmitPc.target])
      (by simp [SubmitPc.chosen]) (fun hin => by cases hin) (fun _ _ => id)
      (fun st' again hpc => by
        cases hpc
        exact h.expected _ (mem_of_getElem? hj) status false rfl)
  refine h₁.status (fun v hv => Function.update_of_ne hv _ _) (fun r hr hw => ?_)
    (fun r hr hw => ?_) fun _ _ _ => Function.update_self _ _ _
  · obtain ⟨n, hn⟩ := List.mem_iff_getElem?.mp hr
    by_cases hnj : n = j
    · subst hnj
      rw [List.getElem?_set_self (List.getElem?_eq_some_iff.mp hj).1] at hn
      cases hn
      cases hw
    · rw [List.getElem?_set_ne (Ne.symm hnj)] at hn
      exact hnj (h.unique n j r _ w hn hj hw rfl)
  · cases hst.symm.trans (h₁.chosen r hr w hw)

end Paired

structure Queued (size : ℕ) (tk : ℕ → Option (SPMCQueue ℕ)) (us : List Submitter)
    (ws : List WorkerPc) : Prop where
  ok : ∀ w q, tk w = some q → q.Ok size
  pops : ∀ pc ∈ ws, ∀ w k pop, pc = .pop w k pop →
    (∃ task, pop = .loadRead task) ∨ ∃ q, tk w = some q ∧ q.ConsumerOk pop
  pushes : ∀ u ∈ us, ∀ x w pc, u.pc = .push x w pc →
    pc = .loadWrite x ∨ ∃ q, tk w = some q ∧ q.ProducerOk pc ∧ ∀ val ∈ pc.val, val = x

section Queued

variable {size w : ℕ} {tk : ℕ → Option (SPMCQueue ℕ)} {us : List Submitter} {ws : List WorkerPc}
  {q q' : SPMCQueue ℕ}

theorem Queued.worker (h : Queued size tk us ws)
    (hpop : ∀ w k pop, pc' = .pop w k pop → ∃ task, pop = .loadRead task) :
    Queued size tk us (ws.set i pc') := by
  refine { h with pops := fun pc hpc w k pop heq => ?_ }
  rcases List.mem_or_eq_of_mem_set hpc with hpc | rfl
  · exact h.pops pc hpc w k pop heq
  · exact Or.inl (hpop w k pop heq)

theorem Queued.wake (h : Queued size tk us ws) : Queued size tk us (ws.map wake) := by
  refine { h with pops := fun pc hpc w k pop heq => ?_ }
  obtain ⟨pc₀, hpc₀, rfl⟩ := List.mem_map.mp hpc
  refine h.pops pc₀ hpc₀ w k pop ?_
  cases pc₀ <;> first | exact heq | cases heq

theorem Queued.submitter (h : Queued size tk us ws)
    (hpush : ∀ x w pc, u'.pc = .push x w pc → pc = .loadWrite x) :
    Queued size tk (us.set j u') ws := by
  refine { h with pushes := fun u hu x w pc heq => ?_ }
  rcases List.mem_or_eq_of_mem_set hu with hu | rfl
  · exact h.pushes u hu x w pc heq
  · exact Or.inl (hpush x w pc heq)

theorem Queued.ok_update (h : Queued size tk us ws) (hok : q'.Ok size) :
    ∀ v q₀, Function.update tk w (some q') v = some q₀ → q₀.Ok size := by
  intro v q₀ hv
  by_cases hvw : v = w
  · rw [hvw, Function.update_self] at hv
    exact Option.some.inj hv ▸ hok
  · rw [Function.update_of_ne hvw] at hv
    exact h.ok v q₀ hv

theorem Queued.pops_evolve (h : Queued size tk us ws) (hq : tk w = some q)
    (he : SPMCQueue.Evolves q q') : ∀ pc ∈ ws, ∀ v k pop, pc = .pop v k pop →
    (∃ task, pop = .loadRead task) ∨
      ∃ q₀, Function.update tk w (some q') v = some q₀ ∧ q₀.ConsumerOk pop := by
  intro pc hpc v k pop heq
  rcases h.pops pc hpc v k pop heq with hload | ⟨q₀, hq₀, hc⟩
  · exact Or.inl hload
  · by_cases hvw : v = w
    · subst hvw
      obtain rfl := Option.some.inj (hq.symm.trans hq₀)
      exact Or.inr ⟨q', Function.update_self _ _ _, (h.ok v q hq).consumer_evolves hc he⟩
    · exact Or.inr ⟨q₀, by rw [Function.update_of_ne hvw, hq₀], hc⟩

theorem Queued.consumer {k : Caller} {pop : SPMC.PopPc ℕ} (h : Queued size tk us ws)
    (hi : ws[i]? = some (.pop w k pop)) (hq : tk w = some q) : q.ConsumerOk pop := by
  rcases h.pops _ (mem_of_getElem? hi) w k pop rfl with ⟨task, rfl⟩ | ⟨q₀, hq₀, hc⟩
  · trivial
  · exact Option.some.inj (hq₀.symm.trans hq) ▸ hc

theorem Queued.pop {k : Caller} {pop pop' : SPMC.PopPc ℕ} (h : Queued size tk us ws)
    (hi : ws[i]? = some (.pop w k pop)) (hq : tk w = some q)
    (hstep : q.popStep pop = some (q', pop')) :
    Queued size (Function.update tk w (some q')) us (ws.set i (.pop w k pop')) := by
  obtain ⟨hok, hc, he⟩ := (h.ok w q hq).popStep (h.consumer hi hq) hstep
  refine ⟨h.ok_update hok, fun pc hpc v k' p heq => ?_, fun u hu x v pc heq => ?_⟩
  · rcases List.mem_or_eq_of_mem_set hpc with hpc | rfl
    · exact h.pops_evolve hq he pc hpc v k' p heq
    · cases heq
      exact Or.inr ⟨q', Function.update_self _ _ _, hc⟩
  · rcases h.pushes u hu x v pc heq with hload | ⟨q₀, hq₀, hp, hval⟩
    · exact Or.inl hload
    · by_cases hvw : v = w
      · subst hvw
        obtain rfl := Option.some.inj (hq.symm.trans hq₀)
        exact Or.inr ⟨q', Function.update_self _ _ _, hp.popStep he hstep, hval⟩
      · exact Or.inr ⟨q₀, by rw [Function.update_of_ne hvw, hq₀], hp, hval⟩

theorem Queued.producer {x : ℕ} {pc : SPMC.PushPc ℕ} {paired : Option ℕ} (h : Queued size tk us ws)
    (hj : us[j]? = some ⟨.push x w pc, paired⟩) (hq : tk w = some q) :
    q.ProducerOk pc ∧ ∀ val ∈ pc.val, val = x := by
  rcases h.pushes _ (mem_of_getElem? hj) x w pc rfl with rfl | ⟨q₀, hq₀, hp⟩
  · exact ⟨trivial, fun val hval => (Option.some.inj hval).symm⟩
  · exact Option.some.inj (hq₀.symm.trans hq) ▸ hp

/-- A thread is in a push, and no other one pushes to the same queue. -/
theorem Queued.push {x : ℕ} {pc pc' : SPMC.PushPc ℕ} {paired : Option ℕ} (h : Queued size tk us ws)
    (hj : us[j]? = some ⟨.push x w pc, paired⟩) (hq : tk w = some q)
    (halone : ∀ n r, us[n]? = some r → r.pc.target = some w → n = j)
    (hstep : q.pushStep pc = some (q', pc')) :
    Queued size (Function.update tk w (some q')) (us.set j ⟨.push x w pc', paired⟩) ws := by
  obtain ⟨hp, hval⟩ := h.producer hj hq
  obtain ⟨hok, hp', he⟩ := (h.ok w q hq).pushStep hp hstep
  refine ⟨h.ok_update hok, h.pops_evolve hq he, fun u hu y v pc₀ heq => ?_⟩
  obtain ⟨n, hn⟩ := List.mem_iff_getElem?.mp hu
  by_cases hnj : n = j
  · subst hnj
    rw [List.getElem?_set_self (List.getElem?_eq_some_iff.mp hj).1] at hn
    cases hn
    cases heq
    refine Or.inr ⟨q', Function.update_self _ _ _, hp', fun val hv => ?_⟩
    rcases (h.ok w q hq).pushStep_left hstep with ⟨-, -, hkeep⟩ | ⟨-, -, -, rfl⟩
    · exact hval val (hkeep val hv)
    · cases hv
  · rw [List.getElem?_set_ne (Ne.symm hnj)] at hn
    have hvw : v ≠ w := by
      rintro rfl
      exact hnj (halone n u hn (by rw [heq]; rfl))
    rcases h.pushes u (mem_of_getElem? hn) y v pc₀ heq with hload | ⟨q₀, hq₀, hrest⟩
    · exact Or.inl hload
    · exact Or.inr ⟨q₀, by rw [Function.update_of_ne hvw, hq₀], hrest⟩

theorem Queued.make (h : Queued size tk us ws) (hsize : size = 0 ∨ ∃ k, size = 2 ^ k)
    (hq : tk w = none) :
    Queued size (Function.update tk w (some (SPMCQueue.init size))) us ws := by
  have hother : ∀ {v q₀}, tk v = some q₀ →
      Function.update tk w (some (SPMCQueue.init size)) v = some q₀ := by
    intro v q₀ hv
    rw [Function.update_of_ne, hv]
    rintro rfl
    cases hq.symm.trans hv
  refine ⟨h.ok_update (SPMCQueue.ok_init hsize), fun pc hpc v k pop heq => ?_,
    fun u hu x v pc heq => ?_⟩
  · refine (h.pops pc hpc v k pop heq).imp_right ?_
    rintro ⟨q₀, hq₀, hc⟩
    exact ⟨q₀, hother hq₀, hc⟩
  · refine (h.pushes u hu x v pc heq).imp_right ?_
    rintro ⟨q₀, hq₀, hrest⟩
    exact ⟨q₀, hother hq₀, hrest⟩

end Queued

end Pool

end ThreadPool

end SofaBolt
