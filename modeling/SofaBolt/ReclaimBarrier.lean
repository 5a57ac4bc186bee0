import SofaBolt.LoopThreads

namespace SofaBolt

open Run Schedule

inductive WatchPc where
  | idle
  | collecting
  | clearing (curIdx : ℕ) (flags : List Bool)
  | adding (curIdx : ℕ)
  | waiting (curIdx : ℕ)
deriving DecidableEq, Repr

/-- The socket manager and the loop threads.  A socket is numbered by when it was
made, and `sockets` has the descriptors; a socket of `reclaimList` comes with the
time it was removed from its loop thread at. -/
structure SocketManager where
  threads : List LoopThread
  reclaimFd : ℕ
  sockets : List ℕ
  list : List ℕ
  reclaimList : List (ℕ × ℕ)
  reclaimCounter : ℕ
  reclaimNotifyFlag : List Bool
  pc : WatchPc
  clock : ℕ
deriving DecidableEq, Repr

inductive ManagerAct where
  /-- A socket is connected, added to its loop thread and watched. -/
  | connect (fd : ℕ)
  | watch
  /-- `tryExclusive` has succeeded for the socket. -/
  | collect (x : ℕ)
  /-- There is nothing to reclaim. -/
  | skip
  | round
  | clear
  | add
  /-- `wait_for` returns, by a notification or after 500 ms. -/
  | wake
  | fetch (t : ℕ) (ready : List ℕ)
  | call (t : ℕ)
  | handle (t : ℕ)
deriving DecidableEq, Repr

namespace SocketManager

def init (n reclaimFd : ℕ) : SocketManager where
  threads := List.replicate n .start
  reclaimFd := reclaimFd
  sockets := []
  list := []
  reclaimList := []
  reclaimCounter := 0
  reclaimNotifyFlag := List.replicate n false
  pc := .idle
  clock := 0

/-- `_on_read` is added by the descriptor; a socket that could not be added is not
watched. -/
def connect (s : SocketManager) (fd : ℕ) : SocketManager :=
  let x := s.sockets.length
  let added := addScheduleInternal s.threads ⟨fd, .onRead x, s.clock⟩ (-1)
  { s with
    threads := added.1
    sockets := s.sockets ++ [fd]
    list := if added.2 then s.list ++ [x] else s.list
    clock := s.clock + 1 }

def collect (s : SocketManager) (x fd : ℕ) : SocketManager :=
  { s with
    threads := removeSchedule s.threads fd (-1)
    list := s.list.erase x
    reclaimList := s.reclaimList ++ [(x, s.clock)]
    clock := s.clock + 1 }

def curIdx (s : SocketManager) : ℕ := s.reclaimCounter % s.threads.length

/-- An assignment to one of the flags of a `std::vector<bool>`, which has 64 of them in a word: the
word is read, here when the flags were `loaded`, and written back as a whole. -/
def storeFlag (flags loaded : List Bool) (i : ℕ) (value : Bool) : List Bool :=
  flags.mapIdx fun j flag =>
    if j = i then value else if j / 64 = i / 64 then loaded.getD j flag else flag

def add (s : SocketManager) (curIdx : ℕ) : SocketManager :=
  { s with
    threads := (addScheduleInternal s.threads ⟨s.reclaimFd, .onReclaim curIdx, s.clock⟩ curIdx).1
    pc := .waiting curIdx
    clock := s.clock + 1 }

def isReleased (s : SocketManager) (curIdx x : ℕ) : Bool :=
  s.reclaimNotifyFlag.getD curIdx false && s.sockets.getD x 0 % s.threads.length == curIdx

def handle (s : SocketManager) (t : ℕ) : HandlerPc → Option SocketManager
  | .handling e =>
    match e.handler with
    | .onRead _ => some { s with
        threads := s.threads.modify t fun th => { th with pc := .polling } }
    | .onReclaim _ => some { s with
        threads := s.threads.modify t fun th => { th with pc := .setting e s.reclaimNotifyFlag } }
  | .setting e flags =>
    match e.handler with
    | .onRead _ => none
    | .onReclaim i => some { s with
        reclaimNotifyFlag := storeFlag s.reclaimNotifyFlag flags i true
        threads := s.threads.modify t fun th => { th with pc := .removing i } }
  | .removing i => some { s with
      threads := (removeSchedule s.threads s.reclaimFd i).modify t fun th =>
        { th with pc := .polling } }
  | .polling => none

def step (s : SocketManager) : ManagerAct → Option SocketManager
  -- the descriptor of the pipe is in use
  | .connect fd => if fd = s.reclaimFd then none else some (s.connect fd)
  | .watch => if s.pc = .idle then some { s with pc := .collecting } else none
  | .collect x =>
    if s.pc = .collecting ∧ x ∈ s.list then (s.sockets[x]?).map (s.collect x) else none
  | .skip =>
    if s.pc = .collecting ∧ s.reclaimList = [] then some { s with pc := .idle } else none
  | .round =>
    if s.pc = .collecting ∧ s.reclaimList ≠ [] then
      some { s with
        reclaimCounter := (s.reclaimCounter + 1) % 2 ^ 64
        pc := .clearing s.curIdx s.reclaimNotifyFlag }
    else none
  | .clear =>
    match s.pc with
    | .clearing curIdx flags => some { s with
        reclaimNotifyFlag := storeFlag s.reclaimNotifyFlag flags curIdx false
        pc := .adding curIdx }
    | _ => none
  | .add =>
    match s.pc with
    | .adding curIdx => some (s.add curIdx)
    | _ => none
  | .wake =>
    match s.pc with
    | .waiting curIdx => some { s with
        reclaimList := s.reclaimList.filter fun r => !s.isReleased curIdx r.1
        pc := .idle }
    | _ => none
  | .fetch t ready =>
    (s.threads[t]?).bind fun th =>
      if th.pc = .polling ∧ th.batch = [] then
        some { s with threads := s.threads.modify t fun th => th.fetch ready s.clock }
      else none
  | .call t =>
    (s.threads[t]?).bind fun th =>
      match th.pc, th.batch with
      | .polling, e :: _ => some { s with threads := s.threads.modify t fun th => th.call e }
      | _, _ => none
  | .handle t => (s.threads[t]?).bind fun th => s.handle t th.pc

variable {s s' : SocketManager} {t : ℕ}

theorem step_connect {fd : ℕ} (h : s.step (.connect fd) = some s') :
    fd ≠ s.reclaimFd ∧ s' = s.connect fd := by
  simp only [step] at h
  split_ifs at h with hfd
  exact ⟨hfd, (Option.some.inj h).symm⟩

theorem step_clear (h : s.step .clear = some s') :
    ∃ c flags, s.pc = .clearing c flags ∧ s' = { s with
      reclaimNotifyFlag := storeFlag s.reclaimNotifyFlag flags c false
      pc := .adding c } := by
  simp only [step] at h
  split at h
  case h_1 c flags hpc => exact ⟨c, flags, hpc, (Option.some.inj h).symm⟩
  case h_2 => cases h

theorem step_add (h : s.step .add = some s') : ∃ c, s.pc = .adding c ∧ s' = s.add c := by
  simp only [step] at h
  split at h
  case h_1 c hpc => exact ⟨c, hpc, (Option.some.inj h).symm⟩
  case h_2 => cases h

theorem step_wake (h : s.step .wake = some s') :
    ∃ c, s.pc = .waiting c ∧ s' = { s with
      reclaimList := s.reclaimList.filter fun r => !s.isReleased c r.1
      pc := .idle } := by
  simp only [step] at h
  split at h
  case h_1 c hpc => exact ⟨c, hpc, (Option.some.inj h).symm⟩
  case h_2 => cases h

theorem step_fetch {ready : List ℕ} (h : s.step (.fetch t ready) = some s') :
    ∃ th, s.threads[t]? = some th ∧ th.pc = .polling ∧
      s' = { s with threads := s.threads.modify t fun th => th.fetch ready s.clock } := by
  obtain ⟨th, hth, h⟩ := Option.bind_eq_some_iff.mp h
  split_ifs at h with hpc
  exact ⟨th, hth, hpc.1, (Option.some.inj h).symm⟩

theorem step_call (h : s.step (.call t) = some s') :
    ∃ th e rest, s.threads[t]? = some th ∧ th.batch = e :: rest ∧
      s' = { s with threads := s.threads.modify t fun th => th.call e } := by
  obtain ⟨th, hth, h⟩ := Option.bind_eq_some_iff.mp h
  split at h
  case h_1 e rest _ hbatch => exact ⟨th, e, rest, hth, hbatch, (Option.some.inj h).symm⟩
  case h_2 => cases h

/-- A handler returns, reads the word of its flag, writes it, or removes its barrier and returns. -/
theorem handle_cases {pc : HandlerPc} (h : s.handle t pc = some s') :
    (∃ pc', (∀ e ∈ pc'.running, e ∈ pc.running) ∧ (∀ w ∈ pc'.writes, w.2 = s.reclaimNotifyFlag) ∧
      s' = { s with threads := s.threads.modify t fun th => { th with pc := pc' } }) ∨
    (∃ e i flags, pc = .setting e flags ∧ e.handler = .onReclaim i ∧ s' = { s with
      reclaimNotifyFlag := storeFlag s.reclaimNotifyFlag flags i true
      threads := s.threads.modify t fun th => { th with pc := .removing i } }) ∨
    ∃ i, pc = .removing i ∧ s' = { s with
      threads := (removeSchedule s.threads s.reclaimFd i).modify t fun th =>
        { th with pc := .polling } } := by
  cases pc with
  | polling => cases h
  | handling e =>
    simp only [handle] at h
    split at h
    case h_1 => exact .inl ⟨_, by rintro _ ⟨⟩, by rintro _ ⟨⟩, (Option.some.inj h).symm⟩
    case h_2 =>
      refine .inl ⟨.setting e s.reclaimNotifyFlag, fun _ he => he, ?_, (Option.some.inj h).symm⟩
      intro w hw
      unfold HandlerPc.writes at hw
      split at hw
      case h_1 hpc =>
        obtain ⟨-, rfl⟩ := HandlerPc.setting.inj hpc
        exact Option.some.inj hw ▸ rfl
      case h_2 => cases hw
  | setting e flags =>
    simp only [handle] at h
    split at h
    case h_1 => cases h
    case h_2 i hread => exact .inr (.inl ⟨e, i, flags, rfl, hread, (Option.some.inj h).symm⟩)
  | removing i => exact .inr (.inr ⟨i, rfl, (Option.some.inj h).symm⟩)

end SocketManager

/-- What holds of loop thread `t` of `n`: an event it is at was in the set before
the batch was taken, a socket is polled on the thread of its descriptor, and one
that has been removed is at most in a batch taken before. -/
structure ThreadOk (sockets : List ℕ) (removed : List (ℕ × ℕ)) (n clock t : ℕ)
    (th : LoopThread) : Prop where
  executed_lt : ∀ time ∈ th.executed, time < th.fetchedAt
  fetched_le : th.fetchedAt ≤ clock
  due_lt : ∀ e ∈ th.due, e.addedAt < th.fetchedAt
  events_lt : ∀ e ∈ th.events, e.addedAt < clock
  running : ∀ e ∈ th.pc.running, e.addedAt ∈ th.executed
  routed : ∀ e ∈ th.pending, ∀ x, e.handler = .onRead x →
    sockets[x]? = some e.fd ∧ t = e.fd % n
  removed_events : ∀ x time, (x, time) ∈ removed → ∀ e ∈ th.events, e.handler ≠ .onRead x
  removed_due : ∀ x time, (x, time) ∈ removed → ∀ e ∈ th.due, e.handler = .onRead x →
    th.fetchedAt ≤ time

namespace LoopThread

variable {th : LoopThread} {e : LoopEvent}

theorem mem_due_of_mem_batch (h : e ∈ th.batch) : e ∈ th.due := List.mem_append_right _ h

theorem mem_pending_of_running (h : e ∈ th.pc.running) : e ∈ th.pending :=
  List.mem_append_right _ (List.mem_append_left _ (Option.mem_toList.mpr h))

theorem pending_subset {th' : LoopThread} (hevents : th'.events ⊆ th.events)
    (hdue : th'.due ⊆ th.due) : th'.pending ⊆ th.pending := by
  intro e he
  exact (List.mem_append.mp he).elim (fun he => List.mem_append_left _ (hevents he))
    fun he => List.mem_append_right _ (hdue he)

theorem fetch_due_subset (hpc : th.pc = .polling) (ready : List ℕ) (now : ℕ) :
    (th.fetch ready now).due ⊆ th.events := by
  intro e he
  simp only [due, fetch, hpc, HandlerPc.running, Option.toList_none, List.nil_append] at he
  obtain ⟨fd, -, hfind⟩ := List.mem_filterMap.mp he
  exact List.mem_of_find?_eq_some hfind

theorem call_due_subset {rest : List LoopEvent} (hbatch : th.batch = e :: rest) :
    (th.call e).due ⊆ th.due := by
  intro e' he
  refine mem_due_of_mem_batch ?_
  unfold due call at he
  rwa [hbatch] at he ⊢

theorem setPc_due_subset {pc : HandlerPc} (hpc : ∀ e ∈ pc.running, e ∈ th.pc.running) :
    { th with pc := pc }.due ⊆ th.due := by
  intro e he
  rcases List.mem_append.mp he with he | he
  · exact List.mem_append_left _ (Option.mem_toList.mpr (hpc e (Option.mem_toList.mp he)))
  · exact mem_due_of_mem_batch he

theorem mem_addEvent_events {e' : LoopEvent} (h : e' ∈ (th.addEvent e).1.events) :
    e' ∈ th.events ∨ e' = e := by
  unfold addEvent at h
  split_ifs at h
  · exact Or.inl h
  · exact (List.mem_append.mp h).imp_right List.mem_singleton.mp

theorem addEvent_frame (th : LoopThread) (e : LoopEvent) :
    ∃ events, (th.addEvent e).1 = { th with events := events } := by
  unfold addEvent
  split_ifs
  · exact ⟨th.events, rfl⟩
  · exact ⟨_, rfl⟩

theorem mem_addEvent_pending {e' : LoopEvent} (h : e' ∈ (th.addEvent e).1.pending) :
    e' ∈ th.pending ∨ e' = e := by
  rcases List.mem_append.mp h with h | h
  · exact (mem_addEvent_events h).imp_left (List.mem_append_left _)
  · obtain ⟨events, heq⟩ := addEvent_frame th e
    rw [heq] at h
    exact Or.inl (List.mem_append_right _ h)

end LoopThread

namespace ThreadOk

variable {sockets sockets' : List ℕ} {removed removed' : List (ℕ × ℕ)} {n clock clock' t : ℕ}
  {th : LoopThread}

theorem start (sockets : List ℕ) (n clock t : ℕ) : ThreadOk sockets [] n clock t .start where
  executed_lt time h := by cases h
  fetched_le := Nat.zero_le _
  due_lt e h := by cases h
  events_lt e h := by cases h
  running e h := by cases h
  routed e h := by cases h
  removed_events x time h := by cases h
  removed_due x time h := by cases h

theorem mono (h : ThreadOk sockets removed n clock t th) (hs : sockets <+: sockets')
    (hr : removed' ⊆ removed) (hc : clock ≤ clock') :
    ThreadOk sockets' removed' n clock' t th where
  executed_lt := h.executed_lt
  fetched_le := h.fetched_le.trans hc
  due_lt := h.due_lt
  events_lt e he := (h.events_lt e he).trans_le hc
  running := h.running
  routed e he x hx := by
    obtain ⟨h₁, h₂⟩ := h.routed e he x hx
    obtain ⟨rest, rfl⟩ := hs
    rw [List.getElem?_append_left (List.getElem?_eq_some_iff.mp h₁).1]
    exact ⟨h₁, h₂⟩
  removed_events x time hmem := h.removed_events x time (hr hmem)
  removed_due x time hmem := h.removed_due x time (hr hmem)

theorem addEvent (h : ThreadOk sockets removed n clock t th) {e : LoopEvent}
    (hadded : e.addedAt = clock)
    (hroute : ∀ x, e.handler = .onRead x → sockets[x]? = some e.fd ∧ t = e.fd % n)
    (hnew : ∀ x time, (x, time) ∈ removed → e.handler ≠ .onRead x) :
    ThreadOk sockets removed n (clock + 1) t (th.addEvent e).1 := by
  have hm := h.mono List.prefix_rfl (List.Subset.refl _) (Nat.le_succ clock)
  have hmem : ∀ e' ∈ (th.addEvent e).1.events, e' ∈ th.events ∨ e' = e := fun _ =>
    LoopThread.mem_addEvent_events
  obtain ⟨events, heq⟩ := LoopThread.addEvent_frame th e
  rw [heq] at hmem ⊢
  refine { hm with events_lt := ?_, routed := ?_, removed_events := ?_ }
  · intro e' he
    rcases hmem e' he with hold | rfl
    · exact hm.events_lt e' hold
    · exact hadded ▸ Nat.lt_succ_self _
  · intro e' he x hx
    rcases List.mem_append.mp he with he | he
    · rcases hmem e' he with hold | rfl
      · exact hm.routed e' (List.mem_append_left _ hold) x hx
      · exact hroute x hx
    · exact hm.routed e' (List.mem_append_right _ he) x hx
  · intro x time hr e' he
    rcases hmem e' he with hold | rfl
    · exact hm.removed_events x time hr e' hold
    · exact hnew x time hr

theorem narrow (h : ThreadOk sockets removed n clock t th) {th' : LoopThread}
    (hevents : th'.events ⊆ th.events) (hdue : th'.due ⊆ th.due)
    (hfetched : th'.fetchedAt = th.fetchedAt)
    (hexec : ∀ time ∈ th'.executed, time < th.fetchedAt)
    (hrunning : ∀ e ∈ th'.pc.running, e.addedAt ∈ th'.executed) :
    ThreadOk sockets removed n clock t th' where
  executed_lt time ht := hfetched ▸ hexec time ht
  fetched_le := hfetched ▸ h.fetched_le
  due_lt e he := hfetched ▸ h.due_lt e (hdue he)
  events_lt e he := h.events_lt e (hevents he)
  running := hrunning
  routed e he := h.routed e (LoopThread.pending_subset hevents hdue he)
  removed_events x time hr e he := h.removed_events x time hr e (hevents he)
  removed_due x time hr e he hx := hfetched ▸ h.removed_due x time hr e (hdue he) hx

theorem removeEvent (h : ThreadOk sockets removed n clock t th) (fd : ℕ) :
    ThreadOk sockets removed n clock t (th.removeEvent fd) :=
  h.narrow (List.filter_subset_self ..) (List.Subset.refl _) rfl h.executed_lt h.running

/-- The thread takes a batch: what has been removed is not in it. -/
theorem fetch (h : ThreadOk sockets removed n clock t th) (hpc : th.pc = .polling)
    (ready : List ℕ) : ThreadOk sockets removed n clock t (th.fetch ready clock) := by
  have hsub := LoopThread.fetch_due_subset hpc ready clock
  constructor
  case executed_lt => exact fun time ht => (h.executed_lt time ht).trans_le h.fetched_le
  case fetched_le => exact le_rfl
  case due_lt => exact fun e he => h.events_lt e (hsub he)
  case events_lt => exact h.events_lt
  case running => exact h.running
  case routed =>
    intro e he
    refine h.routed e (List.mem_append_left _ ?_)
    exact (List.mem_append.mp he).elim id fun he => hsub he
  case removed_events => exact h.removed_events
  case removed_due =>
    intro x time hr e he hx
    exact absurd hx (h.removed_events x time hr e (hsub he))

theorem call (h : ThreadOk sockets removed n clock t th) {e : LoopEvent} {rest : List LoopEvent}
    (hbatch : th.batch = e :: rest) : ThreadOk sockets removed n clock t (th.call e) := by
  refine h.narrow (List.Subset.refl _) (LoopThread.call_due_subset hbatch) rfl ?_ ?_
  · intro time ht
    rcases List.mem_append.mp ht with ht | ht
    · exact h.executed_lt time ht
    · rw [List.mem_singleton.mp ht]
      exact h.due_lt e (LoopThread.mem_due_of_mem_batch (hbatch ▸ List.mem_cons_self ..))
  · rintro e' ⟨⟩
    exact List.mem_append_right _ (List.mem_singleton_self _)

theorem setPc (h : ThreadOk sockets removed n clock t th) {pc : HandlerPc}
    (hpc : ∀ e ∈ pc.running, e ∈ th.pc.running) :
    ThreadOk sockets removed n clock t { th with pc := pc } :=
  h.narrow (List.Subset.refl _) (LoopThread.setPc_due_subset hpc) rfl h.executed_lt
    fun e he => h.running e (hpc e he)

theorem collect (h : ThreadOk sockets removed n clock t th) {x : ℕ}
    (hx : ∀ e ∈ th.events, e.handler ≠ .onRead x) :
    ThreadOk sockets (removed ++ [(x, clock)]) n (clock + 1) t th := by
  have hm := h.mono List.prefix_rfl (List.Subset.refl _) (Nat.le_succ clock)
  refine { hm with removed_events := ?_, removed_due := ?_ }
  · intro y time hr e he
    rcases List.mem_append.mp hr with hr | hr
    · exact h.removed_events y time hr e he
    · obtain ⟨rfl, -⟩ := Prod.mk.inj (List.mem_singleton.mp hr)
      exact hx e he
  · intro y time hr e he hy
    rcases List.mem_append.mp hr with hr | hr
    · exact h.removed_due y time hr e he hy
    · obtain ⟨-, rfl⟩ := Prod.mk.inj (List.mem_singleton.mp hr)
      exact h.fetched_le

end ThreadOk

namespace SocketManager

variable {n : ℕ} {s s' : SocketManager}

structure Inv (n : ℕ) (s : SocketManager) : Prop where
  size : s.threads.length = n
  threads : ∀ t th, s.threads[t]? = some th →
    ThreadOk s.sockets s.reclaimList n s.clock t th
  removed : ∀ x time, (x, time) ∈ s.reclaimList → time < s.clock ∧ x < s.sockets.length
  index : ∀ c flags, s.pc = .clearing c flags → 0 < n → c < n

theorem inv_init (n reclaimFd : ℕ) : Inv n (init n reclaimFd) where
  size := List.length_replicate
  threads t th h := by
    rw [List.eq_of_mem_replicate (mem_of_getElem? h)]
    exact ThreadOk.start ..
  removed x time h := by cases h
  index c flags h := by cases h

theorem scheduleIdx_neg (n fd : ℕ) : scheduleIdx n fd (-1) = fd % n := rfl

theorem Inv.modify (hi : Inv n s) {t : ℕ} {f : LoopThread → LoopThread}
    (hf : ∀ th, s.threads[t]? = some th → ThreadOk s.sockets s.reclaimList n s.clock t th →
      ThreadOk s.sockets s.reclaimList n s.clock t (f th)) :
    Inv n { s with threads := s.threads.modify t f } where
  size := (List.length_modify ..).trans hi.size
  threads := forall_getElem?_modify hi.threads (fun _ _ _ h => h) hf
  removed := hi.removed
  index := hi.index

theorem Inv.connect (hi : Inv n s) (fd : ℕ) : Inv n (s.connect fd) := by
  have hold : ∀ t th, s.threads[t]? = some th →
      ThreadOk (s.sockets ++ [fd]) s.reclaimList n s.clock t th := fun t th h =>
    (hi.threads t th h).mono (List.prefix_append _ _) (List.Subset.refl _) le_rfl
  constructor
  case size => exact (List.length_modify ..).trans hi.size
  case threads =>
    refine forall_getElem?_modify hold ?_ ?_
    · intro t th _ h
      exact h.mono List.prefix_rfl (List.Subset.refl _) (Nat.le_succ _)
    · intro th _ h
      refine h.addEvent rfl ?_ ?_
      · rintro x ⟨⟩
        refine ⟨by simp, ?_⟩
        rw [scheduleIdx_neg, hi.size]
      · rintro x time hr ⟨⟩
        exact absurd (hi.removed _ time hr).2 (lt_irrefl _)
  case removed =>
    intro x time hr
    obtain ⟨h₁, h₂⟩ := hi.removed x time hr
    refine ⟨Nat.lt_succ_of_lt h₁, ?_⟩
    simp only [SocketManager.connect, List.length_append, List.length_singleton]
    omega
  case index => exact hi.index

theorem Inv.collect (hi : Inv n s) {x fd : ℕ} (hx : s.sockets[x]? = some fd) :
    Inv n (s.collect x fd) := by
  constructor
  case size => exact (List.length_modify ..).trans hi.size
  case threads =>
    refine forall_getElem?_modify hi.threads ?_ ?_
    · intro t th hne h
      refine h.collect fun e he hread => ?_
      obtain ⟨hfd, ht⟩ := h.routed e (List.mem_append_left _ he) x hread
      obtain rfl := Option.some.inj (hx.symm.trans hfd)
      rw [scheduleIdx_neg, hi.size] at hne
      exact hne ht
    · intro th _ h
      refine (h.removeEvent fd).collect fun e he hread => ?_
      obtain ⟨he, hne⟩ := List.mem_filter.mp he
      obtain ⟨hfd, -⟩ := h.routed e (List.mem_append_left _ he) x hread
      obtain rfl := Option.some.inj (hx.symm.trans hfd)
      simp at hne
  case removed =>
    intro y time hr
    rcases List.mem_append.mp hr with hr | hr
    · obtain ⟨h₁, h₂⟩ := hi.removed y time hr
      exact ⟨Nat.lt_succ_of_lt h₁, h₂⟩
    · obtain ⟨rfl, rfl⟩ := Prod.mk.inj (List.mem_singleton.mp hr)
      exact ⟨Nat.lt_succ_self _, (List.getElem?_eq_some_iff.mp hx).1⟩
  case index => exact hi.index

theorem Inv.add (hi : Inv n s) (c : ℕ) : Inv n (s.add c) := by
  constructor
  case size => exact (List.length_modify ..).trans hi.size
  case threads =>
    refine forall_getElem?_modify hi.threads ?_ ?_
    · intro t th _ h
      exact h.mono List.prefix_rfl (List.Subset.refl _) (Nat.le_succ _)
    · intro th _ h
      exact h.addEvent rfl (by simp) (by simp)
  case removed =>
    intro x time hr
    obtain ⟨h₁, h₂⟩ := hi.removed x time hr
    exact ⟨Nat.lt_succ_of_lt h₁, h₂⟩
  case index => rintro _ _ ⟨⟩

theorem Inv.handle (hi : Inv n s) {t : ℕ} {th : LoopThread} (hth : s.threads[t]? = some th)
    (h : s.handle t th.pc = some s') : Inv n s' := by
  rcases handle_cases h with ⟨pc, hpc, -, rfl⟩ | ⟨e, i, flags, -, -, rfl⟩ | ⟨i, -, rfl⟩
  · refine hi.modify fun th' hth' hok => hok.setPc ?_
    obtain rfl := Option.some.inj (hth.symm.trans hth')
    exact hpc
  · have hm : Inv n { s with threads := s.threads.modify t fun th =>
        { th with pc := .removing i } } := hi.modify fun th _ hth => hth.setPc (by rintro _ ⟨⟩)
    exact { hm with }
  · have hr : Inv n { s with threads := removeSchedule s.threads s.reclaimFd i } :=
      hi.modify fun th _ hth => hth.removeEvent _
    exact hr.modify fun th _ hth => hth.setPc (by rintro _ ⟨⟩)

theorem curIdx_lt (hi : Inv n s) (hn : 0 < n) : s.curIdx < n := by
  unfold curIdx
  rw [hi.size]
  exact Nat.mod_lt _ hn

theorem Inv.step (hi : Inv n s) {a : ManagerAct} (h : s.step a = some s') : Inv n s' := by
  cases a with
  | connect fd =>
    obtain ⟨-, rfl⟩ := step_connect h
    exact hi.connect fd
  | watch =>
    simp only [SocketManager.step] at h
    split_ifs at h
    exact Option.some.inj h ▸ { hi with index := by rintro _ _ ⟨⟩ }
  | collect x =>
    simp only [SocketManager.step] at h
    split_ifs at h
    obtain ⟨fd, hx, rfl⟩ := Option.map_eq_some_iff.mp h
    exact hi.collect hx
  | skip =>
    simp only [SocketManager.step] at h
    split_ifs at h
    exact Option.some.inj h ▸ { hi with index := by rintro _ _ ⟨⟩ }
  | round =>
    simp only [SocketManager.step] at h
    split_ifs at h
    obtain rfl := Option.some.inj h
    refine { hi with index := ?_ }
    rintro c flags ⟨⟩ hn
    exact curIdx_lt hi hn
  | clear =>
    obtain ⟨c, flags, -, rfl⟩ := step_clear h
    exact { hi with index := by rintro _ _ ⟨⟩ }
  | add =>
    obtain ⟨c, -, rfl⟩ := step_add h
    exact hi.add c
  | wake =>
    obtain ⟨c, -, rfl⟩ := step_wake h
    refine ⟨hi.size, ?_, ?_, by rintro _ _ ⟨⟩⟩
    · intro t th hth
      exact (hi.threads t th hth).mono List.prefix_rfl (List.filter_subset_self ..) le_rfl
    · intro x time hr
      exact hi.removed x time (List.mem_filter.mp hr).1
  | fetch t ready =>
    obtain ⟨th, hth, hpc, rfl⟩ := step_fetch h
    refine hi.modify fun th' hth' hok => hok.fetch ?_ ready
    obtain rfl := Option.some.inj (hth.symm.trans hth')
    exact hpc
  | call t =>
    obtain ⟨th, e, rest, hth, hbatch, rfl⟩ := step_call h
    refine hi.modify fun th' hth' hok => ?_
    obtain rfl := Option.some.inj (hth.symm.trans hth')
    exact hok.call hbatch
  | handle t =>
    obtain ⟨th, hth, h⟩ := Option.bind_eq_some_iff.mp h
    exact hi.handle hth h

def Notified (c since : ℕ) (threads : List LoopThread) : Prop :=
  ∃ th, threads[c]? = some th ∧ ∃ time ∈ th.executed, since ≤ time

/-- From the clearing of the flag of thread `c`, at time `since`, to the end of the wait.  A copy of
the word that a handler is about to write back may say that the flag is set only if it is. -/
structure InRound (n c since : ℕ) (s : SocketManager) : Prop where
  route : scheduleIdx n s.reclaimFd c = c
  pc : s.pc = .adding c ∨ s.pc = .waiting c
  since_le : since ≤ s.clock
  removed : ∀ x time, (x, time) ∈ s.reclaimList → time < since
  barrier : ∀ t th, s.threads[t]? = some th → ∀ e ∈ th.pending, e.handler = .onReclaim c →
    since ≤ e.addedAt ∧ t = c
  absent : ∀ (t : ℕ) th, s.threads[t]? = some th → t = c → s.pc = .adding c →
    ∀ e ∈ th.events, e.fd ≠ s.reclaimFd
  notified : s.reclaimNotifyFlag.getD c false = true → Notified c since s.threads
  copies : ∀ (t : ℕ) th, s.threads[t]? = some th → ∀ w ∈ th.pc.writes, w.1 / 64 = c / 64 →
    w.2.getD c false = true → Notified c since s.threads

variable {c since : ℕ}

theorem getD_storeFlag_false (flags loaded : List Bool) (i : ℕ) :
    (storeFlag flags loaded i false).getD i false = false := by
  rw [storeFlag, List.getD_eq_getElem?_getD, List.getElem?_mapIdx]
  cases flags[i]? <;> simp

/-- The flag of another index is what it was, or what it was when the word was read. -/
theorem getD_storeFlag_ne {flags loaded : List Bool} {i : ℕ} {value : Bool} (hne : c ≠ i)
    (h : (storeFlag flags loaded i value).getD c false = true) :
    flags.getD c false = true ∨ i / 64 = c / 64 ∧ loaded.getD c false = true := by
  simp only [storeFlag, List.getD_eq_getElem?_getD, List.getElem?_mapIdx, if_neg hne] at h ⊢
  cases hflag : flags[c]? with
  | none => simp [hflag] at h
  | some flag =>
    rw [hflag, Option.map_some, Option.getD_some] at h
    split_ifs at h with hword
    · cases hload : loaded[c]? with
      | none => exact .inl (by simpa [hload] using h)
      | some b => exact .inr ⟨hword.symm, by simpa [hload] using h⟩
    · exact .inl h

theorem Notified.modify {threads : List LoopThread} {t : ℕ} {f : LoopThread → LoopThread}
    (h : Notified c since threads) (hf : ∀ th, th.executed ⊆ (f th).executed) :
    Notified c since (threads.modify t f) := by
  obtain ⟨th, hth, time, hmem, hle⟩ := h
  unfold Notified
  rw [List.getElem?_modify, hth]
  refine ⟨_, rfl, time, ?_, hle⟩
  split_ifs
  · exact hf th hmem
  · exact hmem

theorem InRound.modify (hr : InRound n c since s) {t : ℕ} {f : LoopThread → LoopThread}
    (hevents : ∀ th, (f th).events ⊆ th.events)
    (hdue : ∀ th, s.threads[t]? = some th → (f th).due ⊆ th.pending)
    (hwrites : ∀ th, s.threads[t]? = some th → ∀ w ∈ (f th).pc.writes,
      w ∈ th.pc.writes ∨ w.2 = s.reclaimNotifyFlag)
    (hf : ∀ th, th.executed ⊆ (f th).executed) :
    InRound n c since { s with threads := s.threads.modify t f } := by
  refine { hr with barrier := ?_, absent := ?_, notified := fun h => (hr.notified h).modify hf
                   copies := ?_ }
  · refine forall_getElem?_modify hr.barrier (fun _ _ _ h => h) ?_
    intro th hth h e he
    refine h e ?_
    exact (List.mem_append.mp he).elim (fun he => List.mem_append_left _ (hevents th he))
      fun he => hdue th hth he
  · refine forall_getElem?_modify hr.absent (fun _ _ _ h => h) ?_
    exact fun th _ h hc hpc e he => h hc hpc e (hevents th he)
  · refine forall_getElem?_modify (fun t th hth w hw h₁ h₂ =>
      (hr.copies t th hth w hw h₁ h₂).modify hf) (fun _ _ _ h => h) ?_
    intro th hth h w hw h₁ h₂
    rcases hwrites th hth w hw with hw | hw
    · exact h w hw h₁ h₂
    · exact (hr.notified (hw ▸ h₂)).modify hf

/-- An event is added that is not a barrier of the round, or goes to its thread. -/
theorem InRound.addEvent (hr : InRound n c since s) {pc : WatchPc} (e : LoopEvent) (idx : ℤ)
    (hpc : pc = .waiting c ∨ pc = s.pc ∧ e.fd ≠ s.reclaimFd)
    (he : e.handler = .onReclaim c → since ≤ e.addedAt ∧
      scheduleIdx s.threads.length e.fd idx = c) :
    InRound n c since { s with
      threads := (addScheduleInternal s.threads e idx).1, pc := pc, clock := s.clock + 1 } := by
  have hexec : ∀ th : LoopThread, th.executed ⊆ (th.addEvent e).1.executed := fun th => by
    obtain ⟨events, heq⟩ := LoopThread.addEvent_frame th e
    rw [heq]
    exact List.Subset.refl _
  refine { hr with pc := ?_, since_le := Nat.le_succ_of_le hr.since_le, barrier := ?_, absent := ?_
                   notified := fun h => (hr.notified h).modify hexec, copies := ?_ }
  · exact hpc.elim .inr fun h => h.1.symm ▸ hr.pc
  · refine forall_getElem?_modify hr.barrier (fun _ _ _ h => h) ?_
    intro th _ h e' he' hc
    rcases LoopThread.mem_addEvent_pending he' with hold | rfl
    · exact h e' hold hc
    · exact he hc
  · rcases hpc with rfl | ⟨rfl, hne⟩
    · rintro t th - - ⟨⟩
    · refine forall_getElem?_modify hr.absent (fun _ _ _ h => h) ?_
      intro th _ h hc hadding e' he'
      rcases LoopThread.mem_addEvent_events he' with he' | rfl
      · exact h hc hadding e' he'
      · exact hne
  · refine forall_getElem?_modify (fun t th hth w hw h₁ h₂ =>
      (hr.copies t th hth w hw h₁ h₂).modify hexec) (fun _ _ _ h => h) ?_
    intro th _ h w hw
    refine h w ?_
    obtain ⟨events, heq⟩ := LoopThread.addEvent_frame th e
    rwa [heq] at hw

theorem InRound.setPc (hr : InRound n c since s) {t : ℕ} {th : LoopThread} {pc : HandlerPc}
    (hth : s.threads[t]? = some th) (hrunning : ∀ e ∈ pc.running, e ∈ th.pc.running)
    (hwrites : ∀ w ∈ pc.writes, w.2 = s.reclaimNotifyFlag) :
    InRound n c since { s with threads := s.threads.modify t fun th => { th with pc := pc } } := by
  refine hr.modify (fun th => List.Subset.refl _) ?_ (fun th _ w hw => .inr (hwrites w hw))
    fun th => List.Subset.refl _
  intro th' hth' e he
  obtain rfl := Option.some.inj (hth.symm.trans hth')
  exact List.mem_append_right _ (LoopThread.setPc_due_subset hrunning he)

theorem InRound.handle (hi : Inv n s) (hr : InRound n c since s) {t : ℕ} {th : LoopThread}
    (hth : s.threads[t]? = some th) (h : s.handle t th.pc = some s') : InRound n c since s' := by
  rcases handle_cases h with
    ⟨pc, hrunning, hwrites, rfl⟩ | ⟨e, i, flags, hpc, hread, rfl⟩ | ⟨i, -, rfl⟩
  · exact hr.setPc hth hrunning hwrites
  · have hm : InRound n c since { s with threads := s.threads.modify t fun th =>
        { th with pc := .removing i } } := hr.setPc hth (by rintro _ ⟨⟩) (by rintro _ ⟨⟩)
    refine { hm with notified := fun hflag => ?_ }
    have hrunning : e ∈ th.pc.running := by
      rw [hpc]
      exact rfl
    by_cases hic : c = i
    · -- the flag of the round is set by a barrier of the round
      subst hic
      obtain ⟨hle, rfl⟩ :=
        hr.barrier t th hth e (LoopThread.mem_pending_of_running hrunning) hread
      refine Notified.modify ?_ fun th => List.Subset.refl _
      exact ⟨th, hth, e.addedAt, (hi.threads _ th hth).running e hrunning, hle⟩
    · rcases getD_storeFlag_ne hic hflag with hflag | ⟨hword, hflag⟩
      · exact hm.notified hflag
      · have hwrites : (i, flags) ∈ th.pc.writes := by
          obtain ⟨fd, handler, added⟩ := e
          subst hread
          rw [hpc]
          exact rfl
        exact (hr.copies t th hth (i, flags) hwrites hword hflag).modify
          fun th => List.Subset.refl _
  · have hrem : InRound n c since { s with threads := removeSchedule s.threads s.reclaimFd i } :=
      hr.modify (fun th => List.filter_subset_self ..)
        (fun th _ => List.subset_append_right _ _) (fun th _ w hw => .inl hw)
        fun th => List.Subset.refl _
    obtain ⟨th', hth'⟩ : ∃ th', (removeSchedule s.threads s.reclaimFd i)[t]? = some th' := by
      rw [removeSchedule, List.getElem?_modify, hth]
      exact ⟨_, rfl⟩
    exact hrem.setPc hth' (by rintro _ ⟨⟩) (by rintro _ ⟨⟩)

theorem InRound.step (hi : Inv n s) (hr : InRound n c since s) {a : ManagerAct} (ha : a ≠ .wake)
    (h : s.step a = some s') : InRound n c since s' := by
  have hpc : s.pc ≠ .idle ∧ s.pc ≠ .collecting := by
    rcases hr.pc with hpc | hpc
    all_goals
      rw [hpc]
      exact ⟨by simp, by simp⟩
  cases a with
  | connect fd =>
    obtain ⟨hfd, rfl⟩ := step_connect h
    have hadd := hr.addEvent ⟨fd, .onRead s.sockets.length, s.clock⟩ (-1) (.inr ⟨rfl, hfd⟩)
      (by simp)
    exact { hadd with }
  | watch =>
    simp only [SocketManager.step, if_neg hpc.1] at h
    cases h
  | collect x =>
    simp only [SocketManager.step, hpc.2, false_and, if_false] at h
    cases h
  | skip =>
    simp only [SocketManager.step, hpc.2, false_and, if_false] at h
    cases h
  | round =>
    simp only [SocketManager.step, hpc.2, false_and, if_false] at h
    cases h
  | clear =>
    obtain ⟨i, flags, hclearing, -⟩ := step_clear h
    rcases hr.pc with hpc | hpc
    all_goals
      rw [hpc] at hclearing
      cases hclearing
  | add =>
    obtain ⟨i, hadding, rfl⟩ := step_add h
    obtain rfl : c = i := by
      rcases hr.pc with hpc | hpc
      · exact WatchPc.adding.inj (hpc.symm.trans hadding)
      · rw [hpc] at hadding
        cases hadding
    exact hr.addEvent ⟨s.reclaimFd, .onReclaim c, s.clock⟩ c (.inl rfl)
      fun _ => ⟨hr.since_le, hi.size.symm ▸ hr.route⟩
  | wake => exact absurd rfl ha
  | fetch t ready =>
    obtain ⟨th, hth, hpoll, rfl⟩ := step_fetch h
    refine hr.modify (fun th => List.Subset.refl _) ?_ (fun th _ w hw => .inl hw)
      fun th => List.Subset.refl _
    intro th' hth' e he
    obtain rfl := Option.some.inj (hth.symm.trans hth')
    exact List.mem_append_left _ (LoopThread.fetch_due_subset hpoll ready s.clock he)
  | call t =>
    obtain ⟨th, e, rest, hth, hbatch, rfl⟩ := step_call h
    refine hr.modify (fun th => List.Subset.refl _) ?_ (by rintro th - w ⟨⟩)
      fun th => List.subset_append_left _ _
    intro th' hth' e he
    obtain rfl := Option.some.inj (hth.symm.trans hth')
    exact List.mem_append_right _ (LoopThread.call_due_subset hbatch he)
  | handle t =>
    obtain ⟨th, hth, h⟩ := Option.bind_eq_some_iff.mp h
    exact InRound.handle hi hr hth h

theorem scheduleIdx_natCast (hc : c < n) {fd : ℕ} (h : c ≠ 0 ∨ fd % n = 0) :
    scheduleIdx n fd c = c := by
  unfold scheduleIdx
  by_cases h0 : c = 0
  · subst h0
    exact h.resolve_left (by simp)
  · rw [if_pos (by omega), Int.toNat_natCast, Nat.mod_eq_of_lt hc]

/-- The flag is cleared with no barrier of its index left anywhere, no handler about to write the
word of the flag, and the pipe not in the epoll set of the thread. -/
structure Undisturbed (s : SocketManager) (c : ℕ) : Prop where
  barrier : ∀ th ∈ s.threads, ∀ e ∈ th.pending, e.handler ≠ .onReclaim c
  writes : ∀ th ∈ s.threads, ∀ w ∈ th.pc.writes, w.1 / 64 ≠ c / 64
  absent : ∀ th, s.threads[c]? = some th → ∀ e ∈ th.events, e.fd ≠ s.reclaimFd

theorem Undisturbed.inRound (hu : s.Undisturbed c) (hi : Inv n s) {flags : List Bool}
    (hpc : s.pc = .clearing c flags) (hroute : scheduleIdx n s.reclaimFd c = c)
    (h : s.step .clear = some s') : InRound n c s.clock s' := by
  obtain ⟨i, flags', hclearing, rfl⟩ := step_clear h
  obtain ⟨rfl, rfl⟩ := WatchPc.clearing.inj (hpc.symm.trans hclearing)
  constructor
  case route => exact hroute
  case pc => exact Or.inl rfl
  case since_le => exact le_rfl
  case removed => exact fun x time hr => (hi.removed x time hr).1
  case barrier =>
    exact fun t th hth e he hc => absurd hc (hu.barrier th (mem_of_getElem? hth) e he)
  case absent =>
    rintro t th hth rfl -
    exact hu.absent th hth
  case notified =>
    intro hflag
    rw [getD_storeFlag_false] at hflag
    cases hflag
  case copies =>
    exact fun t th hth w hw hword => absurd hword (hu.writes th (mem_of_getElem? hth) w hw)

theorem InRound.registered (hi : Inv n s) (hr : InRound n c since s) (hc : c < n)
    (hpc : s.pc = .adding c) :
    ∃ th, (s.add c).threads[c]? = some th ∧ ⟨s.reclaimFd, .onReclaim c, s.clock⟩ ∈ th.events := by
  obtain ⟨th, hth⟩ : ∃ th, s.threads[c]? = some th :=
    ⟨_, List.getElem?_eq_getElem (hi.size.symm ▸ hc)⟩
  have habsent : s.reclaimFd ∉ th.events.map LoopEvent.fd := fun hmem => by
    obtain ⟨e, he, hfd⟩ := List.mem_map.mp hmem
    exact hr.absent c th hth rfl hpc e he hfd
  refine ⟨(th.addEvent ⟨s.reclaimFd, .onReclaim c, s.clock⟩).1, ?_, ?_⟩
  · simp only [SocketManager.add, addScheduleInternal, hi.size, hr.route, List.getElem?_modify, hth]
    simp
  · rw [LoopThread.addEvent, if_neg habsent]
    exact List.mem_append_right _ (List.mem_singleton_self _)

theorem step_waiting {a : ManagerAct} (h : s.step a = some s') (hpc : s'.pc = .waiting c) :
    s.pc = .waiting c ∨ s.pc = .adding c ∧ a = .add := by
  cases a with
  | connect fd =>
    obtain ⟨-, rfl⟩ := step_connect h
    exact .inl hpc
  | watch =>
    simp only [SocketManager.step] at h
    split_ifs at h
    exact absurd hpc (Option.some.inj h ▸ by simp)
  | collect x =>
    simp only [SocketManager.step] at h
    split_ifs at h
    obtain ⟨fd, -, rfl⟩ := Option.map_eq_some_iff.mp h
    exact .inl hpc
  | skip =>
    simp only [SocketManager.step] at h
    split_ifs at h
    exact absurd hpc (Option.some.inj h ▸ by simp)
  | round =>
    simp only [SocketManager.step] at h
    split_ifs at h
    exact absurd hpc (Option.some.inj h ▸ by simp)
  | clear =>
    obtain ⟨i, flags, -, rfl⟩ := step_clear h
    cases hpc
  | add =>
    obtain ⟨i, hadding, rfl⟩ := step_add h
    obtain rfl := WatchPc.waiting.inj hpc
    exact .inr ⟨hadding, rfl⟩
  | wake =>
    obtain ⟨i, -, rfl⟩ := step_wake h
    cases hpc
  | fetch t ready =>
    obtain ⟨th, -, -, rfl⟩ := step_fetch h
    exact .inl hpc
  | call t =>
    obtain ⟨th, e, rest, -, -, rfl⟩ := step_call h
    exact .inl hpc
  | handle t =>
    obtain ⟨th, -, h⟩ := Option.bind_eq_some_iff.mp h
    rcases handle_cases h with ⟨pc, -, -, rfl⟩ | ⟨e, i, flags, -, -, rfl⟩ | ⟨i, -, rfl⟩
    all_goals exact .inl hpc

/-- The barrier of thread `c` is added in the run, and is then in the epoll set of that thread. -/
def RegistersBarrier (s : SocketManager) (c : ℕ) (as : List ManagerAct) : Prop :=
  ∃ as₁ as₂ s₁ th, as = as₁ ++ .add :: as₂ ∧ run step s as₁ = some s₁ ∧
    (s₁.add c).threads[c]? = some th ∧ ⟨s₁.reclaimFd, .onReclaim c, s₁.clock⟩ ∈ th.events

theorem RegistersBarrier.snoc {as : List ManagerAct} (h : s.RegistersBarrier c as)
    (a : ManagerAct) : s.RegistersBarrier c (as ++ [a]) := by
  obtain ⟨as₁, as₂, s₁, th, rfl, h⟩ := h
  exact ⟨as₁, as₂ ++ [a], s₁, th, by simp, h⟩

theorem RegistersBarrier.cons {as : List ManagerAct} {a : ManagerAct} (hs : s.step a = some s')
    (h : s'.RegistersBarrier c as) : s.RegistersBarrier c (a :: as) := by
  obtain ⟨as₁, as₂, s₁, th, rfl, hr, h⟩ := h
  refine ⟨a :: as₁, as₂, s₁, th, rfl, ?_, h⟩
  rw [run, hs]
  exact hr

theorem inRound_run {bs : List ManagerAct} (hi : Inv n s) (hr : InRound n c since s) (hc : c < n)
    (hadding : s.pc = .adding c) (hbs : .wake ∉ bs) (h : run step s bs = some s') :
    Inv n s' ∧ InRound n c since s' ∧ (s'.pc = .waiting c → s.RegistersBarrier c bs) := by
  have hm : Meets step (fun _ a => a ≠ .wake) s bs := by
    refine meets_of_forall (fun a ha => ?_) s
    rintro rfl
    exact hbs ha
  refine run_history (fun as s' => Inv n s' ∧ InRound n c since s' ∧
    (s'.pc = .waiting c → s.RegistersBarrier c as)) ?_ ⟨hi, hr, ?_⟩ hm h
  · rintro as s₁ a s₂ h₁ ⟨hi₁, hr₁, hadded⟩ ha h₂
    refine ⟨hi₁.step h₂, InRound.step hi₁ hr₁ ha h₂, fun hpc => ?_⟩
    rcases step_waiting h₂ hpc with hpc | ⟨hpc, rfl⟩
    · exact (hadded hpc).snoc a
    · obtain ⟨th, hth, hmem⟩ := InRound.registered hi₁ hr₁ hc hpc
      exact ⟨as, [], s₁, th, rfl, h₁, hth, hmem⟩
  · intro hpc
    rw [hadding] at hpc
    cases hpc

/-- The socket is released after its thread has taken a new batch. -/
theorem InRound.released (hi : Inv n s) (hr : InRound n c since s) (h : s.step .wake = some s')
    {x time : ℕ} (hx : (x, time) ∈ s.reclaimList) (hx' : (x, time) ∉ s'.reclaimList) :
    ∃ th, s.threads[s.sockets.getD x 0 % n]? = some th ∧ (∃ added ∈ th.executed, time < added) ∧
      ∀ th ∈ s.threads, ∀ e ∈ th.pending, e.handler ≠ .onRead x := by
  obtain ⟨i, hwaiting, rfl⟩ := step_wake h
  obtain rfl : c = i := by
    rcases hr.pc with hpc | hpc
    · rw [hpc] at hwaiting
      cases hwaiting
    · exact WatchPc.waiting.inj (hpc.symm.trans hwaiting)
  have hreleased : s.isReleased c x = true := by
    by_contra hkept
    exact hx' (List.mem_filter.mpr ⟨hx, by simpa using hkept⟩)
  obtain ⟨hflag, hfd⟩ := Bool.and_eq_true_iff.mp hreleased
  rw [hi.size] at hfd
  have hfd := eq_of_beq hfd
  obtain ⟨th, hth, added, hadded, hle⟩ := hr.notified hflag
  have htime : time < added := (hr.removed x time hx).trans_le hle
  refine ⟨th, hfd ▸ hth, ⟨added, hadded, htime⟩, ?_⟩
  intro th' hmem e he hread
  obtain ⟨t, ht⟩ := List.mem_iff_getElem?.mp hmem
  have hok := hi.threads t th' ht
  rcases List.mem_append.mp he with hevent | hdue
  · exact hok.removed_events x time hx e hevent hread
  · -- the batch with the socket was taken before, on the thread of the barrier
    have hold := hok.removed_due x time hx e hdue hread
    obtain ⟨hsock, rfl⟩ := hok.routed e he x hread
    rw [List.getD_eq_getElem?_getD, hsock, Option.getD_some] at hfd
    obtain rfl := Option.some.inj (ht.symm.trans (hfd ▸ hth))
    have := hok.executed_lt added hadded
    omega

/-- The barrier of a round that is undisturbed when its flag is cleared is registered on the thread
that polls the sockets of the round, and a socket is released only when that thread has executed
an event added after the socket's removal and no thread can call its handler any more. -/
theorem released_after_barrier (n reclaimFd : ℕ) (hn : 0 < n) (as bs : List ManagerAct) (c : ℕ)
    (flags : List Bool) (s₀ s s' : SocketManager)
    (h₀ : run step (init n reclaimFd) as = some s₀) (hpc : s₀.pc = .clearing c flags)
    (hroute : c ≠ 0 ∨ s₀.reclaimFd % n = 0) (hu : s₀.Undisturbed c)
    (hround : run step s₀ (.clear :: bs) = some s) (hbs : .wake ∉ bs)
    (hwake : s.step .wake = some s') :
    s₀.RegistersBarrier c (.clear :: bs) ∧ scheduleIdx n s₀.reclaimFd c = c ∧
      (∀ fd, fd % n = c → scheduleIdx n fd (-1) = c) ∧
      ∀ x time, (x, time) ∈ s.reclaimList → (x, time) ∉ s'.reclaimList →
        ∃ th, s.threads[s.sockets.getD x 0 % n]? = some th ∧
          (∃ added ∈ th.executed, time < added) ∧
          ∀ th ∈ s.threads, ∀ e ∈ th.pending, e.handler ≠ .onRead x := by
  have hi₀ : Inv n s₀ := run_invariant (fun _ _ _ hi h => hi.step h) (inv_init n reclaimFd) h₀
  have hc : c < n := hi₀.index c flags hpc hn
  have hidx := scheduleIdx_natCast hc hroute
  obtain ⟨s₁, h₁, hrun⟩ := run_cons hround
  have hadding : s₁.pc = .adding c := by
    obtain ⟨i, flags', hclearing, rfl⟩ := step_clear h₁
    obtain ⟨rfl, -⟩ := WatchPc.clearing.inj (hpc.symm.trans hclearing)
    rfl
  obtain ⟨hi, hr, hadded⟩ :=
    inRound_run (hi₀.step h₁) (hu.inRound hi₀ hpc hidx h₁) hc hadding hbs hrun
  have hwaiting : s.pc = .waiting c := by
    obtain ⟨i, hwaiting, -⟩ := step_wake hwake
    refine hr.pc.resolve_left fun hadding => ?_
    rw [hadding] at hwaiting
    cases hwaiting
  exact ⟨(hadded hwaiting).cons h₁, hidx, fun fd hfd => hfd,
    fun x time hx hx' => InRound.released hi hr hwake hx hx'⟩

def firstRound : List ManagerAct :=
  [.connect 9, .fetch 1 [9], .call 1, .watch, .collect 0, .round, .clear, .add, .handle 1,
    .fetch 1 [7], .call 1, .handle 1, .handle 1, .handle 1, .wake, .watch, .round]

theorem released_after_barrier_second :
    ∃ s₀ s s', run step (init 2 7) firstRound = some s₀ ∧
      run step s₀ [.clear, .add, .fetch 1 [7], .call 1, .handle 1, .handle 1] = some s ∧
      s.step .wake = some s' ∧ s.reclaimList = [(0, 1)] ∧ s'.reclaimList = [] ∧
      ∀ th ∈ s.threads, ∀ e ∈ th.pending, e.handler ≠ .onRead 0 := by
  have h₀ : run step (init 2 7) firstRound = some
      { threads := [.start, ⟨[], [], .polling, 3, [0, 2]⟩]
        reclaimFd := 7
        sockets := [9]
        list := []
        reclaimList := [(0, 1)]
        reclaimCounter := 2
        reclaimNotifyFlag := [true, false]
        pc := .clearing 1 [true, false]
        clock := 3 } := by decide +kernel
  refine ⟨_, _, _, h₀, rfl, rfl, rfl, rfl, ?_⟩
  obtain ⟨-, -, -, h⟩ := released_after_barrier 2 7 (by decide) _
    [.add, .fetch 1 [7], .call 1, .handle 1, .handle 1] 1 [true, false] _ _ _ h₀ rfl (by decide)
    ⟨by decide, by decide, by rintro th ⟨⟩ e ⟨⟩⟩ rfl (by decide) rfl
  obtain ⟨-, -, -, hgone⟩ := h 0 1 (by decide) (by decide)
  exact hgone

/-- The barrier of thread 0 runs on thread 1; the barrier of a round that has timed out runs in the
next one; a late barrier writes an old word back over the cleared flag; and the barrier of
thread 1 is not registered while one of thread 0 is. -/
theorem released_before_handler :
    (∃ s, run step (init 2 7) [.connect 8, .fetch 0 [8], .call 0, .watch, .collect 0, .round,
        .clear, .add, .fetch 1 [7], .call 1, .handle 1, .handle 1] = some s ∧
      scheduleIdx 2 7 0 = 1 ∧ s.reclaimList = [(0, 1)] ∧
      (∃ s', s.step .wake = some s' ∧ s'.reclaimList = []) ∧
      ∃ th ∈ s.threads, (∀ added ∈ th.executed, added < 1) ∧
        ∃ e ∈ th.due, e.handler = .onRead 0) ∧
    (∃ s, run step (init 1 7) [.connect 8, .connect 9, .fetch 0 [9], .call 0, .watch, .collect 0,
        .round, .clear, .add, .wake, .handle 0, .fetch 0 [7, 9], .watch, .collect 1, .round, .clear,
        .add, .call 0, .handle 0, .handle 0] = some s ∧
      s.reclaimList = [(0, 2), (1, 4)] ∧
      (∃ s', s.step .wake = some s' ∧ s'.reclaimList = []) ∧
      ∃ th ∈ s.threads, (∀ added ∈ th.executed, added < 4) ∧
        ∃ e ∈ th.due, e.handler = .onRead 1) ∧
    (∃ s, run step (init 2 6) [.connect 8, .connect 9, .watch, .collect 1, .round, .clear, .add,
        .fetch 0 [6], .call 0, .handle 0, .handle 0, .handle 0, .wake, .watch, .round, .clear, .add,
        .fetch 1 [6], .call 1, .wake, .fetch 0 [8], .call 0, .watch, .collect 0, .round, .handle 1,
        .clear, .handle 1, .add] = some s ∧
      s.reclaimList = [(1, 2), (0, 5)] ∧
      (∃ s', s.step .wake = some s' ∧ s'.reclaimList = [(1, 2)]) ∧
      ∃ th ∈ s.threads, (∀ added ∈ th.executed, added < 5) ∧
        ∃ e ∈ th.due, e.handler = .onRead 0) ∧
    ∃ s, run step (init 2 7) [.connect 9, .watch, .collect 0, .round, .clear, .add, .wake, .watch,
        .round, .clear] = some s ∧
      s.pc = .adding 1 ∧ ∀ th ∈ (s.add 1).threads, ∀ e ∈ th.events, e.handler ≠ .onReclaim 1 := by
  decide +kernel

end SocketManager

end SofaBolt
