import Mathlib.Data.List.Nodup
import SofaBolt.TimeThread

namespace SofaBolt

open Run

def ClientPc.fns : ClientPc → List ℕ
  | .loadExit _ fn | .getLocal _ fn | .acquire _ fn | .fetchId _ fn => [fn]
  | .push task => [task.fn]
  | _ => []

def ClientPc.ids : ClientPc → List ℕ
  | .push task => [task.taskId]
  | _ => []

def ClientPc.posted : ClientPc → List TimerTask
  | .loadNearest task | .compare task _ | .finish task => [task]
  | _ => []

theorem ClientPc.nil_of_isOutside (pc : ClientPc) (h : pc.isOutside) :
    pc.posted = [] ∧ pc.fns = [] ∧ pc.ids = [] := by
  cases pc <;> first | exact ⟨rfl, rfl, rfl⟩ | cases h

def ClientPc.awaitsId : ClientPc → Bool
  | .loadExit .. | .getLocal .. | .acquire .. | .fetchId .. => true
  | _ => false

namespace TimeThread

def queued (s : TimeThread) : List TimerTask := s.containers.flatMap TaskContainer.tasks

/-- How often the call `f` is in progress, has queued its task or has returned 0. -/
def fnUses (s : TimeThread) (f : ℕ) : ℕ :=
  (s.clients.flatMap fun c => c.pc.fns).count f + (s.accepted.map TimerTask.fn).count f +
    s.refused.count f

/-- How often the id `x` is held by a call or is that of a task that was queued. -/
def idUses (s : TimeThread) (x : ℕ) : ℕ :=
  (s.clients.flatMap fun c => c.pc.ids).count x + (s.accepted.map TimerTask.taskId).count x

structure Ledger (s : TimeThread) : Prop where
  inUse : ∀ c ∈ s.containers, c.status = .inUse
  placed : ∀ u, s.queued.count u + s.tasks.count u + s.popped.count u = s.accepted.count u
  posted : ∀ u, (s.clients.flatMap fun c => c.pc.posted).count u + s.returned.count u =
    s.accepted.count u
  fns : ∀ f, s.fnUses f ≤ 1 ∧ (0 < s.fnUses f → f < s.calls)
  ids : ∀ x, s.idUses x ≤ 1 ∧ (0 < s.idUses x → 0 < x ∧ x < s.timerId)
  timerId_pos : 0 < s.timerId
  joined : s.destroyPc.isJoined → s.loop = .exited

theorem flatMap_init {K : Type*} (n : ℕ) {f : ClientPc → List K} (h : f .idle = []) :
    ((init n).clients.flatMap fun c => f c.pc) = [] := by
  rw [List.flatMap_eq_nil_iff]
  intro c hc
  rw [List.eq_of_mem_replicate hc, h]

theorem ledger_init (n : ℕ) : Ledger (init n) where
  inUse _ h := absurd h List.not_mem_nil
  placed _ := rfl
  posted u := by
    rw [flatMap_init n rfl]
    rfl
  fns f := by
    rw [fnUses, flatMap_init n rfl]
    simp [init]
  ids x := by
    rw [idUses, flatMap_init n rfl]
    simp [init]
  timerId_pos := Nat.one_pos
  joined h := by cases h

variable {s s' : TimeThread} {p : ℕ} {c : Client}

theorem Ledger.drain (hl : Ledger s) {i : ℕ} {container : TaskContainer}
    (front rest : List TimerTask) (ids : List ℕ) (hi : s.containers[i]? = some container)
    (htasks : container.tasks = front ++ rest) :
    Ledger { s with
      containers := s.containers.set i ⟨container.status, rest, ids⟩
      tasks := s.tasks ++ front } := by
  refine { hl with inUse := fun k hk => ?_, placed := fun u => ?_ }
  · rcases List.mem_or_eq_of_mem_set hk with hk | rfl
    · exact hl.inUse k hk
    · exact hl.inUse container (mem_of_getElem? hi)
  · obtain ⟨n, h, h'⟩ := exists_count_flatMap hi TaskContainer.tasks u
    have hold := hl.placed u
    simp only [queued, h, h', htasks, List.count_append] at hold ⊢
    omega

theorem Ledger.setAbandonTasks (hl : Ledger s) {i : ℕ} {container : TaskContainer}
    (hi : s.containers[i]? = some container) (ids : List ℕ) :
    Ledger { s with containers := s.containers.set i { container with abandonTasks := ids } } := by
  have hd := hl.drain [] container.tasks ids hi rfl
  rw [List.append_nil] at hd
  exact { hd with }

/-- One caller moves: a use of a call or an id is an old one, or that of the next
one. -/
theorem Ledger.update (hl : Ledger s) (hp : s.clients[p]? = some c) {c' : Client}
    (hclients : s'.clients = s.clients.set p c')
    (hjoined : s'.destroyPc.isJoined → s'.loop = .exited)
    (hinUse : ∀ c ∈ s'.containers, c.status = .inUse)
    (hplaced : ∀ u, s'.queued.count u + s'.tasks.count u + s'.popped.count u =
      s'.accepted.count u)
    (hposted : ∀ u, c'.pc.posted.count u + s'.returned.count u + s.accepted.count u =
      c.pc.posted.count u + s.returned.count u + s'.accepted.count u)
    (hcalls : s.calls ≤ s'.calls)
    (hfns : ∀ f, c'.pc.fns.count f + (s'.accepted.map TimerTask.fn).count f +
        s'.refused.count f ≤ c.pc.fns.count f + (s.accepted.map TimerTask.fn).count f +
          s.refused.count f + if f = s.calls then s'.calls - s.calls else 0)
    (hcalls_le : s'.calls ≤ s.calls + 1) (htimer : s.timerId ≤ s'.timerId)
    (hids : ∀ x, c'.pc.ids.count x + (s'.accepted.map TimerTask.taskId).count x ≤
      c.pc.ids.count x + (s.accepted.map TimerTask.taskId).count x +
        if x = s.timerId then s'.timerId - s.timerId else 0)
    (htimer_le : s'.timerId ≤ s.timerId + 1) : Ledger s' where
  inUse := hinUse
  placed := hplaced
  posted u := by
    obtain ⟨n, h, h'⟩ := exists_count_flatMap hp (fun c => c.pc.posted) u
    have hold := hl.posted u
    have hnew := hposted u
    rw [hclients, h']
    omega
  fns f := by
    obtain ⟨n, h, h'⟩ := exists_count_flatMap hp (fun c => c.pc.fns) f
    have hold := hl.fns f
    have hnew := hfns f
    rw [fnUses, h] at hold
    rw [fnUses, hclients, h']
    split_ifs at hnew <;> omega
  ids x := by
    obtain ⟨n, h, h'⟩ := exists_count_flatMap hp (fun c => c.pc.ids) x
    have hold := hl.ids x
    have hnew := hids x
    have hpos := hl.timerId_pos
    rw [idUses, h] at hold
    rw [idUses, hclients, h']
    split_ifs at hnew <;> omega
  timerId_pos := Nat.lt_of_lt_of_le hl.timerId_pos htimer
  joined := hjoined

/-- One caller moves and takes neither a new call nor a new id. -/
theorem Ledger.update_of_le (hl : Ledger s) (hp : s.clients[p]? = some c) {c' : Client}
    (hclients : s'.clients = s.clients.set p c')
    (hjoined : s'.destroyPc.isJoined → s'.loop = .exited)
    (hinUse : ∀ c ∈ s'.containers, c.status = .inUse)
    (hplaced : ∀ u, s'.queued.count u + s'.tasks.count u + s'.popped.count u =
      s'.accepted.count u)
    (hposted : ∀ u, c'.pc.posted.count u + s'.returned.count u + s.accepted.count u =
      c.pc.posted.count u + s.returned.count u + s'.accepted.count u)
    (hcalls : s'.calls = s.calls)
    (hfns : ∀ f, c'.pc.fns.count f + (s'.accepted.map TimerTask.fn).count f +
        s'.refused.count f ≤ c.pc.fns.count f + (s.accepted.map TimerTask.fn).count f +
          s.refused.count f)
    (htimer : s'.timerId = s.timerId)
    (hids : ∀ x, c'.pc.ids.count x + (s'.accepted.map TimerTask.taskId).count x ≤
      c.pc.ids.count x + (s.accepted.map TimerTask.taskId).count x) : Ledger s' :=
  hl.update hp hclients hjoined hinUse hplaced hposted hcalls.ge
    (fun f => Nat.le_add_right_of_le (hfns f)) (hcalls.le.trans (Nat.le_succ _)) htimer.ge
    (fun x => Nat.le_add_right_of_le (hids x)) (htimer.le.trans (Nat.le_succ _))

theorem Ledger.setClient (hl : Ledger s) (hp : s.clients[p]? = some c) (c' : Client)
    (hposted : c'.pc.posted = c.pc.posted) (hfns : c'.pc.fns = c.pc.fns)
    (hids : c'.pc.ids = c.pc.ids) : Ledger { s with clients := s.clients.set p c' } := by
  refine hl.update_of_le hp rfl hl.joined hl.inUse hl.placed (fun u => ?_) rfl (fun f => ?_) rfl
    (fun x => ?_)
  · rw [hposted]
  · rw [hfns]
  · rw [hids]

theorem Ledger.call (hl : Ledger s) (hp : s.clients[p]? = some c) (hc : c.pc.isOutside)
    (absTime : ℕ) :
    Ledger { s.setPc p c (.loadExit absTime s.calls) with calls := s.calls + 1 } := by
  obtain ⟨hposted, hfns, hids⟩ := c.pc.nil_of_isOutside hc
  refine hl.update hp rfl hl.joined hl.inUse hl.placed (fun u => ?_) (Nat.le_succ _)
    (fun f => ?_) le_rfl
    le_rfl (fun x => ?_) (Nat.le_succ _)
  · rw [hposted]
    rfl
  · rw [hfns]
    simp only [setPc, ClientPc.fns, List.count_singleton, List.count_nil, beq_iff_eq]
    split_ifs <;> omega
  · rw [hids]
    exact Nat.le_add_right _ _

theorem Ledger.refuse (hl : Ledger s) (hp : s.clients[p]? = some c) {fn : ℕ}
    (hposted : c.pc.posted = []) (hfns : c.pc.fns = [fn]) : Ledger (s.refuse p c fn) := by
  refine hl.update_of_le hp rfl hl.joined hl.inUse hl.placed (fun u => ?_) rfl (fun f => ?_) rfl
    (fun x => ?_)
  · rw [hposted]
    rfl
  · rw [hfns]
    simp only [TimeThread.refuse, setPc, ClientPc.fns, List.count_append, List.count_nil]
    omega
  · simp only [TimeThread.refuse, setPc, ClientPc.ids, List.count_nil]
    omega

theorem Ledger.fetchId (hl : Ledger s) {absTime fn : ℕ}
    (hp : s.clients[p]? = some c) (hc : c.pc = .fetchId absTime fn) :
    Ledger { s.setPc p c (.push ⟨absTime, s.timerId, fn⟩) with timerId := s.timerId + 1 } := by
  refine hl.update hp rfl hl.joined hl.inUse hl.placed (fun u => ?_) le_rfl
    (fun f => ?_) (Nat.le_succ _)
    (Nat.le_succ _) (fun x => ?_) le_rfl
  all_goals rw [hc]
  · rfl
  · exact Nat.le_add_right _ _
  · simp only [setPc, ClientPc.ids, List.count_singleton, List.count_nil, beq_iff_eq]
    split_ifs <;> omega

theorem Ledger.push (hl : Ledger s) {task : TimerTask} {i : ℕ} {container : TaskContainer}
    (hp : s.clients[p]? = some c) (hc : c.pc = .push task)
    (hi : s.containers[i]? = some container) :
    Ledger { s.setPc p c (.loadNearest task) with
      containers := s.containers.set i { container with tasks := container.tasks ++ [task] }
      accepted := s.accepted ++ [task] } := by
  refine hl.update_of_le hp rfl hl.joined ?_ (fun u => ?_) (fun u => ?_) rfl
    (fun f => ?_) rfl (fun x => ?_)
  · intro k hk
    rcases List.mem_or_eq_of_mem_set hk with hk | rfl
    · exact hl.inUse k hk
    · exact hl.inUse container (mem_of_getElem? hi)
  · obtain ⟨n, h, h'⟩ := exists_count_flatMap hi TaskContainer.tasks u
    have hold := hl.placed u
    simp only [queued, setPc, h, h', List.count_append] at hold ⊢
    omega
  all_goals rw [hc]
  · simp only [setPc, ClientPc.posted, List.count_append, List.count_nil]
    omega
  · simp only [setPc, ClientPc.fns, List.map_append, List.count_append, List.count_nil,
      List.map_cons, List.map_nil]
    omega
  · simp only [ClientPc.ids, List.map_append, List.count_append, List.count_nil,
      List.map_cons, List.map_nil]
    omega

theorem Ledger.finish (hl : Ledger s) {task : TimerTask} (hp : s.clients[p]? = some c)
    (hc : c.pc = .finish task) :
    Ledger { s.setPc p c (.returned task.taskId) with returned := s.returned ++ [task] } := by
  refine hl.update_of_le hp rfl hl.joined hl.inUse hl.placed (fun u => ?_) rfl (fun f => ?_) rfl
    (fun x => ?_)
  all_goals rw [hc]
  · simp only [setPc, ClientPc.posted, List.count_append, List.count_nil]
    omega
  · exact le_rfl
  · exact le_rfl

/-- No container is ever available again, so a thread without one gets a new one. -/
theorem Ledger.acquireContainer_eq (hl : Ledger s) (o : Option ℕ) :
    acquireContainer s.containers o =
      match o with
      | some i => (s.containers, i)
      | none => (s.containers ++ [⟨.inUse, [], []⟩], s.containers.length) := by
  cases o with
  | some i => rfl
  | none =>
    have hnone : s.containers.findIdx? (fun c => c.status = .available) = none := by
      rw [List.findIdx?_eq_none_iff]
      intro k hk
      simp [hl.inUse k hk]
    rw [acquireContainer, hnone]

theorem Ledger.acquire (hl : Ledger s) (o : Option ℕ) :
    Ledger { s with containers := (acquireContainer s.containers o).1 } := by
  rw [hl.acquireContainer_eq]
  cases o with
  | some i => exact hl
  | none =>
    refine { hl with inUse := fun k hk => ?_, placed := fun u => ?_ }
    · rcases List.mem_append.mp hk with hk | hk
      · exact hl.inUse k hk
      · rw [List.mem_singleton.mp hk]
    · have hold := hl.placed u
      simpa [queued] using hold

theorem localContainer_eq {i : ℕ} {container : TaskContainer}
    (h : s.localContainer c = some (i, container)) : s.containers[i]? = some container := by
  obtain ⟨k, -, h⟩ := Option.bind_eq_some_iff.mp h
  obtain ⟨x, hx, h⟩ := Option.bind_eq_some_iff.mp h
  obtain ⟨rfl, rfl⟩ := Prod.mk.inj (Option.some.inj h)
  exact hx

theorem Ledger.clientStep (hl : Ledger s) (hp : s.clients[p]? = some c)
    (h : s.clientStep p c = some s') : Ledger s' := by
  obtain ⟨o, pc⟩ := c
  cases pc with
  | idle => cases h
  | returned result => cases h
  | abandoned result => cases h
  | loadExit absTime fn =>
    obtain rfl := Option.some.inj h
    split_ifs
    · exact hl.refuse hp rfl rfl
    · exact hl.setClient hp _ rfl rfl rfl
  | getLocal absTime fn =>
    obtain rfl := Option.some.inj h
    split_ifs
    · exact hl.refuse hp rfl rfl
    · exact hl.setClient hp _ rfl rfl rfl
  | acquire absTime fn =>
    obtain rfl := Option.some.inj h
    exact (hl.acquire o).setClient hp _ rfl rfl rfl
  | fetchId absTime fn =>
    obtain rfl := Option.some.inj h
    exact hl.fetchId hp rfl
  | push task =>
    obtain ⟨⟨i, container⟩, hloc, h⟩ := Option.bind_eq_some_iff.mp h
    simp only at h
    split_ifs at h
    · exact Option.some.inj h ▸ hl.push hp rfl (localContainer_eq hloc)
    · exact Option.some.inj h ▸ hl.refuse hp rfl rfl
  | loadNearest task => exact Option.some.inj h ▸ hl.setClient hp _ rfl rfl rfl
  | compare task nearestTime =>
    simp only [TimeThread.clientStep] at h
    split_ifs at h
    · exact Option.some.inj h ▸ hl.setClient hp _ rfl rfl rfl
    · obtain rfl := Option.some.inj h
      exact { hl.setClient hp ⟨o, .finish task⟩ rfl rfl rfl with }
    · exact Option.some.inj h ▸ hl.setClient hp _ rfl rfl rfl
  | finish task => exact Option.some.inj h ▸ hl.finish hp rfl
  | abandonGetLocal taskId =>
    simp only [TimeThread.clientStep] at h
    split_ifs at h
    exact Option.some.inj h ▸ hl.setClient hp _ rfl rfl rfl
  | abandonAcquire taskId =>
    obtain rfl := Option.some.inj h
    exact (hl.acquire o).setClient hp _ rfl rfl rfl
  | abandonPush taskId =>
    obtain ⟨⟨i, container⟩, hloc, h⟩ := Option.bind_eq_some_iff.mp h
    have hi := localContainer_eq hloc
    simp only at h
    split_ifs at h
    · obtain rfl := Option.some.inj h
      exact (hl.setAbandonTasks hi _).setClient hp ⟨o, .abandoned true⟩ rfl rfl rfl
    · exact Option.some.inj h ▸ hl.setClient hp _ rfl rfl rfl

theorem Ledger.not_isJoined_of_loopStep (hl : Ledger s) {clock j : ℕ}
    (h : s.loopStep clock j = some s') : ¬s.destroyPc.isJoined := by
  intro hj
  obtain ⟨pc, hpc, hm⟩ := loopMove_of_loopStep h
  rw [hl.joined hj] at hpc
  subst hpc
  cases hm

theorem Ledger.loopStep (hl : Ledger s) {clock j : ℕ} (h : s.loopStep clock j = some s') :
    Ledger s' := by
  have hrun := hl.not_isJoined_of_loopStep h
  obtain ⟨pc, -, hm⟩ := loopMove_of_loopStep h
  cases hm with
  | collect hi htasks =>
    exact { hl.drain [_] _ _ hi htasks with joined := fun hj => absurd hj hrun }
  | abandon hi habandon =>
    exact { hl.setAbandonTasks hi _ with joined := fun hj => absurd hj hrun }
  | @pop t k task htask hle =>
    refine { hl with placed := fun u => ?_, joined := fun hj => absurd hj hrun }
    obtain ⟨hk, rfl⟩ := List.getElem?_eq_some_iff.mp htask
    have hperm := (List.getElem_cons_eraseIdx_perm hk).count_eq u
    have hold := hl.placed u
    simp only [queued, List.count_append, List.count_cons, List.count_nil] at hperm hold ⊢
    omega
  | _ => exact { hl with joined := fun hj => absurd hj hrun }

theorem Ledger.destroyStep (hl : Ledger s) (h : s.destroyStep = some s') : Ledger s' := by
  obtain ⟨pc, hpc, hm⟩ := destroyMove_of_destroyStep h
  have hloop : pc.isJoined → s.loop = .exited := fun hj => hl.joined (hpc ▸ hj)
  cases hm with
  | join hexited => exact { hl with joined := fun _ => hexited }
  | @drain i container hi =>
    exact { hl.drain container.tasks [] [] hi (List.append_nil _).symm with
      joined := fun _ => hloop rfl }
  | _ => exact { hl with joined := fun _ => hloop rfl }

theorem Ledger.step (hl : Ledger s) {a : TimeAct} (h : s.step a = some s') : Ledger s' := by
  cases a with
  | scheduleAbs p absTime =>
    obtain ⟨c, hp, h⟩ := Option.bind_eq_some_iff.mp h
    split_ifs at h with hc
    exact Option.some.inj h ▸ hl.call hp hc absTime
  | unschedule p taskId =>
    obtain ⟨c, hp, h⟩ := Option.bind_eq_some_iff.mp h
    split_ifs at h with hc
    obtain rfl := Option.some.inj h
    obtain ⟨hposted, hfns, hids⟩ := c.pc.nil_of_isOutside hc.1
    exact { hl.setClient hp ⟨c.localTask, .abandonGetLocal taskId⟩ hposted.symm hfns.symm
      hids.symm with }
  | client p =>
    obtain ⟨c, hp, h⟩ := Option.bind_eq_some_iff.mp h
    exact hl.clientStep hp h
  | loop clock j => exact hl.loopStep h
  | destroy =>
    simp only [TimeThread.step] at h
    split_ifs at h
    exact Option.some.inj h ▸ { hl with joined := fun h => by cases h }
  | destroyStep => exact hl.destroyStep h

theorem Ledger.accepted_count_le (hl : Ledger s) (u : TimerTask) : s.accepted.count u ≤ 1 := by
  have hle : s.accepted.count u ≤ (s.accepted.map TimerTask.taskId).count u.taskId :=
    List.count_le_count_map
  have hids := (hl.ids u.taskId).1
  rw [idUses] at hids
  omega

theorem Ledger.taskId_inj (hl : Ledger s) {u v : TimerTask} (hu : u ∈ s.accepted)
    (hv : v ∈ s.accepted) (h : u.taskId = v.taskId) : u = v := by
  have hnodup : (s.accepted.map TimerTask.taskId).Nodup := by
    rw [List.nodup_iff_count_le_one]
    intro x
    have hids := (hl.ids x).1
    rw [idUses] at hids
    omega
  exact List.inj_on_of_nodup_map hnodup hu hv h

theorem Ledger.accepted_of_placed (hl : Ledger s) {u : TimerTask}
    (hu : u ∈ s.queued ∨ u ∈ s.tasks ∨ u ∈ s.popped) : u ∈ s.accepted := by
  have hplaced := hl.placed u
  simp only [← List.count_pos_iff] at hu ⊢
  omega

theorem Ledger.accepted_of_posted (hl : Ledger s) {u : TimerTask} (hc : c ∈ s.clients)
    (hu : u ∈ c.pc.posted) : u ∈ s.accepted := by
  have hpos : 0 < (s.clients.flatMap fun c => c.pc.posted).count u :=
    List.count_pos_iff.mpr (List.mem_flatMap.mpr ⟨c, hc, hu⟩)
  have hposted := hl.posted u
  exact List.count_pos_iff.mp (by omega)

theorem Ledger.accepted_of_returned (hl : Ledger s) {u : TimerTask} (hu : u ∈ s.returned) :
    u ∈ s.accepted := by
  have hpos : 0 < s.returned.count u := List.count_pos_iff.mpr hu
  have hposted := hl.posted u
  exact List.count_pos_iff.mp (by omega)

theorem Ledger.not_posted_of_returned (hl : Ledger s) {u : TimerTask} (hu : u ∈ s.returned)
    (hc : c ∈ s.clients) : u ∉ c.pc.posted := by
  intro hposted
  have hpos : 0 < (s.clients.flatMap fun c => c.pc.posted).count u :=
    List.count_pos_iff.mpr (List.mem_flatMap.mpr ⟨c, hc, hposted⟩)
  have hret : 0 < s.returned.count u := List.count_pos_iff.mpr hu
  have hle := hl.accepted_count_le u
  have heq := hl.posted u
  omega

theorem Ledger.not_accepted_of_push (hl : Ledger s) {task : TimerTask} (hc : c ∈ s.clients)
    (hpc : c.pc = .push task) : task ∉ s.accepted := by
  intro hacc
  have hpos : 0 < (s.clients.flatMap fun c => c.pc.ids).count task.taskId :=
    List.count_pos_iff.mpr (List.mem_flatMap.mpr ⟨c, hc, by simp [hpc, ClientPc.ids]⟩)
  have hmap : 0 < (s.accepted.map TimerTask.taskId).count task.taskId :=
    List.count_pos_iff.mpr (List.mem_map_of_mem hacc)
  have hids := (hl.ids task.taskId).1
  rw [idUses] at hids
  omega

theorem Ledger.placed_of_accepted (hl : Ledger s) {u : TimerTask} (hu : u ∈ s.accepted) :
    u ∈ s.queued ∨ u ∈ s.tasks ∨ u ∈ s.popped := by
  have hpos : 0 < s.accepted.count u := List.count_pos_iff.mpr hu
  have hplaced := hl.placed u
  simp only [← List.count_pos_iff]
  omega

def IdsBounded (s : TimeThread) : Prop :=
  s.timerId + s.clients.countP (fun c => c.pc.awaitsId) ≤ s.calls + 1

theorem idsBounded_init (n : ℕ) : IdsBounded (init n) := by
  simp [IdsBounded, init, List.countP_replicate, ClientPc.awaitsId]

theorem IdsBounded.set (hb : IdsBounded s) (hp : s.clients[p]? = some c) {c' : Client}
    (hclients : s'.clients = s.clients.set p c')
    (hle : s'.timerId + c'.pc.awaitsId.toNat + s.calls ≤
      s.timerId + c.pc.awaitsId.toNat + s'.calls) : IdsBounded s' := by
  have hcount := countP_set_add hp c' fun c => c.pc.awaitsId
  unfold IdsBounded at hb ⊢
  rw [hclients]
  omega

theorem IdsBounded.clientStep (hb : IdsBounded s) (hp : s.clients[p]? = some c)
    (h : s.clientStep p c = some s') : IdsBounded s' := by
  obtain ⟨o, pc⟩ := c
  cases pc with
  | idle => cases h
  | returned result => cases h
  | abandoned result => cases h
  | push task =>
    obtain ⟨⟨i, container⟩, -, h⟩ := Option.bind_eq_some_iff.mp h
    simp only at h
    split_ifs at h <;> exact Option.some.inj h ▸ hb.set hp rfl le_rfl
  | abandonPush taskId =>
    obtain ⟨⟨i, container⟩, -, h⟩ := Option.bind_eq_some_iff.mp h
    simp only at h
    split_ifs at h <;> exact Option.some.inj h ▸ hb.set hp rfl le_rfl
  | fetchId absTime fn =>
    obtain rfl := Option.some.inj h
    exact hb.set hp rfl le_rfl
  | loadExit absTime fn | getLocal absTime fn =>
    obtain rfl := Option.some.inj h
    split_ifs
    · exact hb.set hp rfl (Nat.add_le_add_right (Nat.le_succ _) _)
    · exact hb.set hp rfl le_rfl
  | compare task nearestTime | abandonGetLocal taskId =>
    simp only [TimeThread.clientStep] at h
    split_ifs at h <;> exact Option.some.inj h ▸ hb.set hp rfl le_rfl
  | _ => exact Option.some.inj h ▸ hb.set hp rfl le_rfl

theorem IdsBounded.step (hb : IdsBounded s) {a : TimeAct} (h : s.step a = some s') :
    IdsBounded s' := by
  cases a with
  | scheduleAbs p absTime =>
    obtain ⟨c, hp, h⟩ := Option.bind_eq_some_iff.mp h
    split_ifs at h
    obtain rfl := Option.some.inj h
    refine hb.set hp rfl ?_
    simp only [setPc, ClientPc.awaitsId, Bool.toNat_true]
    omega
  | unschedule p taskId =>
    obtain ⟨c, hp, h⟩ := Option.bind_eq_some_iff.mp h
    split_ifs at h
    obtain rfl := Option.some.inj h
    refine hb.set hp rfl ?_
    simp only [setPc, ClientPc.awaitsId, Bool.toNat_false]
    omega
  | client p =>
    obtain ⟨c, hp, h⟩ := Option.bind_eq_some_iff.mp h
    exact hb.clientStep hp h
  | loop clock j =>
    obtain ⟨pc, -, hm⟩ := loopMove_of_loopStep h
    cases hm <;> exact hb
  | destroy =>
    simp only [TimeThread.step] at h
    split_ifs at h
    exact Option.some.inj h ▸ hb
  | destroyStep =>
    obtain ⟨pc, -, hm⟩ := destroyMove_of_destroyStep h
    cases hm <;> exact hb

/-- `_timer_id` is a `size_t`, which does not wrap before the 2^64 - 1st call. -/
theorem timerId_lt {n : ℕ} {as : List TimeAct} (hr : run step (init n) as = some s)
    (hcalls : s.calls < 2 ^ 64 - 1) : s.timerId < 2 ^ 64 := by
  have hb : IdsBounded s := run_invariant (fun _ _ _ hb h => hb.step h) (idsBounded_init n) hr
  unfold IdsBounded at hb
  omega

end TimeThread

end SofaBolt
