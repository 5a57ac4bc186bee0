import SofaBolt.BoltRequest
import SofaBolt.OnRead
import SofaBolt.Run

/- A sender reads `request_time`, queues its session and only then writes the request.
`cutIntoMessage` is taken apart into its accesses to the clock and to the queue, so that
sessions may be queued between any two of them. -/

namespace SofaBolt

open IOBuffer Bolt Framing Run

variable {D : Type}

inductive SendStage where
  | unborn
  | timed
  | refused
  | pushed
  | written
deriving DecidableEq, Repr

inductive CutPc where
  | idle
  | parsed (responseSize receiveRequestId : ℕ)
  | draining (onReadBeginTime responseSize receiveRequestId : ℕ)
  | prepared (responseSize receiveRequestId : ℕ)
deriving DecidableEq, Repr

structure BufferWork (D : Type) extends Interference D where
  sessionInfo_eq (w : Heap × Socket D) : (act w).2.sessionInfo = w.2.sessionInfo
  requestTime_eq (w : Heap × Socket D) (sid : SessionId) :
    ((act w).2.session sid).requestTime = (w.2.session sid).requestTime

/-- `outstanding` are the requests that may still be answered or whose session is still there,
`unread` what the server has sent and the loop thread has not read, and `pending` the responses
that have not been handed out. -/
structure Exchange (D : Type) where
  heap : Heap
  socket : Socket D
  now : ℕ
  stage : SessionId → SendStage
  outstanding : List SessionId
  reclaimed : SessionId → Bool
  unread : Bytes
  pending : List (SessionId × Bytes)
  pc : CutPc

inductive ExchangeAct (D : Type) where
  | create (sid : SessionId) (beginTime sessionId : ℕ)
  | prepareRead (sid : SessionId) (accepted : Bool)
  | write (sid : SessionId)
  | reply (sid : SessionId) (frame : Bytes)
  | close (sid : SessionId)
  | work (w : BufferWork D)
  | read (n : ℕ)
  | parse
  | clock (t : ℕ)
  | pop
  | handOut
  | reclaim (reclaimed : SessionId → Bool)

instance (f : Bytes) : Decidable (IsResponse f) :=
  decidable_of_iff (IsFrame f ∧ f.length ≤ boltHeaderSize + maxBoltBodySize)
    ⟨fun h => ⟨h.1, h.2⟩, fun h => ⟨h.1, h.2⟩⟩

namespace Exchange

def requestId (s : Exchange D) (sid : SessionId) : ℕ := (s.socket.session sid).requestId

def requestTime (s : Exchange D) (sid : SessionId) : ℕ := (s.socket.session sid).requestTime

def Registered (s : Exchange D) (sid : SessionId) : Prop :=
  (s.stage sid = .pushed ∨ s.stage sid = .written) ∧ s.reclaimed sid = false

instance (s : Exchange D) (sid : SessionId) : Decidable (s.Registered sid) :=
  inferInstanceAs (Decidable (_ ∧ _))

def init (heap : Heap) : Exchange D where
  heap := heap
  socket :=
    { active := true, readBuf := IOBuffer.empty, sessionInfo := [], sessionMap := fun _ => none
      readAdditionalData := none, session := fun _ => ⟨0, 0, IOBuffer.empty, none⟩ }
  now := 0
  stage := fun _ => .unborn
  outstanding := []
  reclaimed := fun _ => false
  unread := []
  pending := []
  pc := .idle

/-- A sender has read the clock and set up its session.  Its id differs from those
of all outstanding requests. -/
def create (s : Exchange D) (sid : SessionId) (beginTime sessionId : ℕ) : Option (Exchange D) :=
  if s.stage sid = .unborn ∧ s.now ≤ beginTime ∧
      ∀ o ∈ s.outstanding, s.requestId o ≠ converseBoltRequest sessionId then
    some { s with
      socket := { s.socket with
        session := Function.update s.socket.session sid
          ⟨converseBoltRequest sessionId, beginTime, IOBuffer.empty, none⟩ }
      now := beginTime
      stage := Function.update s.stage sid .timed
      outstanding := sid :: s.outstanding }
  else none

def prepareRead (s : Exchange D) (sid : SessionId) (accepted : Bool) : Option (Exchange D) :=
  if s.stage sid = .timed then
    if accepted then
      some { s with
        socket := { s.socket with sessionInfo := s.socket.sessionInfo ++ [sid] }
        stage := Function.update s.stage sid .pushed }
    else some { s with stage := Function.update s.stage sid .refused }
  else none

def write (s : Exchange D) (sid : SessionId) : Option (Exchange D) :=
  if s.stage sid = .pushed then
    some { s with stage := Function.update s.stage sid .written }
  else none

def reply (s : Exchange D) (sid : SessionId) (frame : Bytes) : Option (Exchange D) :=
  if s.stage sid = .written ∧ sid ∈ s.outstanding ∧ IsResponse frame ∧
      replyId frame = s.requestId sid then
    some { s with
      unread := s.unread ++ frame
      pending := s.pending ++ [(sid, frame)] }
  else none

/-- A request ceases to be outstanding: its session is gone, and there is no
response to it on the way, nor will there be one. -/
def close (s : Exchange D) (sid : SessionId) : Option (Exchange D) :=
  if (s.stage sid = .refused ∨ s.reclaimed sid = true) ∧ ∀ p ∈ s.pending, p.1 ≠ sid then
    some { s with outstanding := s.outstanding.filter (· ≠ sid) }
  else none

def work (s : Exchange D) (w : BufferWork D) : Exchange D :=
  { s with heap := (w.act (s.heap, s.socket)).1, socket := (w.act (s.heap, s.socket)).2 }

/-- `append_from_file_descriptor`, with `n` bytes there to be read. -/
def read (s : Exchange D) (n : ℕ) : Option (Exchange D) :=
  if s.pc = .idle ∧ (s.unread.take n).length ≤ minOnceRead then
    (appendFromFileDescriptor s.heap 0 s.socket.readBuf minOnceRead
      (.data (s.unread.take n))).map fun (heap, readBuf, _) =>
        { s with heap, socket := { s.socket with readBuf }, unread := s.unread.drop n }
  else none

def parse (s : Exchange D) : Option (Exchange D) :=
  if s.pc = .idle then
    if s.socket.readBuf.length = 0 then some s
    else
      let (ret, readBuf, readAdditionalData, responseSize, receiveRequestId) :=
        (boltProtocol D).parseProtocolFn s.heap s.socket.readBuf s.socket.readAdditionalData
      let socket := { s.socket with readBuf, readAdditionalData }
      match ret with
      | .parseNotEnoughData => some { s with socket }
      | .parseError => some { s with socket := { socket with active := false } }
      | .parseOk => some { s with socket, pc := .parsed responseSize receiveRequestId }
  else none

def clock (s : Exchange D) (t : ℕ) : Option (Exchange D) :=
  match s.pc with
  | .parsed responseSize receiveRequestId =>
    if s.now ≤ t then
      some { s with now := t, pc := .draining t responseSize receiveRequestId }
    else none
  | _ => none

def pop (s : Exchange D) : Option (Exchange D) :=
  match s.pc with
  | .draining onReadBeginTime responseSize receiveRequestId =>
    match s.socket.sessionInfo with
    | [] => some { s with pc := .prepared responseSize receiveRequestId }
    | x :: q => some { s with
        socket := { s.socket with
          sessionInfo := q
          sessionMap := emplace s.socket.sessionMap (s.socket.session x).requestId x }
        pc := if onReadBeginTime ≤ (s.socket.session x).requestTime
          then .prepared responseSize receiveRequestId
          else .draining onReadBeginTime responseSize receiveRequestId }
  | _ => none

def handOut (s : Exchange D) : Option (Exchange D) :=
  match s.pc with
  | .prepared responseSize receiveRequestId => some { s with
      socket := s.socket.handOut
        (s.socket.findSession (boltProtocol D).type (fun _ => none) receiveRequestId) responseSize
      pending := s.pending.tail
      pc := .idle }
  | _ => none

def reclaim (s : Exchange D) (reclaimed : SessionId → Bool) : Option (Exchange D) :=
  if s.pc = .idle then
    some { s with
      socket := s.socket.tryReclaimSessionMap reclaimed
      reclaimed := fun sid => s.reclaimed sid ||
        (reclaimed sid && decide (s.socket.sessionMap (s.requestId sid) = some sid)) }
  else none

def step (s : Exchange D) : ExchangeAct D → Option (Exchange D)
  | .create sid beginTime sessionId => s.create sid beginTime sessionId
  | .prepareRead sid accepted => s.prepareRead sid accepted
  | .write sid => s.write sid
  | .reply sid frame => s.reply sid frame
  | .close sid => s.close sid
  | .work w => some (s.work w)
  | .read n => s.read n
  | .parse => s.parse
  | .clock t => s.clock t
  | .pop => s.pop
  | .handOut => s.handOut
  | .reclaim reclaimed => s.reclaim reclaimed

/-- The sessions.  A registered one is either queued or in the map, where no two
outstanding requests have the same id. -/
structure Registry (s : Exchange D) : Prop where
  born : ∀ sid ∈ s.outstanding, s.stage sid ≠ .unborn
  times : ∀ sid, s.stage sid ≠ .unborn → s.requestTime sid ≤ s.now
  distinct : ∀ a ∈ s.outstanding, ∀ b ∈ s.outstanding, s.requestId a = s.requestId b → a = b
  active : ∀ sid, s.stage sid = .timed ∨ s.Registered sid → sid ∈ s.outstanding
  unreclaimed : ∀ sid, s.reclaimed sid = true → s.stage sid = .pushed ∨ s.stage sid = .written
  queued : ∀ sid ∈ s.socket.sessionInfo, s.Registered sid
  nodup : s.socket.sessionInfo.Nodup
  mapped : ∀ id sid, s.socket.sessionMap id = some sid →
    s.requestId sid = id ∧ s.Registered sid ∧ sid ∉ s.socket.sessionInfo
  registered : ∀ sid, s.Registered sid →
    sid ∈ s.socket.sessionInfo ∨ s.socket.sessionMap (s.requestId sid) = some sid
  answered : ∀ p ∈ s.pending, p.1 ∈ s.outstanding ∧ s.stage p.1 = .written ∧
    replyId p.2 = s.requestId p.1

structure Streaming (s : Exchange D) : Prop where
  heap : s.heap.WF
  socket : s.socket.WF s.heap
  frames : ∀ p ∈ s.pending, IsResponse p.2
  stream : s.socket.readBuf.toString s.heap ++ s.unread = (s.pending.map Prod.snd).flatten

structure Head (s : Exchange D) (r : SessionId) (f : Bytes) (size id : ℕ) : Prop where
  pending : ∃ rest, s.pending = (r, f) :: rest
  readBuf : f <+: s.socket.readBuf.toString s.heap
  size_eq : size = f.length
  id_eq : id = replyId f

def Ahead (s : Exchange D) (r : SessionId) (t : ℕ) : Prop :=
  ∀ (i j : ℕ) (y : SessionId), i < j → s.socket.sessionInfo[i]? = some y →
    s.socket.sessionInfo[j]? = some r → s.requestTime y ≤ t

def PcOk (s : Exchange D) : CutPc → Prop
  | .idle => True
  | .parsed size id => ∃ r f, s.Head r f size id
  | .draining t size id => ∃ r f, s.Head r f size id ∧ s.Ahead r t
  | .prepared size id => ∃ r f, s.Head r f size id ∧ r ∉ s.socket.sessionInfo

structure Inv (s : Exchange D) : Prop extends Registry s, Streaming s where
  pc : s.PcOk s.pc

theorem inv_init {heap : Heap} (hw : heap.WF) : Inv (init heap : Exchange D) where
  born _ h := absurd h List.not_mem_nil
  times _ h := absurd rfl h
  distinct _ h := absurd h List.not_mem_nil
  active sid h := by simp [init, Registered] at h
  unreclaimed sid h := by cases h
  queued _ h := absurd h List.not_mem_nil
  nodup := List.nodup_nil
  mapped id sid h := by cases h
  registered sid h := by simp [init, Registered] at h
  answered _ h := absurd h List.not_mem_nil
  heap := hw
  socket := ⟨wf_empty heap, fun _ => wf_empty heap⟩
  frames _ h := absurd h List.not_mem_nil
  stream := rfl
  pc := trivial

variable {s s' : Exchange D} {sid : SessionId}

theorem Registry.of_same (hr : Registry s) (hstage : s'.stage = s.stage)
    (hout : s'.outstanding = s.outstanding) (hrec : s'.reclaimed = s.reclaimed)
    (hqueue : s'.socket.sessionInfo = s.socket.sessionInfo)
    (hmap : s'.socket.sessionMap = s.socket.sessionMap) (hnow : s.now ≤ s'.now)
    (hpend : ∀ p ∈ s'.pending, p ∈ s.pending)
    (hid : ∀ sid, s'.requestId sid = s.requestId sid)
    (htime : ∀ sid, s'.requestTime sid = s.requestTime sid) : Registry s' := by
  have hreg : ∀ sid, s'.Registered sid ↔ s.Registered sid := by
    intro sid
    rw [Registered, Registered, hstage, hrec]
  constructor
  case born => rw [hout, hstage]; exact hr.born
  case times =>
    intro sid hsid
    rw [htime]
    rw [hstage] at hsid
    exact (hr.times sid hsid).trans hnow
  case distinct =>
    simp only [hout, hid]
    exact hr.distinct
  case active =>
    simp only [hout, hreg, hstage]
    exact hr.active
  case unreclaimed => rw [hrec, hstage]; exact hr.unreclaimed
  case queued =>
    simp only [hqueue, hreg]
    exact hr.queued
  case nodup => rw [hqueue]; exact hr.nodup
  case mapped =>
    simp only [hqueue, hmap, hreg, hid]
    exact hr.mapped
  case registered =>
    simp only [hqueue, hmap, hreg, hid]
    exact hr.registered
  case answered =>
    intro p hp
    rw [hout, hstage, hid]
    exact hr.answered p (hpend p hp)

/-- What the loop thread knows stays true when responses and sessions are added
behind those that are there. -/
theorem PcOk.mono {pc : CutPc} (hp : s.PcOk pc) (new : List SessionId)
    (hpend : s.pending <+: s'.pending)
    (hbuf : s'.socket.readBuf.toString s'.heap = s.socket.readBuf.toString s.heap)
    (hqueue : s'.socket.sessionInfo = s.socket.sessionInfo ++ new)
    (hnew : ∀ p ∈ s.pending, p.1 ∉ new)
    (htime : ∀ y ∈ s.socket.sessionInfo, s'.requestTime y = s.requestTime y) : s'.PcOk pc := by
  have hhead : ∀ {r f size id}, s.Head r f size id → s'.Head r f size id ∧ r ∉ new := by
    rintro r f size id ⟨⟨rest, hrest⟩, hpre, hsize, hid⟩
    obtain ⟨more, hmore⟩ := hpend
    refine ⟨⟨⟨rest ++ more, ?_⟩, hbuf ▸ hpre, hsize, hid⟩, ?_⟩
    · rw [← hmore, hrest]
      rfl
    · exact hnew (r, f) (by rw [hrest]; exact List.mem_cons_self)
  cases pc with
  | idle => trivial
  | parsed size id =>
    obtain ⟨r, f, hh⟩ := hp
    exact ⟨r, f, (hhead hh).1⟩
  | draining t size id =>
    obtain ⟨r, f, hh, ha⟩ := hp
    refine ⟨r, f, (hhead hh).1, ?_⟩
    intro i j y hij hi hj
    rw [hqueue] at hi hj
    have hjlt : j < s.socket.sessionInfo.length := by
      by_contra hge
      rw [List.getElem?_append_right (not_lt.mp hge)] at hj
      exact (hhead hh).2 (List.mem_of_getElem? hj)
    rw [List.getElem?_append_left hjlt] at hj
    rw [List.getElem?_append_left (hij.trans hjlt)] at hi
    rw [htime y (List.mem_of_getElem? hi)]
    exact ha i j y hij hi hj
  | prepared size id =>
    obtain ⟨r, f, hh, ha⟩ := hp
    refine ⟨r, f, (hhead hh).1, ?_⟩
    rw [hqueue, List.mem_append]
    exact fun h => h.elim ha (hhead hh).2

theorem Registered.ne_unborn (h : s.Registered sid) : s.stage sid ≠ .unborn := by
  rcases h with ⟨h | h, -⟩ <;> simp [h]

structure Created (s s' : Exchange D) (sid : SessionId) (id : ℕ) : Prop where
  stage : ∀ o, o ≠ sid → s'.stage o = s.stage o
  session : ∀ o, o ≠ sid → s'.socket.session o = s.socket.session o
  stage_new : s'.stage sid = .timed
  id_new : s'.requestId sid = id
  time_new : s'.requestTime sid = s'.now

theorem Created.registry {id : ℕ} (hc : Created s s' sid id) (hr : Registry s)
    (hunborn : s.stage sid = .unborn) (hnow : s.now ≤ s'.now)
    (hfresh : ∀ o ∈ s.outstanding, s.requestId o ≠ id)
    (hout : s'.outstanding = sid :: s.outstanding) (hrec : s'.reclaimed = s.reclaimed)
    (hqueue : s'.socket.sessionInfo = s.socket.sessionInfo)
    (hmap : s'.socket.sessionMap = s.socket.sessionMap) (hpend : s'.pending = s.pending) :
    Registry s' := by
  -- nobody has used the id of the session object before
  have hne : ∀ o, s.stage o ≠ .unborn → o ≠ sid := by
    rintro o ho rfl
    exact ho hunborn
  have hid : ∀ o, s.stage o ≠ .unborn → s'.requestId o = s.requestId o := fun o ho =>
    congrArg ReadSession.requestId (hc.session o (hne o ho))
  have hreg : ∀ o, s'.Registered o ↔ s.Registered o := by
    intro o
    by_cases ho : o = sid
    · subst ho
      simp [Registered, hc.stage_new, hunborn]
    · rw [Registered, Registered, hc.stage o ho, hrec]
  have hidr : ∀ o, s.Registered o → s'.requestId o = s.requestId o := fun o ho =>
    hid o ho.ne_unborn
  constructor
  case born =>
    intro o ho
    rw [hout, List.mem_cons] at ho
    rcases ho with rfl | ho
    · simp [hc.stage_new]
    · rw [hc.stage o (hne o (hr.born o ho))]
      exact hr.born o ho
  case times =>
    intro o ho
    by_cases hos : o = sid
    · subst hos
      exact hc.time_new.le
    · rw [hc.stage o hos] at ho
      rw [requestTime, hc.session o hos]
      exact (hr.times o ho).trans hnow
  case distinct =>
    intro a ha b hb hab
    rw [hout, List.mem_cons] at ha hb
    rcases ha with rfl | ha <;> rcases hb with rfl | hb
    · rfl
    · rw [hc.id_new, hid b (hr.born b hb)] at hab
      exact absurd hab.symm (hfresh b hb)
    · rw [hc.id_new, hid a (hr.born a ha)] at hab
      exact absurd hab (hfresh a ha)
    · rw [hid a (hr.born a ha), hid b (hr.born b hb)] at hab
      exact hr.distinct a ha b hb hab
  case active =>
    intro o ho
    rw [hout, List.mem_cons]
    by_cases hos : o = sid
    · exact Or.inl hos
    · rw [hc.stage o hos, hreg] at ho
      exact Or.inr (hr.active o ho)
  case unreclaimed =>
    intro o ho
    rw [hrec] at ho
    have hold := hr.unreclaimed o ho
    rw [hc.stage o (hne o (by rcases hold with h | h <;> simp [h]))]
    exact hold
  case queued =>
    simp only [hqueue, hreg]
    exact hr.queued
  case nodup => rw [hqueue]; exact hr.nodup
  case mapped =>
    intro k o ho
    rw [hmap] at ho
    obtain ⟨h₁, h₂, h₃⟩ := hr.mapped k o ho
    rw [hqueue, hreg, hidr o h₂]
    exact ⟨h₁, h₂, h₃⟩
  case registered =>
    intro o ho
    rw [hreg] at ho
    rw [hqueue, hmap, hidr o ho]
    exact hr.registered o ho
  case answered =>
    intro p hp
    rw [hpend] at hp
    obtain ⟨h₁, h₂, h₃⟩ := hr.answered p hp
    have hb := hr.born p.1 h₁
    rw [hout, hc.stage p.1 (hne p.1 hb), hid p.1 hb]
    exact ⟨List.mem_cons_of_mem _ h₁, h₂, h₃⟩

theorem Inv.create (hi : Inv s) {beginTime sessionId : ℕ}
    (h : s.create sid beginTime sessionId = some s') : Inv s' := by
  unfold Exchange.create at h
  split_ifs at h with hc
  obtain ⟨hunborn, hnow, hfresh⟩ := hc
  have hcreated : Created s s' sid (converseBoltRequest sessionId) := by
    obtain rfl := Option.some.inj h
    constructor
    · exact fun o ho => Function.update_of_ne ho _ _
    · exact fun o ho => Function.update_of_ne ho _ _
    · exact Function.update_self ..
    · simp [requestId]
    · simp [requestTime]
  have hold : ∀ y ∈ s.socket.sessionInfo, y ≠ sid := by
    rintro y hy rfl
    exact (hi.queued _ hy).ne_unborn hunborn
  have hpc : s'.PcOk s.pc := by
    refine hi.pc.mono [] ?_ ?_ ?_ (by simp) fun y hy =>
      congrArg ReadSession.requestTime (hcreated.session y (hold y hy))
    all_goals obtain rfl := Option.some.inj h
    · exact List.prefix_rfl
    · rfl
    · simp
  have hwf : ∀ o, (s'.socket.session o).readBuf.WF s.heap := by
    intro o
    by_cases ho : o = sid
    · obtain rfl := Option.some.inj h
      simpa [ho] using wf_empty s.heap
    · rw [hcreated.session o ho]
      exact hi.socket.session o
  obtain rfl := Option.some.inj h
  exact ⟨hcreated.registry hi.toRegistry hunborn hnow hfresh rfl rfl rfl rfl rfl,
    ⟨hi.heap, ⟨hi.socket.readBuf, hwf⟩, hi.frames, hi.stream⟩, hpc⟩

theorem Registry.setStage (hr : Registry s) {stage : SendStage}
    (hst : s.stage sid = .timed ∧ stage = .refused ∨ s.stage sid = .pushed ∧ stage = .written) :
    Registry { s with stage := Function.update s.stage sid stage } := by
  have hborn : s.stage sid ≠ .unborn := by rcases hst with ⟨h, -⟩ | ⟨h, -⟩ <;> simp [h]
  -- neither move queues the session or takes it back
  have hreg : ∀ o, Registered { s with stage := Function.update s.stage sid stage } o ↔
      s.Registered o := by
    intro o
    by_cases ho : o = sid
    · subst ho
      rcases hst with ⟨h, rfl⟩ | ⟨h, rfl⟩ <;> simp [Registered, h]
    · simp [Registered, Function.update_of_ne ho]
  constructor
  case born =>
    intro o ho
    by_cases hos : o = sid
    · subst hos
      rcases hst with ⟨-, rfl⟩ | ⟨-, rfl⟩ <;> simp
    · simpa [Function.update_of_ne hos] using hr.born o ho
  case times =>
    intro o ho
    by_cases hos : o = sid
    · subst hos
      exact hr.times o hborn
    · exact hr.times o (by simpa [Function.update_of_ne hos] using ho)
  case distinct => exact hr.distinct
  case active =>
    intro o ho
    rw [hreg] at ho
    refine hr.active o (ho.imp_left fun ho => ?_)
    by_cases hos : o = sid
    · subst hos
      rcases hst with ⟨-, rfl⟩ | ⟨-, rfl⟩ <;> simp at ho
    · simpa [Function.update_of_ne hos] using ho
  case unreclaimed =>
    intro o ho
    have hold := hr.unreclaimed o ho
    by_cases hos : o = sid
    · subst hos
      rcases hst with ⟨h, rfl⟩ | ⟨-, rfl⟩
      · simp [h] at hold
      · simp
    · simpa [Function.update_of_ne hos] using hold
  case queued => exact fun o ho => (hreg o).mpr (hr.queued o ho)
  case nodup => exact hr.nodup
  case mapped =>
    intro k o ho
    obtain ⟨h₁, h₂, h₃⟩ := hr.mapped k o ho
    exact ⟨h₁, (hreg o).mpr h₂, h₃⟩
  case registered => exact fun o ho => hr.registered o ((hreg o).mp ho)
  case answered =>
    intro p hp
    obtain ⟨h₁, h₂, h₃⟩ := hr.answered p hp
    refine ⟨h₁, ?_, h₃⟩
    -- only a session that was written is answered
    have hne : p.1 ≠ sid := by
      rintro rfl
      rcases hst with ⟨h, -⟩ | ⟨h, -⟩ <;> simp [h] at h₂
    simpa [Function.update_of_ne hne] using h₂

theorem Inv.setStage (hi : Inv s) {stage : SendStage}
    (hst : s.stage sid = .timed ∧ stage = .refused ∨ s.stage sid = .pushed ∧ stage = .written) :
    Inv { s with stage := Function.update s.stage sid stage } :=
  ⟨hi.toRegistry.setStage hst, ⟨hi.heap, hi.socket, hi.frames, hi.stream⟩,
    hi.pc.mono [] List.prefix_rfl rfl (by simp) (by simp) fun _ _ => rfl⟩

theorem Registry.push (hr : Registry s) (htimed : s.stage sid = .timed) :
    Registry { s with
      socket := { s.socket with sessionInfo := s.socket.sessionInfo ++ [sid] }
      stage := Function.update s.stage sid .pushed } := by
  have hrec : s.reclaimed sid = false := by
    by_contra hne
    rcases hr.unreclaimed sid (by simpa using hne) with h | h <;> simp [h] at htimed
  have hnot : ¬ s.Registered sid := by simp [Registered, htimed]
  have hreg : ∀ o, Registered { s with
      socket := { s.socket with sessionInfo := s.socket.sessionInfo ++ [sid] }
      stage := Function.update s.stage sid .pushed } o ↔ s.Registered o ∨ o = sid := by
    intro o
    by_cases ho : o = sid
    · subst ho
      simp [Registered, hrec]
    · simp [Registered, ho]
  constructor
  case born =>
    intro o ho
    by_cases hos : o = sid
    · simp [hos]
    · simpa [Function.update_of_ne hos] using hr.born o ho
  case times =>
    intro o ho
    by_cases hos : o = sid
    · subst hos
      exact hr.times o (by simp [htimed])
    · exact hr.times o (by simpa [Function.update_of_ne hos] using ho)
  case distinct => exact hr.distinct
  case active =>
    intro o ho
    by_cases hos : o = sid
    · subst hos
      exact hr.active o (Or.inl htimed)
    · rw [hreg] at ho
      simp only [Function.update_of_ne hos, hos, or_false] at ho
      exact hr.active o ho
  case unreclaimed =>
    intro o ho
    by_cases hos : o = sid
    · simp [hos]
    · simpa [Function.update_of_ne hos] using hr.unreclaimed o ho
  case queued =>
    intro o ho
    rw [hreg]
    exact (List.mem_append.mp ho).imp (hr.queued o) List.mem_singleton.mp
  case nodup =>
    apply List.Nodup.append hr.nodup (List.nodup_singleton sid)
    intro o ho hos
    rw [List.mem_singleton.mp hos] at ho
    exact hnot (hr.queued sid ho)
  case mapped =>
    intro k o ho
    obtain ⟨h₁, h₂, h₃⟩ := hr.mapped k o ho
    refine ⟨h₁, (hreg o).mpr (Or.inl h₂), ?_⟩
    simp only [List.mem_append, List.mem_singleton, not_or]
    refine ⟨h₃, ?_⟩
    rintro rfl
    exact hnot h₂
  case registered =>
    intro o ho
    rw [hreg] at ho
    rcases ho with ho | rfl
    · exact (hr.registered o ho).imp_left (List.mem_append_left _)
    · exact Or.inl (List.mem_append_right _ (List.mem_singleton_self _))
  case answered =>
    intro p hp
    obtain ⟨h₁, h₂, h₃⟩ := hr.answered p hp
    refine ⟨h₁, ?_, h₃⟩
    have hne : p.1 ≠ sid := by
      rintro rfl
      simp [htimed] at h₂
    simpa [Function.update_of_ne hne] using h₂

theorem Inv.prepareRead (hi : Inv s) {accepted : Bool}
    (h : s.prepareRead sid accepted = some s') : Inv s' := by
  unfold Exchange.prepareRead at h
  split_ifs at h with htimed hacc
  · obtain rfl := Option.some.inj h
    refine ⟨hi.toRegistry.push htimed,
      ⟨hi.heap, ⟨hi.socket.readBuf, hi.socket.session⟩, hi.frames, hi.stream⟩,
      hi.pc.mono [sid] List.prefix_rfl rfl rfl ?_ fun _ _ => rfl⟩
    intro p hp
    rw [List.mem_singleton]
    rintro rfl
    have hwritten := (hi.answered p hp).2.1
    rw [htimed] at hwritten
    cases hwritten
  · exact Option.some.inj h ▸ hi.setStage (Or.inl ⟨htimed, rfl⟩)

theorem Inv.write (hi : Inv s) (h : s.write sid = some s') : Inv s' := by
  unfold Exchange.write at h
  split_ifs at h with hp
  exact Option.some.inj h ▸ hi.setStage (Or.inr ⟨hp, rfl⟩)

theorem Inv.reply (hi : Inv s) {frame : Bytes} (h : s.reply sid frame = some s') : Inv s' := by
  unfold Exchange.reply at h
  split_ifs at h with hc
  obtain ⟨hwritten, hout, hframe, hid⟩ := hc
  obtain rfl := Option.some.inj h
  refine ⟨⟨hi.born, hi.times, hi.distinct, hi.active, hi.unreclaimed, hi.queued, hi.nodup,
    hi.mapped, hi.registered, ?_⟩, ⟨hi.heap, hi.socket, ?_, ?_⟩,
    hi.pc.mono [] (List.prefix_append _ _) rfl (by simp) (by simp) fun _ _ => rfl⟩
  · intro p hp
    rcases List.mem_append.mp hp with hp | hp
    · exact hi.answered p hp
    · obtain rfl := List.mem_singleton.mp hp
      exact ⟨hout, hwritten, hid⟩
  · intro p hp
    rcases List.mem_append.mp hp with hp | hp
    · exact hi.frames p hp
    · obtain rfl := List.mem_singleton.mp hp
      exact hframe
  · have hstream := hi.stream
    simp only [List.map_append, List.flatten_append, ← hstream, List.append_assoc]
    simp

theorem Inv.close (hi : Inv s) (h : s.close sid = some s') : Inv s' := by
  unfold Exchange.close at h
  split_ifs at h with hc
  obtain ⟨hgone, hpend⟩ := hc
  obtain rfl := Option.some.inj h
  have hmem : ∀ o, o ∈ s.outstanding.filter (· ≠ sid) ↔ o ∈ s.outstanding ∧ o ≠ sid := by
    intro o
    simp
  refine ⟨⟨?_, hi.times, ?_, ?_, hi.unreclaimed, hi.queued, hi.nodup, hi.mapped, hi.registered,
    ?_⟩, ⟨hi.heap, hi.socket, hi.frames, hi.stream⟩,
    hi.pc.mono [] List.prefix_rfl rfl (by simp) (by simp) fun _ _ => rfl⟩
  · exact fun o ho => hi.born o ((hmem o).mp ho).1
  · exact fun a ha b hb => hi.distinct a ((hmem a).mp ha).1 b ((hmem b).mp hb).1
  · intro o ho
    refine (hmem o).mpr ⟨hi.active o ho, ?_⟩
    rintro rfl
    rcases hgone with hg | hg
    · rcases ho with ho | ⟨ho | ho, -⟩ <;> rw [hg] at ho <;> cases ho
    · rcases ho with ho | ⟨-, ho⟩
      · rcases hi.unreclaimed _ hg with h | h <;> rw [h] at ho <;> cases ho
      · rw [hg] at ho
        cases ho
  · intro p hp
    obtain ⟨h₁, h₂⟩ := hi.answered p hp
    exact ⟨(hmem p.1).mpr ⟨h₁, hpend p hp⟩, h₂⟩

theorem Inv.work (hi : Inv s) (w : BufferWork D) : Inv (s.work w) := by
  have hqueue := w.sessionInfo_eq (s.heap, s.socket)
  have hmap := w.sessionMap_eq (s.heap, s.socket)
  have hbuf := w.readBuf_eq (s.heap, s.socket)
  have hgrows := w.grows (s.heap, s.socket) hi.heap hi.socket
  have hbytes : (s.work w).socket.readBuf.toString (s.work w).heap =
      s.socket.readBuf.toString s.heap := by
    unfold Exchange.work
    simp only [hbuf]
    exact toString_grows hi.socket.readBuf hgrows
  refine ⟨hi.toRegistry.of_same rfl rfl rfl hqueue hmap le_rfl (fun _ h => h)
    (w.requestId_eq _) (w.requestTime_eq _),
    ⟨w.heap_wf _ hi.heap hi.socket, w.socket_wf _ hi.heap hi.socket, hi.frames, ?_⟩,
    hi.pc.mono [] List.prefix_rfl hbytes ?_ (by simp) fun y _ => w.requestTime_eq _ y⟩
  · rw [hbytes]
    exact hi.stream
  · rw [List.append_nil]
    exact hqueue

end Exchange

end SofaBolt
