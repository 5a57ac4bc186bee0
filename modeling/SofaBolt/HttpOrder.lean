import SofaBolt.Exchange
import SofaBolt.HttpReports

/- The senders, the timers and the loop thread of one HTTP socket run together; `begin()` of an
unordered map is any of its entries. -/

namespace SofaBolt.Http

open IOBuffer Run
open Bolt (EResParseResult emplace)

variable {σ : Type}

/-- `created` are all sessions there have been, `written` those whose request has
been written, in this order, and `handed` tells for every response so far to
which session it went and whether that had been notified before. -/
structure HttpExchange (σ : Type) where
  socket : Socket (HttpParser σ)
  stage : SessionId → SendStage
  created : List SessionId
  written : List SessionId
  notified : SessionId → Bool
  handed : List (Option SessionId × Bool)
  pc : CutPc

inductive HttpAct where
  | create (sid : SessionId) (beginTime sessionId : ℕ)
  | prepareRead (sid : SessionId) (accepted : Bool)
  | write (sid : SessionId)
  | timeout (sid : SessionId)
  | parse (h : Heap) (readBuf : IOBuffer)
  | clock (t : ℕ)
  | pop
  | handOut (itr : Option SessionId)
  | reclaim (reclaimed : SessionId → Bool)

namespace HttpExchange

def requestId (s : HttpExchange σ) (sid : SessionId) : ℕ := (s.socket.session sid).requestId

def Queued (s : HttpExchange σ) (sid : SessionId) : Prop :=
  s.stage sid = .pushed ∨ s.stage sid = .written

def InMap (s : HttpExchange σ) (sid : SessionId) : Prop :=
  s.socket.sessionMap (s.requestId sid) = some sid

instance (s : HttpExchange σ) (sid : SessionId) : Decidable (s.Queued sid) :=
  inferInstanceAs (Decidable (_ ∨ _))

instance (s : HttpExchange σ) (sid : SessionId) : Decidable (s.InMap sid) :=
  inferInstanceAs (Decidable (_ = _))

def IsBegin (s : HttpExchange σ) : Option SessionId → Prop
  | some sid => s.InMap sid
  | none => ∀ sid ∈ s.created, ¬ s.InMap sid

instance (s : HttpExchange σ) : (itr : Option SessionId) → Decidable (s.IsBegin itr)
  | some sid => inferInstanceAs (Decidable (s.InMap sid))
  | none => inferInstanceAs (Decidable (∀ sid ∈ s.created, ¬ s.InMap sid))

def Due (s : HttpExchange σ) (r : SessionId) : Prop := s.written[s.handed.length]? = some r

def init : HttpExchange σ where
  socket :=
    { active := true, readBuf := IOBuffer.empty, sessionInfo := [], sessionMap := fun _ => none
      readAdditionalData := none, session := fun _ => ⟨0, 0, IOBuffer.empty, none⟩ }
  stage := fun _ => .unborn
  created := []
  written := []
  notified := fun _ => false
  handed := []
  pc := .idle

/-- A sender sets up its session; `converseHttpRequest` leaves the id as it is. -/
def create (s : HttpExchange σ) (sid : SessionId) (beginTime sessionId : ℕ) :
    Option (HttpExchange σ) :=
  if s.stage sid = .unborn ∧ ∀ o ∈ s.created, s.requestId o ≠ sessionId then
    some { s with
      socket := { s.socket with
        session := Function.update s.socket.session sid
          ⟨sessionId, beginTime, IOBuffer.empty, none⟩ }
      stage := Function.update s.stage sid .timed
      created := sid :: s.created }
  else none

def prepareRead (s : HttpExchange σ) (sid : SessionId) (accepted : Bool) :
    Option (HttpExchange σ) :=
  if s.stage sid = .timed then
    if accepted then
      some { s with
        socket := { s.socket with sessionInfo := s.socket.sessionInfo ++ [sid] }
        stage := Function.update s.stage sid .pushed }
    else some { s with stage := Function.update s.stage sid .refused }
  else none

def write (s : HttpExchange σ) (sid : SessionId) : Option (HttpExchange σ) :=
  if s.stage sid = .pushed then
    some { s with
      stage := Function.update s.stage sid .written
      written := s.written ++ [sid] }
  else none

def timeout (s : HttpExchange σ) (sid : SessionId) : Option (HttpExchange σ) :=
  if s.Queued sid then some { s with notified := Function.update s.notified sid true } else none

/-- `cutIntoMessage` up to the result of `parse_protocol_fn`, on whatever has been
read.  The server answers only what has been written. -/
def parse (lib : HttpParserLib σ) (stage : HttpParserStage) (s : HttpExchange σ) (h : Heap)
    (readBuf : IOBuffer) : Option (HttpExchange σ) :=
  if s.pc = .idle then
    if readBuf.length = 0 then some { s with socket := { s.socket with readBuf } }
    else
      let (ret, readBuf, readAdditionalData, responseSize, receiveRequestId) :=
        (httpProtocol lib stage).parseProtocolFn h readBuf s.socket.readAdditionalData
      let socket := { s.socket with readBuf, readAdditionalData }
      match ret with
      | .parseNotEnoughData => some { s with socket }
      | .parseError => some { s with socket := { socket with active := false } }
      | .parseOk =>
        if s.handed.length < s.written.length then
          some { s with socket, pc := .parsed responseSize receiveRequestId }
        else none
  else none

def clock (s : HttpExchange σ) (t : ℕ) : Option (HttpExchange σ) :=
  match s.pc with
  | .parsed responseSize receiveRequestId =>
    some { s with pc := .draining t responseSize receiveRequestId }
  | _ => none

def pop (s : HttpExchange σ) : Option (HttpExchange σ) :=
  match s.pc with
  | .draining onReadBeginTime responseSize receiveRequestId =>
    match s.socket.sessionInfo with
    | [] => some { s with pc := .prepared responseSize receiveRequestId }
    | x :: q => some { s with
        socket := { s.socket with
          sessionInfo := q
          sessionMap := emplace s.socket.sessionMap (s.requestId x) x }
        pc := if onReadBeginTime ≤ (s.socket.session x).requestTime
          then .prepared responseSize receiveRequestId
          else .draining onReadBeginTime responseSize receiveRequestId }
  | _ => none

def setNotified (s : HttpExchange σ) : Option SessionId → SessionId → Bool
  | some sid => Function.update s.notified sid true
  | none => s.notified

def handOut (s : HttpExchange σ) (itr : Option SessionId) : Option (HttpExchange σ) :=
  match s.pc with
  | .prepared responseSize receiveRequestId =>
    if s.IsBegin itr then some { s with
      socket := s.socket.handOut
        (s.socket.findSession .protocolHttp (fun _ => itr) receiveRequestId) responseSize
      notified := s.setNotified itr
      handed := s.handed ++ [(itr, itr.any s.notified)]
      pc := .idle }
    else none
  | _ => none

/-- `tryReclaimSessionMap`; `tryExclusive` succeeds on notified sessions only. -/
def reclaim (s : HttpExchange σ) (reclaimed : SessionId → Bool) : Option (HttpExchange σ) :=
  if s.pc = .idle ∧ ∀ sid ∈ s.created, reclaimed sid = true → s.notified sid = true then
    some { s with socket := s.socket.tryReclaimSessionMap reclaimed }
  else none

def step (lib : HttpParserLib σ) (stage : HttpParserStage) (s : HttpExchange σ) :
    HttpAct → Option (HttpExchange σ)
  | .create sid beginTime sessionId => s.create sid beginTime sessionId
  | .prepareRead sid accepted => s.prepareRead sid accepted
  | .write sid => s.write sid
  | .timeout sid => s.timeout sid
  | .parse h readBuf => s.parse lib stage h readBuf
  | .clock t => s.clock t
  | .pop => s.pop
  | .handOut itr => s.handOut itr
  | .reclaim reclaimed => s.reclaim reclaimed

structure Registry (s : HttpExchange σ) : Prop where
  created : ∀ sid, s.stage sid ≠ .unborn ↔ sid ∈ s.created
  distinct : ∀ a ∈ s.created, ∀ b ∈ s.created, s.requestId a = s.requestId b → a = b
  queued : ∀ sid ∈ s.socket.sessionInfo, s.Queued sid
  nodup : s.socket.sessionInfo.Nodup
  mapped : ∀ id sid, s.socket.sessionMap id = some sid →
    s.requestId sid = id ∧ s.Queued sid ∧ sid ∉ s.socket.sessionInfo
  present : ∀ sid, s.Queued sid → s.notified sid = false →
    sid ∈ s.socket.sessionInfo ∨ s.InMap sid

structure Answers (s : HttpExchange σ) : Prop where
  written : ∀ sid ∈ s.written, s.stage sid = .written
  handed : s.handed.length ≤ s.written.length
  due : s.pc ≠ .idle → s.handed.length < s.written.length

/-- After the loop over `_session_info` the session that is due is in the map, or
it has been notified, or there is another one. -/
def Drained (s : HttpExchange σ) : Prop :=
  ∀ r, s.Due r → s.notified r = false → s.InMap r ∨ ∃ j, j ≠ r ∧ s.InMap j

structure Inv (s : HttpExchange σ) : Prop extends Registry s, Answers s where
  prepared : ∀ size id, s.pc = .prepared size id → s.Drained

variable {s s' : HttpExchange σ}

theorem Queued.created (hi : s.Registry) {sid : SessionId} (hq : s.Queued sid) :
    sid ∈ s.created := by
  rw [← hi.created]
  rcases hq with hq | hq <;> rw [hq] <;> rintro ⟨⟩

theorem inv_init : Inv (init : HttpExchange σ) where
  created _ := iff_of_false (fun h => h rfl) List.not_mem_nil
  distinct _ h := absurd h List.not_mem_nil
  queued _ h := absurd h List.not_mem_nil
  nodup := List.nodup_nil
  mapped _ _ h := by cases h
  present _ h := by rcases h with h | h <;> cases h
  written _ h := absurd h List.not_mem_nil
  handed := le_rfl
  due h := absurd rfl h
  prepared _ _ h := by cases h

theorem queued_update_of_ne {sid x : SessionId} {st : SendStage} (hne : x ≠ sid)
    (hst : s'.stage = Function.update s.stage sid st) : s'.Queued x ↔ s.Queued x := by
  unfold Queued
  rw [hst, Function.update_of_ne hne]

theorem Drained.congr (hd : s.Drained) (hdue : ∀ r, s'.Due r → s.Due r)
    (hnot : ∀ r, s'.notified r = false → s.notified r = false)
    (hmap : ∀ sid, s.InMap sid → s'.InMap sid) : s'.Drained := by
  intro r hr hn
  rcases hd r (hdue r hr) (hnot r hn) with hin | ⟨j, hne, hj⟩
  · exact .inl (hmap r hin)
  · exact .inr ⟨j, hne, hmap j hj⟩

theorem Inv.create (hi : s.Inv) {sid : SessionId} {beginTime sessionId : ℕ}
    (h : s.create sid beginTime sessionId = some s') : s'.Inv := by
  unfold HttpExchange.create at h
  split_ifs at h with hc
  obtain ⟨hunborn, hid⟩ := hc
  have hs' := (Option.some.inj h).symm
  -- the new session is none of those the socket knows
  have hold : ∀ x ∈ s.created, x ≠ sid := by
    rintro x hx rfl
    exact (hi.created x).mpr hx hunborn
  have hreq : ∀ x ∈ s.created, s'.requestId x = s.requestId x := by
    intro x hx
    simp only [hs', requestId, Function.update_of_ne (hold x hx)]
  have hnew : s'.requestId sid = sessionId := by
    simp only [hs', requestId, Function.update_self]
  have hqueued : ∀ x, s'.Queued x ↔ s.Queued x := by
    intro x
    by_cases hx : x = sid
    · subst hx
      simp [hs', Queued, hunborn]
    · exact queued_update_of_ne hx (by rw [hs'])
  have hmap : ∀ x, s.InMap x → s'.InMap x := by
    intro x hx
    unfold InMap
    rw [hreq x ((hi.mapped _ x hx).2.1.created hi.toRegistry)]
    rw [hs']
    exact hx
  subst hs'
  refine { hi with
    created := ?_, distinct := ?_, queued := ?_, mapped := ?_, present := ?_, written := ?_,
    prepared := ?_ }
  · intro x
    rw [List.mem_cons, ← hi.created]
    by_cases hx : x = sid
    · simp [hx]
    · simp [hx]
  · intro a ha b hb hab
    rcases List.mem_cons.mp ha with rfl | ha' <;> rcases List.mem_cons.mp hb with rfl | hb'
    · rfl
    · rw [hnew, hreq b hb'] at hab
      exact absurd hab.symm (hid b hb')
    · rw [hnew, hreq a ha'] at hab
      exact absurd hab (hid a ha')
    · rw [hreq a ha', hreq b hb'] at hab
      exact hi.distinct a ha' b hb' hab
  · exact fun x hx => (hqueued x).mpr (hi.queued x hx)
  · intro id x hx
    obtain ⟨hrid, hq, hnin⟩ := hi.mapped id x hx
    exact ⟨(hreq x (hq.created hi.toRegistry)).trans hrid, (hqueued x).mpr hq, hnin⟩
  · intro x hq hn
    exact (hi.present x ((hqueued x).mp hq) hn).imp id (hmap x)
  · intro x hx
    have hst := hi.written x hx
    have hne := hold x ((hi.created x).mp (by rw [hst]; rintro ⟨⟩))
    exact (Function.update_of_ne hne _ _).trans hst
  · intro size id hpc
    exact (hi.prepared size id hpc).congr (fun _ h => h) (fun _ h => h) hmap

/-- A sender goes on to a stage in which its session is as much queued as before. -/
theorem Registry.setStage (hi : s.Registry) {sid : SessionId} (st : SendStage)
    (hborn : s.stage sid ≠ .unborn) (hst : st ≠ .unborn)
    (hq : st = .pushed ∨ st = .written ↔ s.Queued sid) :
    Registry { s with stage := Function.update s.stage sid st } ∧
      ∀ x, Queued { s with stage := Function.update s.stage sid st } x ↔ s.Queued x := by
  have hqueued : ∀ x, Queued { s with stage := Function.update s.stage sid st } x ↔ s.Queued x := by
    intro x
    by_cases hx : x = sid
    · subst hx
      simpa [Queued] using hq
    · exact queued_update_of_ne hx rfl
  refine ⟨{ hi with created := ?_, queued := ?_, mapped := ?_, present := ?_ }, hqueued⟩
  · intro x
    rw [← hi.created]
    by_cases hx : x = sid
    · subst hx
      simp [hst, hborn]
    · simp [hx]
  · exact fun x hx => (hqueued x).mpr (hi.queued x hx)
  · intro id x hx
    obtain ⟨hrid, hq, hnin⟩ := hi.mapped id x hx
    exact ⟨hrid, (hqueued x).mpr hq, hnin⟩
  · exact fun x hq => hi.present x ((hqueued x).mp hq)

theorem Inv.prepareRead (hi : s.Inv) {sid : SessionId} {accepted : Bool}
    (h : s.prepareRead sid accepted = some s') : s'.Inv := by
  unfold HttpExchange.prepareRead at h
  split_ifs at h with htimed hacc
  · have hs' := (Option.some.inj h).symm
    have hnot : ∀ x, s.Queued x → x ≠ sid := by
      rintro x hq rfl
      rcases hq with hq | hq <;> rw [htimed] at hq <;> cases hq
    have hqueued : ∀ x, x ≠ sid → (s'.Queued x ↔ s.Queued x) :=
      fun x hx => queued_update_of_ne hx (by rw [hs'])
    subst hs'
    refine { hi with
      created := ?_, queued := ?_, nodup := ?_, mapped := ?_, present := ?_, written := ?_ }
    · intro x
      rw [← hi.created]
      by_cases hx : x = sid
      · simp [hx, htimed]
      · simp [hx]
    · intro x hx
      rcases List.mem_append.mp hx with hx | hx
      · have hq := hi.queued x hx
        exact (hqueued x (hnot x hq)).mpr hq
      · obtain rfl := List.mem_singleton.mp hx
        simp [Queued]
    · refine List.nodup_append'.mpr ⟨hi.nodup, List.nodup_singleton sid, ?_⟩
      rw [List.disjoint_singleton]
      exact fun hmem => hnot sid (hi.queued sid hmem) rfl
    · intro id x hx
      obtain ⟨hrid, hq, hnin⟩ := hi.mapped id x hx
      refine ⟨hrid, (hqueued x (hnot x hq)).mpr hq, ?_⟩
      simp [hnin, hnot x hq]
    · intro x hq hn
      by_cases hx : x = sid
      · exact .inl (by simp [hx])
      · exact (hi.present x ((hqueued x hx).mp hq) hn).imp (List.mem_append_left _) id
    · intro x hx
      have hst := hi.written x hx
      exact (Function.update_of_ne (hnot x (.inr hst)) _ _).trans hst
  · obtain rfl := Option.some.inj h
    have hborn : s.stage sid ≠ .unborn := by rw [htimed]; rintro ⟨⟩
    have hreg := (hi.toRegistry.setStage .refused hborn (by cases ·) (by simp [Queued, htimed])).1
    refine { hreg, hi with written := ?_ }
    intro x hx
    have hst := hi.written x hx
    have hne : x ≠ sid := by
      rintro rfl
      rw [htimed] at hst
      cases hst
    exact (Function.update_of_ne hne _ _).trans hst

theorem Inv.write (hi : s.Inv) {sid : SessionId} (h : s.write sid = some s') : s'.Inv := by
  unfold HttpExchange.write at h
  split_ifs at h with hpushed
  obtain rfl := Option.some.inj h
  have hborn : s.stage sid ≠ .unborn := by rw [hpushed]; rintro ⟨⟩
  have hreg := (hi.toRegistry.setStage .written hborn (by cases ·) (by simp [Queued, hpushed])).1
  have hlen : (s.written ++ [sid]).length = s.written.length + 1 := by simp
  refine { hreg with written := ?_, handed := ?_, due := ?_, prepared := ?_ }
  · intro x hx
    by_cases hne : x = sid
    · simp [hne]
    · simp only [List.mem_append, List.mem_singleton, hne, or_false] at hx
      exact (Function.update_of_ne hne _ _).trans (hi.written x hx)
  · rw [hlen]
    exact hi.handed.trans (Nat.le_succ _)
  · intro hpc
    rw [hlen]
    exact (hi.due hpc).trans (Nat.lt_succ_self _)
  · intro size id hpc
    have hlt : s.handed.length < s.written.length := hi.due (by rw [hpc]; rintro ⟨⟩)
    refine (hi.prepared size id hpc).congr ?_ (fun _ h => h) (fun _ h => h)
    intro r hr
    exact (List.getElem?_append_left hlt).symm.trans hr

theorem of_update_eq_false {sid x : SessionId} {f : SessionId → Bool}
    (h : Function.update f sid true x = false) : f x = false := by
  by_cases hne : x = sid
  · subst hne
    simp at h
  · rwa [Function.update_of_ne hne] at h

theorem Inv.timeout (hi : s.Inv) {sid : SessionId} (h : s.timeout sid = some s') : s'.Inv := by
  unfold HttpExchange.timeout at h
  split_ifs at h
  obtain rfl := Option.some.inj h
  refine { hi with present := ?_, prepared := ?_ }
  · exact fun x hq hn => hi.present x hq (of_update_eq_false hn)
  · exact fun size id hpc => (hi.prepared size id hpc).congr (fun _ h => h)
      (fun _ => of_update_eq_false) fun _ h => h

theorem parse_cases {lib : HttpParserLib σ} {stage : HttpParserStage} {h : Heap}
    {readBuf : IOBuffer} (hs : s.parse lib stage h readBuf = some s') :
    ∃ active readBuf' data pc,
      s' = { s with
        socket := { s.socket with active, readBuf := readBuf', readAdditionalData := data }
        pc } ∧
      (pc = .idle ∨ ∃ size id, pc = .parsed size id ∧ s.handed.length < s.written.length) := by
  unfold HttpExchange.parse at hs
  by_cases hidle : s.pc = .idle
  · rw [if_pos hidle] at hs
    by_cases hlen : readBuf.length = 0
    · rw [if_pos hlen] at hs
      exact ⟨_, _, _, _, (Option.some.inj hs).symm, .inl hidle⟩
    · rw [if_neg hlen] at hs
      generalize (httpProtocol lib stage).parseProtocolFn h readBuf s.socket.readAdditionalData =
        res at hs
      obtain ⟨ret, readBuf', data, size, id⟩ := res
      cases ret with
      | parseOk =>
        simp only at hs
        split_ifs at hs with hlt
        exact ⟨_, _, _, _, (Option.some.inj hs).symm, .inr ⟨size, id, rfl, hlt⟩⟩
      | parseError => exact ⟨_, _, _, _, (Option.some.inj hs).symm, .inl hidle⟩
      | parseNotEnoughData => exact ⟨_, _, _, _, (Option.some.inj hs).symm, .inl hidle⟩
  · rw [if_neg hidle] at hs
    cases hs

theorem Inv.parse (hi : s.Inv) {lib : HttpParserLib σ} {stage : HttpParserStage} {h : Heap}
    {readBuf : IOBuffer} (hs : s.parse lib stage h readBuf = some s') : s'.Inv := by
  obtain ⟨active, readBuf', data, pc, rfl, rfl | ⟨size, id, rfl, hlt⟩⟩ := parse_cases hs
  · exact { hi with due := fun hne => absurd rfl hne, prepared := fun _ _ h => by cases h }
  · exact { hi with due := fun _ => hlt, prepared := fun _ _ h => by cases h }

theorem Inv.clock (hi : s.Inv) {t : ℕ} (h : s.clock t = some s') : s'.Inv := by
  unfold HttpExchange.clock at h
  split at h
  · rename_i hpc
    obtain rfl := Option.some.inj h
    exact { hi with
      due := fun _ => hi.due (by rw [hpc]; rintro ⟨⟩), prepared := fun _ _ h => by cases h }
  · cases h

/-- Before a session goes to the map no other one stands under its id. -/
theorem Registry.sessionMap_eq_none (hi : s.Registry) {x : SessionId}
    (hx : x ∈ s.socket.sessionInfo) : s.socket.sessionMap (s.requestId x) = none := by
  by_contra hne
  obtain ⟨y, hy⟩ := Option.ne_none_iff_exists'.mp hne
  obtain ⟨hrid, hq, hnin⟩ := hi.mapped _ y hy
  obtain rfl := hi.distinct y (hq.created hi) x ((hi.queued x hx).created hi) hrid
  exact hnin hx

theorem Inv.due_queued (hi : s.Inv) {r : SessionId} (hr : s.Due r) : s.Queued r :=
  .inr (hi.written r (List.mem_of_getElem? hr))

theorem Inv.pop (hi : s.Inv) (h : s.pop = some s') : s'.Inv := by
  unfold HttpExchange.pop at h
  split at h
  · rename_i t size id hpc
    have hdue := hi.due (by rw [hpc]; rintro ⟨⟩)
    split at h
    · rename_i hnil
      obtain rfl := Option.some.inj h
      -- with an empty queue every session that waits is in the map
      refine { hi with due := fun _ => hdue, prepared := fun _ _ _ r hr hn => .inl ?_ }
      have hin := hi.present r (hi.due_queued hr) hn
      rw [hnil] at hin
      exact hin.resolve_left List.not_mem_nil
    · rename_i x q hq
      obtain rfl := Option.some.inj h
      have hx : x ∈ s.socket.sessionInfo := by simp [hq]
      -- no session in the queue is in the map, so the insertion takes place
      have hnone := hi.sessionMap_eq_none hx
      have hnodup := hi.nodup
      rw [hq] at hnodup
      obtain ⟨hxq, hnodup⟩ := List.nodup_cons.mp hnodup
      have hmap : ∀ k, emplace s.socket.sessionMap (s.requestId x) x k =
          if k = s.requestId x then some x else s.socket.sessionMap k := by
        intro k
        rw [Bolt.emplace_apply]
        by_cases hk : k = s.requestId x
        · simp [hk, hnone]
        · simp [hk]
      have hkeep : ∀ y, s.InMap y →
          emplace s.socket.sessionMap (s.requestId x) x (s.requestId y) = some y := by
        intro y hy
        rw [hmap, if_neg, hy]
        intro hk
        unfold InMap at hy
        rw [hk, hnone] at hy
        cases hy
      have hnew : emplace s.socket.sessionMap (s.requestId x) x (s.requestId x) = some x := by
        rw [hmap, if_pos rfl]
      have hpresent : ∀ y, s.Queued y → s.notified y = false →
          y ∈ q ∨ emplace s.socket.sessionMap (s.requestId x) x (s.requestId y) = some y := by
        intro y hy hn
        rcases hi.present y hy hn with hmem | hin
        · rw [hq] at hmem
          rcases List.mem_cons.mp hmem with rfl | hmem
          · exact .inr hnew
          · exact .inl hmem
        · exact .inr (hkeep y hin)
      refine { hi with
        queued := ?_, nodup := hnodup, mapped := ?_, present := hpresent, due := fun _ => hdue,
        prepared := fun _ _ _ r hr hn => ?_ }
      · intro y hy
        exact hi.queued y (by rw [hq]; exact List.mem_cons_of_mem x hy)
      · intro k y hy
        replace hy := (hmap k).symm.trans hy
        split_ifs at hy with hk
        · obtain rfl := Option.some.inj hy
          exact ⟨hk.symm, hi.queued x hx, hxq⟩
        · obtain ⟨hrid, hqy, hnin⟩ := hi.mapped k y hy
          rw [hq] at hnin
          exact ⟨hrid, hqy, fun hmem => hnin (List.mem_cons_of_mem x hmem)⟩
      · -- if the loop has stopped in front of `r`, it has stopped at another session
        rcases hpresent r (hi.due_queued hr) hn with hmem | hin
        · refine .inr ⟨x, ?_, hnew⟩
          rintro rfl
          exact hxq hmem
        · exact .inl hin
  · cases h

theorem notified_of_setNotified {itr : Option SessionId} {x : SessionId}
    (h : s.setNotified itr x = false) : s.notified x = false := by
  cases itr with
  | none => exact h
  | some sid => exact of_update_eq_false h

/-- What handing out changes, with `itr` for the session found. -/
theorem handOut_cases {itr : Option SessionId} (h : s.handOut itr = some s') :
    ∃ size id, s.pc = .prepared size id ∧ s.IsBegin itr ∧ s' = { s with
      socket := s.socket.handOut itr size
      notified := s.setNotified itr
      handed := s.handed ++ [(itr, itr.any s.notified)]
      pc := .idle } := by
  unfold HttpExchange.handOut at h
  split at h
  · rename_i size id hpc
    split_ifs at h with hb
    exact ⟨size, id, hpc, hb, (Option.some.inj h).symm⟩
  · cases h

theorem Inv.handOut (hi : s.Inv) {itr : Option SessionId} (h : s.handOut itr = some s') :
    s'.Inv := by
  obtain ⟨size, id, hpc, -, rfl⟩ := handOut_cases h
  have hreq : ∀ x, ((s.socket.handOut itr size).session x).requestId = s.requestId x :=
    fun x => Socket.handOut_requestId _ _ _ x
  refine { hi with
    distinct := ?_, queued := ?_, nodup := ?_, mapped := ?_, present := ?_, handed := ?_,
    due := fun hne => absurd rfl hne, prepared := fun _ _ h => by cases h }
  · intro a ha b hb hab
    exact hi.distinct a ha b hb (((hreq a).symm.trans hab).trans (hreq b))
  · rw [Socket.handOut_sessionInfo]
    exact hi.queued
  · rw [Socket.handOut_sessionInfo]
    exact hi.nodup
  · rw [Socket.handOut_sessionInfo, Socket.handOut_sessionMap]
    intro k x hx
    obtain ⟨hrid, hrest⟩ := hi.mapped k x hx
    exact ⟨(hreq x).trans hrid, hrest⟩
  · intro x hq hn
    unfold InMap requestId
    rw [Socket.handOut_sessionInfo, Socket.handOut_sessionMap, hreq]
    exact hi.present x hq (notified_of_setNotified hn)
  · rw [List.length_append]
    exact hi.due (by rw [hpc]; rintro ⟨⟩)

theorem Inv.reclaim (hi : s.Inv) {reclaimed : SessionId → Bool}
    (h : s.reclaim reclaimed = some s') : s'.Inv := by
  unfold HttpExchange.reclaim at h
  split_ifs at h with hc
  obtain ⟨hidle, hnotified⟩ := hc
  obtain rfl := Option.some.inj h
  refine { hi with mapped := ?_, present := ?_, prepared := ?_ }
  · intro id x hx
    exact hi.mapped id x (Option.eq_some_of_filter_eq_some hx)
  · intro x hq hn
    refine (hi.present x hq hn).imp id fun hin => ?_
    have hkept : reclaimed x = false := by
      by_contra hne
      have := hnotified x (hq.created hi.toRegistry) (by simpa using hne)
      rw [hn] at this
      cases this
    have hfilter : (s.socket.sessionMap (s.requestId x)).filter (fun sid => !reclaimed sid) =
        some x := by
      rw [show s.socket.sessionMap (s.requestId x) = some x from hin]
      simp [hkept]
    exact hfilter
  · intro size id hpc
    exact absurd (hidle.symm.trans hpc) (by cases ·)

theorem Inv.step (hi : s.Inv) {lib : HttpParserLib σ} {stage : HttpParserStage} {a : HttpAct}
    (h : s.step lib stage a = some s') : s'.Inv := by
  cases a with
  | create sid beginTime sessionId => exact hi.create h
  | prepareRead sid accepted => exact hi.prepareRead h
  | write sid => exact hi.write h
  | timeout sid => exact hi.timeout h
  | parse heap readBuf => exact hi.parse h
  | clock t => exact hi.clock h
  | pop => exact hi.pop h
  | handOut itr => exact hi.handOut h
  | reclaim reclaimed => exact hi.reclaim h

section Refinement

variable {lib : HttpParserLib σ} {stage : HttpParserStage}

/-- Left alone, the loop over the queue does what `prepareSessions` says. -/
theorem run_pop_eq_prepareSessions {t size id : ℕ} (q : List SessionId) (s : HttpExchange σ)
    (hq : s.socket.sessionInfo = q) (hpc : s.pc = .draining t size id) :
    ∃ n, run (step lib stage) s (List.replicate n .pop) =
      some { s with socket := s.socket.prepareSessions t, pc := .prepared size id } := by
  induction q generalizing s with
  | nil =>
    refine ⟨1, ?_⟩
    rw [Socket.prepareSessions_nil hq]
    simp only [List.replicate_one, run, step, pop, hpc, hq, Option.bind_some]
  | cons x q ih =>
    rw [Socket.prepareSessions_cons hq]
    by_cases hstop : t ≤ (s.socket.session x).requestTime
    · refine ⟨1, ?_⟩
      rw [if_pos hstop]
      simp only [List.replicate_one, run, step, pop, hpc, hq, Option.bind_some, hstop, if_true]
      rfl
    · rw [if_neg hstop]
      have hstep : s.step lib stage .pop = some { s with
          socket := { s.socket with
            sessionInfo := q
            sessionMap := emplace s.socket.sessionMap (s.requestId x) x } } := by
        simp only [step, pop, hpc, hq, hstop, if_false]
      obtain ⟨n, hn⟩ := ih { s with
          socket := { s.socket with
            sessionInfo := q
            sessionMap := emplace s.socket.sessionMap (s.requestId x) x } } rfl hpc
      refine ⟨n + 1, ?_⟩
      rw [List.replicate_succ, run, hstep, Option.bind_some, hn]
      rfl

theorem handOut_of_isBegin {size id : ℕ} (hpc : s.pc = .prepared size id)
    {itr : Option SessionId} (hb : s.IsBegin itr) :
    s.handOut itr = some { s with
      socket := s.socket.handOut (s.socket.findSession .protocolHttp (fun _ => itr) id) size
      notified := s.setNotified itr
      handed := s.handed ++ [(itr, itr.any s.notified)]
      pc := .idle } := by
  simp only [handOut, hpc, hb, if_true]

/-- Left alone, the steps of the loop thread on a complete response are a call of
`cutIntoMessage`, with `first` for `begin()`. -/
theorem run_eq_cutIntoMessage {h : Heap} {readBuf readBuf' : IOBuffer}
    {data : Option (HttpParser σ)} (hidle : s.pc = .idle) (hlen : readBuf.length ≠ 0)
    (hdue : s.handed.length < s.written.length)
    (hcheck : checkHeader lib stage h readBuf s.socket.readAdditionalData =
      (.parseOk, readBuf', data)) (t : ℕ)
    (first : (ℕ → Option SessionId) → Option SessionId)
    (hfirst : IsBegin { s with socket := s.socket.prepareSessions t }
      (first (s.socket.prepareSessions t).sessionMap)) :
    ∃ n s', run (step lib stage) s (.parse h readBuf :: .clock t :: List.replicate n .pop ++
        [.handOut (first (s.socket.prepareSessions t).sessionMap)]) = some s' ∧
      s'.socket = (Socket.cutIntoMessage (httpProtocol lib stage) first t h
        { s.socket with readBuf }).1 := by
  have hparse : s.step lib stage (.parse h readBuf) = some { s with
      socket := { s.socket with readBuf := readBuf', readAdditionalData := data }
      pc := .parsed 0 0 } := by
    simp only [step, parse, hidle, hlen, httpProtocol, hcheck, hdue, if_true, if_false]
  have hclock : step lib stage { s with
      socket := { s.socket with readBuf := readBuf', readAdditionalData := data }
      pc := .parsed 0 0 } (.clock t) = some { s with
      socket := { s.socket with readBuf := readBuf', readAdditionalData := data }
      pc := .draining t 0 0 } := rfl
  obtain ⟨n, hn⟩ : ∃ n, run (step lib stage) _ (List.replicate n .pop) = _ :=
    run_pop_eq_prepareSessions _ { s with
      socket := { s.socket with readBuf := readBuf', readAdditionalData := data }
      pc := .draining t 0 0 } rfl rfl
  have hhand := handOut_of_isBegin (s := { s with
      socket := Socket.prepareSessions
        { s.socket with readBuf := readBuf', readAdditionalData := data } t
      pc := .prepared 0 0 }) rfl hfirst
  refine ⟨n, _, Eq.trans ?_ hhand, ?_⟩
  · rw [List.cons_append, List.cons_append, run, hparse, Option.bind_some, run, hclock,
      Option.bind_some, run_append, hn, Option.bind_some, run, step, hhand]
    rfl
  · unfold Socket.cutIntoMessage
    simp only [hlen, httpProtocol, hcheck, if_false]
    rfl

end Refinement

/-- Every response has gone to the session of its request, which had not been
notified. -/
def InOrder (s : HttpExchange σ) : Prop :=
  ∀ (k : ℕ) (r : SessionId) (x : Option SessionId × Bool), s.written[k]? = some r →
    s.handed[k]? = some x → x = (some r, false)

/-- No other session than that of `r` is in the map, and `r` has not timed out. -/
def OnlyWaiting (s : HttpExchange σ) (r : SessionId) : Prop :=
  (∀ sid ∈ s.created, s.InMap sid → sid = r) ∧ s.notified r = false

instance (s : HttpExchange σ) (r : SessionId) : Decidable (s.OnlyWaiting r) :=
  inferInstanceAs (Decidable (_ ∧ _))

/-- A response is handed out only while the session that is due waits alone. -/
def Alone (s : HttpExchange σ) : HttpAct → Prop
  | .handOut _ => ∀ r ∈ s.written[s.handed.length]?, s.OnlyWaiting r
  | _ => True

instance (s : HttpExchange σ) : (a : HttpAct) → Decidable (s.Alone a)
  | .handOut _ => inferInstanceAs (Decidable (∀ r ∈ s.written[s.handed.length]?, s.OnlyWaiting r))
  | .create .. | .prepareRead .. | .write _ | .timeout _ | .parse .. | .clock _ | .pop
  | .reclaim _ => isTrue trivial

/-- Whatever `begin()` is, it is the session that is due and waits, exactly if that
one waits alone. -/
theorem Inv.isBegin_iff (hi : s.Inv) {size id : ℕ} (hpc : s.pc = .prepared size id)
    {r : SessionId} (hr : s.Due r) :
    (∀ itr, s.IsBegin itr → itr = some r ∧ s.notified r = false) ↔ s.OnlyWaiting r := by
  constructor
  · intro hall
    refine ⟨fun sid _ hin => Option.some.inj (hall (some sid) hin).1, ?_⟩
    by_cases hex : ∃ sid ∈ s.created, s.InMap sid
    · obtain ⟨sid, -, hin⟩ := hex
      exact (hall (some sid) hin).2
    · exact (hall none fun sid hmem hin => hex ⟨sid, hmem, hin⟩).2
  · rintro ⟨honly, hn⟩ itr hitr
    refine ⟨?_, hn⟩
    have hcreated : ∀ sid, s.InMap sid → sid ∈ s.created :=
      fun sid hin => (hi.mapped _ sid hin).2.1.created hi.toRegistry
    have hin : s.InMap r := by
      rcases hi.prepared size id hpc r hr hn with hin | ⟨j, hne, hj⟩
      · exact hin
      · exact absurd (honly j (hcreated j hj) hj) hne
    cases itr with
    | some sid => rw [honly sid (hcreated sid hitr) hitr]
    | none => exact absurd hin (hitr r (hcreated r hin))

structure Kept (s s' : HttpExchange σ) : Prop where
  handed : s'.handed = s.handed
  written : s.written <+: s'.written
  data : s'.socket.readAdditionalData = s.socket.readAdditionalData
  idle : s'.pc = .idle ↔ s.pc = .idle

theorem step_kept {lib : HttpParserLib σ} {stage : HttpParserStage} {a : HttpAct}
    (hparse : ∀ h readBuf, a ≠ .parse h readBuf) (hhand : ∀ itr, a ≠ .handOut itr)
    (h : s.step lib stage a = some s') : Kept s s' := by
  cases a with
  | handOut itr => exact absurd rfl (hhand itr)
  | parse heap readBuf => exact absurd rfl (hparse heap readBuf)
  | write sid =>
    simp only [step, write] at h
    split_ifs at h
    obtain rfl := Option.some.inj h
    exact ⟨rfl, List.prefix_append _ _, rfl, Iff.rfl⟩
  | prepareRead sid accepted =>
    simp only [step, prepareRead] at h
    split_ifs at h
    all_goals
      obtain rfl := Option.some.inj h
      exact ⟨rfl, List.prefix_rfl, rfl, Iff.rfl⟩
  | create | timeout | reclaim =>
    simp only [step, create, timeout, reclaim] at h
    split_ifs at h
    obtain rfl := Option.some.inj h
    exact ⟨rfl, List.prefix_rfl, rfl, Iff.rfl⟩
  | clock t =>
    simp only [step, clock] at h
    split at h
    · rename_i size id hpc
      obtain rfl := Option.some.inj h
      exact ⟨rfl, List.prefix_rfl, rfl, by simp [hpc]⟩
    · cases h
  | pop =>
    simp only [step, pop] at h
    split at h
    · rename_i t size id hpc
      split at h
      · obtain rfl := Option.some.inj h
        exact ⟨rfl, List.prefix_rfl, rfl, by simp [hpc]⟩
      · obtain rfl := Option.some.inj h
        refine ⟨rfl, List.prefix_rfl, rfl, ?_⟩
        rw [hpc]
        split_ifs <;> simp
    · cases h

theorem step_handed {lib : HttpParserLib σ} {stage : HttpParserStage} {a : HttpAct}
    (ha : ∀ itr, a ≠ .handOut itr) (h : s.step lib stage a = some s') :
    s'.handed = s.handed ∧ s.written <+: s'.written := by
  by_cases hparse : ∃ heap readBuf, a = .parse heap readBuf
  · obtain ⟨heap, readBuf, rfl⟩ := hparse
    obtain ⟨active, readBuf', data, pc, rfl, -⟩ := parse_cases h
    exact ⟨rfl, List.prefix_rfl⟩
  · have hkept := step_kept (fun heap readBuf ha' => hparse ⟨heap, readBuf, ha'⟩) ha h
    exact ⟨hkept.handed, hkept.written⟩

/-- The response goes to the session at `begin()` and to no other. -/
theorem handOut_session {itr : Option SessionId} (h : s.handOut itr = some s') (sid : SessionId) :
    (itr = some sid → (s'.socket.session sid).data = s.socket.readAdditionalData) ∧
      (itr ≠ some sid → s'.socket.session sid = s.socket.session sid) := by
  obtain ⟨size, id, -, -, rfl⟩ := handOut_cases h
  cases itr with
  | none => exact ⟨(by cases ·), fun _ => rfl⟩
  | some x =>
    refine ⟨?_, ?_⟩
    · intro hx
      obtain rfl := Option.some.inj hx
      simp [Socket.handOut]
    · intro hne
      have hx : sid ≠ x := fun hx => hne (by rw [hx])
      simp [Socket.handOut, Function.update_of_ne hx]

theorem InOrder.step (ho : s.InOrder) (hi : s.Inv) {lib : HttpParserLib σ}
    {stage : HttpParserStage} {a : HttpAct} (ha : s.Alone a) (h : s.step lib stage a = some s') :
    s'.InOrder := by
  by_cases hcase : ∃ itr, a = .handOut itr
  · obtain ⟨itr, rfl⟩ := hcase
    obtain ⟨size, id, hpc, hb, rfl⟩ := handOut_cases h
    obtain ⟨r, hr⟩ : ∃ r, s.Due r := ⟨_, List.getElem?_eq_getElem (hi.due (by rw [hpc]; rintro ⟨⟩))⟩
    obtain ⟨rfl, hn⟩ := (hi.isBegin_iff hpc hr).mpr (ha r hr) itr hb
    intro k r' x hr' hx
    rcases Nat.lt_trichotomy k s.handed.length with hk | rfl | hk
    · rw [List.getElem?_append_left hk] at hx
      exact ho k r' x hr' hx
    · -- the response that has just been handed out
      rw [List.getElem?_concat_length] at hx
      obtain rfl := Option.some.inj hx
      obtain rfl := Option.some.inj (hr'.symm.trans hr)
      simp [hn]
    · rw [List.getElem?_eq_none (by simpa using hk)] at hx
      cases hx
  · obtain ⟨hh, hw⟩ := step_handed (fun itr hitr => hcase ⟨itr, hitr⟩) h
    intro k r x hr hx
    rw [hh] at hx
    have hk : k < s.written.length :=
      (List.getElem?_eq_some_iff.mp hx).1.trans_le hi.handed
    obtain ⟨more, hmore⟩ := hw
    rw [← hmore, List.getElem?_append_left hk] at hr
    exact ho k r x hr hx

/-- In every run in which a response is handed out only while the session that is due waits alone in
the map, the responses go to the sessions in the order of their requests, and to none that had
been notified. -/
theorem http_responses_in_order (lib : HttpParserLib σ) (stage : HttpParserStage)
    (as : List HttpAct) (s : HttpExchange σ) (h : run (step lib stage) init as = some s) :
    (Meets (step lib stage) Alone init as → s.InOrder) ∧
      (∀ size id r, s.pc = .prepared size id → s.Due r →
        ((∀ itr, s.IsBegin itr → itr = some r ∧ s.notified r = false) ↔ s.OnlyWaiting r)) ∧
      ∀ itr s', s.step lib stage (.handOut itr) = some s' → ∀ sid,
        (itr = some sid → (s'.socket.session sid).data = s.socket.readAdditionalData) ∧
          (itr ≠ some sid → s'.socket.session sid = s.socket.session sid) := by
  refine ⟨?_, ?_, fun itr s' h => handOut_session h⟩
  · intro hm
    have hstep : ∀ (s : HttpExchange σ) (a : HttpAct) (s' : HttpExchange σ), s.Inv ∧ s.InOrder →
        s.Alone a → step lib stage s a = some s' → s'.Inv ∧ s'.InOrder :=
      fun s a s' hi ha h => ⟨hi.1.step h, hi.2.step hi.1 ha h⟩
    exact (run_induction hstep ⟨inv_init, fun k r x hr => absurd hr (by simp [init])⟩ hm h).2
  · intro size id r hpc hr
    have hi : s.Inv := run_invariant (fun _ _ _ hi h => Inv.step hi h) inv_init h
    exact hi.isBegin_iff hpc hr

def request (sid id time : ℕ) : List HttpAct :=
  [.create sid time id, .prepareRead sid true, .write sid]

def response (n time : ℕ) (itr : Option SessionId) : List HttpAct :=
  HttpAct.parse (heapOf noContent.bytes) ⟨[⟨0, 0, 25⟩], 0⟩ :: HttpAct.clock time ::
    List.replicate (n + 1) HttpAct.pop ++ [HttpAct.handOut itr]

theorem http_responses_in_order_reclaimed :
    ∃ s : HttpExchange ℕ, run (step noContentParser .onMessageBegin) init
        (request 0 1 5 ++ response 1 6 (some 0) ++ request 1 2 7 ++ [.reclaim (· == 0)] ++
          response 1 8 (some 1)) = some s ∧
      s.InOrder ∧ s.written = [0, 1] ∧ s.handed.length = 2 := by
  have heval : (run (step noContentParser .onMessageBegin) init
      (request 0 1 5 ++ response 1 6 (some 0) ++ request 1 2 7 ++ [.reclaim (· == 0)] ++
        response 1 8 (some 1))).map (fun s => (s.written, s.handed.length)) =
      some ([0, 1], 2) := by decide +kernel
  obtain ⟨s, hrun, hs⟩ := Option.map_eq_some_iff.mp heval
  obtain ⟨hw, hh⟩ := Prod.mk.inj hs
  refine ⟨s, hrun, ?_, hw, hh⟩
  exact (http_responses_in_order noContentParser .onMessageBegin _ s hrun).1 (by decide +kernel)

/-- With two requests under way both responses go to the second session, the
second one after it has been notified. -/
theorem http_responses_out_of_order :
    (run (step noContentParser .onMessageBegin) init
      (request 0 1 5 ++ request 1 2 6 ++ response 2 7 (some 1) ++ response 0 8 (some 1))).map
      (fun s : HttpExchange ℕ => (s.written, s.handed)) =
      some ([0, 1], [(some 1, false), (some 1, true)]) := by
  decide +kernel

end HttpExchange

end SofaBolt.Http
