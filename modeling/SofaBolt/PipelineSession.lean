import SofaBolt.Run
import SofaBolt.SessionModel

namespace SofaBolt.Pipeline

open Run

def sessionErrorInfo : ESessionError → String
  | .sessionOk => "success"
  | .protocolNotFound => "protocol not found"
  | .assembleRequestFail => "package request fail"
  | .socketLost => "socket object lost"
  | .socketBusy => "socket is busy reading data"
  | .writeFail => "write into remote fail"
  | .readFail => "read data from remote fail"
  | .readTimeout => "read data timeout"
  | .parseResponseFail => "parse response fail"
  | .timerBusy => "timer thread busy"

/-- Where the callback of a request is: not sent yet, sent, invoked with an error, and
then behind each of its accesses. -/
inductive CallbackPc where
  | idle
  | sent
  | called (error : ESessionError)
  | stored
  | loaded (size : ℕ)
  | counted (size : ℕ)
  | done
deriving DecidableEq, Repr

namespace CallbackPc

def hasStored : CallbackPc → Bool
  | .stored | .loaded _ | .counted _ | .done => true
  | _ => false

def isLoaded : CallbackPc → Bool
  | .loaded _ => true
  | _ => false

def hasCounted : CallbackPc → Bool
  | .counted _ | .done => true
  | _ => false

def isLast (n : ℕ) : CallbackPc → Bool
  | .counted size => size = n
  | _ => false

theorem hasStored_of_hasCounted {pc : CallbackPc} (h : pc.hasCounted = true) :
    pc.hasStored = true := by
  cases pc <;> simp_all [hasStored, hasCounted]

end CallbackPc

/-- The calling thread: about to issue request `i`, in the callback of request `i`,
waiting for the promise, behind the loop over `status`, or behind a timeout. -/
inductive SyncPc where
  | issuing (i : ℕ)
  | calling (i : ℕ)
  | waiting
  | returned
  | timedOut
deriving DecidableEq, Repr

def SyncPc.issued (n : ℕ) : SyncPc → ℕ
  | .issuing i => i
  | .calling i => i + 1
  | .waiting | .returned | .timedOut => n

structure PipelineState where
  status : List ESessionError
  receivedSize : ℕ
  totalSize : ℕ
  promise : ℕ
  callbacks : List CallbackPc
  main : SyncPc
  timeout : ℤ
  errorCode : ESessionError
  additionalErrText : String
deriving DecidableEq, Repr

def start (n : ℕ) (channel : Bool) (timeout : ℤ) : PipelineState where
  status := List.replicate n .sessionOk
  receivedSize := 0
  totalSize := n
  promise := 0
  callbacks := List.replicate n .idle
  main := if n = 0 ∨ channel = false then .returned else .issuing 0
  timeout := timeout
  errorCode := if n ≠ 0 ∧ channel = false then .protocolNotFound else .sessionOk
  additionalErrText := ""

/-- `_session.failed()`. -/
def PipelineState.failed (s : PipelineState) : Bool := s.errorCode != .sessionOk

def readStatus : ℕ → List ESessionError → ESessionError × String → ESessionError × String
  | _, [], r => r
  | i, e :: es, (code, text) =>
    if e ≠ .sessionOk then
      readStatus (i + 1) es
        (.readFail, text ++ "request[" ++ toString i ++ "] error[" ++ sessionErrorInfo e ++ "] ")
    else readStatus (i + 1) es (code, text)

inductive PipelineAct where
  /-- `async` of the next request, and the error it leaves in `_error_code`. -/
  | issue (error : ESessionError)
  /-- The calling thread is back from a callback it has made itself. -/
  | resume
  /-- Some thread calls the callback of request `i`. -/
  | invoke (i : ℕ) (error : ESessionError)
  /-- The next access of the callback of request `i`. -/
  | callback (i : ℕ)
  /-- The future is ready. -/
  | ready
  /-- `wait_for` runs into its timeout. -/
  | timeout
deriving DecidableEq, Repr

namespace PipelineState

def loop (s : PipelineState) (i : ℕ) : SyncPc := if i < s.totalSize then .issuing i else .waiting

def callbackStep (s : PipelineState) (i : ℕ) : CallbackPc → Option PipelineState
  | .called error =>
    some { s with status := s.status.set i error, callbacks := s.callbacks.set i .stored }
  | .stored => some { s with callbacks := s.callbacks.set i (.loaded s.receivedSize) }
  | .loaded size =>
    some { s with receivedSize := size + 1, callbacks := s.callbacks.set i (.counted (size + 1)) }
  | .counted size =>
    some { s with
      promise := if size = s.totalSize then s.promise + 1 else s.promise
      callbacks := s.callbacks.set i .done }
  | .idle | .sent | .done => none

def step (s : PipelineState) : PipelineAct → Option PipelineState
  | .issue error =>
    match s.main with
    | .issuing i =>
      if error = .sessionOk then
        some { s with
          callbacks := s.callbacks.set i .sent, errorCode := error, main := s.loop (i + 1) }
      else
        some { s with
          callbacks := s.callbacks.set i (.called error), errorCode := error, main := .calling i }
    | _ => none
  | .resume =>
    match s.main with
    | .calling i =>
      if s.callbacks[i]? = some .done then some { s with main := s.loop (i + 1) } else none
    | _ => none
  | .invoke i error =>
    if s.callbacks[i]? = some .sent then
      some { s with callbacks := s.callbacks.set i (.called error) }
    else none
  | .callback i => (s.callbacks[i]?).bind (s.callbackStep i)
  | .ready =>
    if s.main = .waiting ∧ 0 < s.promise then
      some { s with
        errorCode := (readStatus 0 s.status (s.errorCode, "")).1
        additionalErrText := (readStatus 0 s.status (s.errorCode, "")).2
        main := .returned }
    else none
  | .timeout =>
    if s.main = .waiting ∧ 0 < s.timeout ∧ s.promise = 0 then
      some { s with errorCode := .readFail, main := .timedOut }
    else none

/-- No callback loads `received_size` while another one has loaded it and not stored
it yet. -/
def LoadsAlone (s : PipelineState) : PipelineAct → Prop
  | .callback i => s.callbacks[i]? = some .stored → ∀ pc ∈ s.callbacks, pc.isLoaded = false
  | _ => True

instance (s : PipelineState) : (a : PipelineAct) → Decidable (LoadsAlone s a)
  | .callback _ => inferInstanceAs (Decidable (_ → _))
  | .issue _ | .resume | .invoke _ _ | .ready | .timeout => isTrue trivial

end PipelineState

section Counting

variable {n i r k : ℕ} {cs : List CallbackPc} {pc pc' : CallbackPc}

/-- `received_size` is the number of the callbacks that have stored it, and the one
that stores the last number sets the promise; `r` is `received_size`, `k` says how often
the promise has been set. -/
structure Counts (n : ℕ) (cs : List CallbackPc) (r k : ℕ) : Prop where
  length : cs.length = n
  received : r = cs.countP CallbackPc.hasCounted
  loaded : ∀ size, CallbackPc.loaded size ∈ cs → size = r
  alone : cs.countP CallbackPc.isLoaded ≤ 1
  promise : k + cs.countP (CallbackPc.isLast n) = if r = n then 1 else 0

theorem counts_start (hn : 1 ≤ n) : Counts n (List.replicate n .idle) 0 0 where
  length := List.length_replicate
  received := by rw [List.countP_replicate]; rfl
  loaded size h := by cases List.eq_of_mem_replicate h
  alone := by rw [List.countP_replicate]; exact Nat.zero_le 1
  promise := by
    rw [if_neg (by omega), List.countP_replicate]
    rfl

theorem Counts.moved (hc : Counts n cs r k) (hi : cs[i]? = some pc)
    (hcount : pc'.hasCounted = pc.hasCounted) (hload : pc'.isLoaded = false)
    (hlast : pc'.isLast n = pc.isLast n) : Counts n (cs.set i pc') r k := by
  have hcounted := countP_set_add hi pc' CallbackPc.hasCounted
  have hloaded := countP_set_add hi pc' CallbackPc.isLoaded
  have hlasts := countP_set_add hi pc' (CallbackPc.isLast n)
  rw [hcount] at hcounted
  rw [hlast] at hlasts
  rw [hload, Bool.toNat_false] at hloaded
  constructor
  case length => exact (List.length_set ..).trans hc.length
  case received => exact hc.received.trans (Nat.add_right_cancel hcounted).symm
  case loaded =>
    intro size h
    refine hc.loaded size (mem_of_mem_set ?_ h)
    rintro rfl
    cases hload
  case alone =>
    have := hc.alone
    omega
  case promise =>
    rw [Nat.add_right_cancel hlasts]
    exact hc.promise

theorem Counts.load (hc : Counts n cs r k) (hi : cs[i]? = some .stored)
    (halone : ∀ pc ∈ cs, pc.isLoaded = false) :
    Counts n (cs.set i (.loaded r)) r k := by
  have hcounted := countP_set_add hi (.loaded r) CallbackPc.hasCounted
  have hloaded := countP_set_add hi (.loaded r) CallbackPc.isLoaded
  have hlasts := countP_set_add hi (.loaded r) (CallbackPc.isLast n)
  have hnone : cs.countP CallbackPc.isLoaded = 0 :=
    List.countP_eq_zero.mpr fun pc hpc h => by simp [halone pc hpc] at h
  constructor
  case length => exact (List.length_set ..).trans hc.length
  case received => exact hc.received.trans (Nat.add_right_cancel hcounted).symm
  case loaded =>
    intro size h
    rcases List.mem_or_eq_of_mem_set h with h | h
    · exact hc.loaded size h
    · exact CallbackPc.loaded.inj h
  case alone =>
    rw [hnone] at hloaded
    exact hloaded.le
  case promise =>
    rw [Nat.add_right_cancel hlasts]
    exact hc.promise

theorem Counts.store {size : ℕ} (hc : Counts n cs r k)
    (hi : cs[i]? = some (.loaded size)) :
    Counts n (cs.set i (.counted (size + 1))) (size + 1) k := by
  have hcounted := countP_set_add hi (.counted (size + 1)) CallbackPc.hasCounted
  have hloaded := countP_set_add hi (.counted (size + 1)) CallbackPc.isLoaded
  have hlasts := countP_set_add hi (.counted (size + 1)) (CallbackPc.isLast n)
  obtain rfl := hc.loaded size (mem_of_getElem? hi)
  simp only [CallbackPc.hasCounted, Bool.toNat_false, Bool.toNat_true, Nat.add_zero,
    ← hc.received] at hcounted
  simp only [CallbackPc.isLoaded, Bool.toNat_false, Bool.toNat_true, Nat.add_zero] at hloaded
  simp only [CallbackPc.isLast, Bool.toNat_false, Nat.add_zero] at hlasts
  -- the callback itself has not counted before
  have hlt : size < n := by
    have hle : (cs.set i (.counted (size + 1))).countP CallbackPc.hasCounted ≤ _ :=
      List.countP_le_length
    rw [List.length_set, hc.length, hcounted] at hle
    exact hle
  have hnone : (cs.set i (.counted (size + 1))).countP CallbackPc.isLoaded = 0 := by
    have := hc.alone
    omega
  constructor
  case length => exact (List.length_set ..).trans hc.length
  case received => exact hcounted.symm
  case loaded =>
    intro size' h
    exact absurd rfl (List.countP_eq_zero.mp hnone _ h)
  case alone => exact hnone.le.trans (Nat.zero_le 1)
  case promise =>
    have hold := hc.promise
    rw [if_neg hlt.ne] at hold
    rw [hlasts]
    by_cases hlast : size + 1 = n
    · simp only [hlast, if_true, decide_true, Bool.toNat_true]
      omega
    · simp only [hlast, if_false, decide_false, Bool.toNat_false]
      omega

theorem Counts.compare {size : ℕ} (hc : Counts n cs r k)
    (hi : cs[i]? = some (.counted size)) :
    Counts n (cs.set i .done) r (if size = n then k + 1 else k) := by
  have hcounted := countP_set_add hi .done CallbackPc.hasCounted
  have hloaded := countP_set_add hi .done CallbackPc.isLoaded
  have hlasts := countP_set_add hi .done (CallbackPc.isLast n)
  constructor
  case length => exact (List.length_set ..).trans hc.length
  case received => exact hc.received.trans (Nat.add_right_cancel hcounted).symm
  case loaded => exact fun size h => hc.loaded size (mem_of_mem_set (by simp) h)
  case alone => exact (Nat.add_right_cancel hloaded).trans_le hc.alone
  case promise =>
    rw [← hc.promise]
    simp only [CallbackPc.isLast, Bool.toNat_false, Nat.add_zero] at hlasts
    by_cases hlast : size = n
    · simp only [hlast, decide_true, Bool.toNat_true] at hlasts
      rw [if_pos hlast]
      omega
    · simp only [hlast, decide_false, Bool.toNat_false] at hlasts
      rw [if_neg hlast]
      omega

theorem Counts.all_counted (hc : Counts n cs r k) (hp : 0 < k) :
    ∀ pc ∈ cs, pc.hasCounted = true := by
  have hall : r = n := by
    by_contra hne
    have := hc.promise
    rw [if_neg hne] at this
    omega
  rw [hc.received, ← hc.length] at hall
  exact List.countP_eq_length.mp hall

/-- When every callback is done, the promise has been set once. -/
theorem Counts.promise_eq_one (hc : Counts n cs r k) (hdone : ∀ pc ∈ cs, pc = .done) : k = 1 := by
  have hall : r = n := by
    rw [hc.received, ← hc.length, List.countP_eq_length]
    intro pc hpc
    rw [hdone pc hpc]
    rfl
  have hlast : cs.countP (CallbackPc.isLast n) = 0 :=
    List.countP_eq_zero.mpr fun pc hpc h => by simp [hdone pc hpc, CallbackPc.isLast] at h
  have := hc.promise
  rwa [if_pos hall, hlast] at this

end Counting

namespace PipelineState

variable {s s' : PipelineState} {n i : ℕ} {pc : CallbackPc}

def FailedAt (s : PipelineState) (i : ℕ) (e : ESessionError) : Prop :=
  e ≠ .sessionOk ∧ s.status[i]? = some e ∧
    ∃ pc, s.callbacks[i]? = some pc ∧ pc.hasStored = true

/-- Before `sync` has read the statuses an error code is that of a request that has
failed, or is failing; behind that it says what the statuses say. -/
def Reports (s : PipelineState) : Prop :=
  match s.main with
  | .issuing _ | .waiting => s.errorCode = .sessionOk ∨ ∃ i, s.FailedAt i s.errorCode
  | .calling i =>
    s.errorCode ≠ .sessionOk ∧
      (s.callbacks[i]? = some (.called s.errorCode) ∨ s.FailedAt i s.errorCode)
  | .returned =>
    (∀ pc ∈ s.callbacks, pc.hasCounted = true) ∧
      (s.errorCode ≠ .sessionOk ↔ ∃ e ∈ s.status, e ≠ .sessionOk)
  | .timedOut => True

structure Inv (n : ℕ) (s : PipelineState) : Prop where
  total : s.totalSize = n
  statuses : s.status.length = n
  counts : Counts n s.callbacks s.receivedSize s.promise
  idle : ∀ j pc, s.main.issued n ≤ j → s.callbacks[j]? = some pc → pc = .idle
  issuing : ∀ i, s.main = .issuing i → i < n
  reports : s.Reports

theorem inv_start (hn : 1 ≤ n) (timeout : ℤ) : Inv n (start n true timeout) where
  total := rfl
  statuses := List.length_replicate
  counts := counts_start hn
  idle j pc _ h := List.eq_of_mem_replicate (mem_of_getElem? h)
  issuing i h := by
    simp only [start, show n ≠ 0 by omega, false_or, reduceCtorEq, if_false] at h
    cases h
    omega
  reports := by
    simp only [start, Reports, show n ≠ 0 by omega, false_or, reduceCtorEq, if_false]
    exact Or.inl (by simp)

theorem readStatus_fst (i : ℕ) (es : List ESessionError) (code : ESessionError) (text : String) :
    (readStatus i es (code, text)).1 ≠ .sessionOk ↔
      code ≠ .sessionOk ∨ ∃ e ∈ es, e ≠ .sessionOk := by
  induction es generalizing i code text with
  | nil => simp [readStatus]
  | cons e es ih =>
    rw [readStatus]
    by_cases he : e = .sessionOk
    · rw [if_neg (by simpa using he), ih]
      simp [he]
    · rw [if_pos he, ih]
      simp [he]

/-- At the head of the loop it is enough that the error code is that of a request. -/
theorem inv_of_loop (hmain : s.main = s.loop i) (htotal : s.totalSize = n)
    (hstatuses : s.status.length = n) (hcounts : Counts n s.callbacks s.receivedSize s.promise)
    (hidle : ∀ j pc, i ≤ j → s.callbacks[j]? = some pc → pc = .idle)
    (hcode : s.errorCode = .sessionOk ∨ ∃ i, s.FailedAt i s.errorCode) : Inv n s := by
  by_cases hi : i < s.totalSize
  · rw [loop, if_pos hi] at hmain
    refine ⟨htotal, hstatuses, hcounts, ?_, ?_, ?_⟩
    · rw [hmain]
      exact hidle
    · rw [hmain]
      rintro j ⟨⟩
      exact htotal ▸ hi
    · rw [Reports, hmain]
      exact hcode
  · rw [loop, if_neg hi] at hmain
    refine ⟨htotal, hstatuses, hcounts, ?_, ?_, ?_⟩
    · rw [hmain]
      intro j pc hj hpc
      exact absurd (List.getElem?_eq_some_iff.mp hpc).1 (by rw [hcounts.length]; exact not_lt.mpr hj)
    · rw [hmain]
      rintro j ⟨⟩
    · rw [Reports, hmain]
      exact hcode

/-- A stored status stays where it is when a callback moves on. -/
theorem FailedAt.move {j : ℕ} {e : ESessionError} (hf : s.FailedAt j e)
    (hpc : s.callbacks[i]? = some pc) {pc' : CallbackPc} (hcb : s'.callbacks = s.callbacks.set i pc')
    (hmono : pc.hasStored = true → pc'.hasStored = true)
    (hstatus : s'.status = s.status ∨
      pc.hasStored = false ∧ ∃ e, s'.status = s.status.set i e) : s'.FailedAt j e := by
  obtain ⟨hne, he, pc₁, hj, hst⟩ := hf
  by_cases hij : i = j
  · subst hij
    obtain rfl := Option.some.inj (hpc.symm.trans hj)
    refine ⟨hne, ?_, pc', ?_, hmono hst⟩
    · rcases hstatus with hstatus | ⟨hns, -⟩
      · rwa [hstatus]
      · simp [hst] at hns
    · rw [hcb]
      exact List.getElem?_set_self (List.getElem?_eq_some_iff.mp hpc).1
  · refine ⟨hne, ?_, pc₁, by rw [hcb, List.getElem?_set_ne hij, hj], hst⟩
    rcases hstatus with hstatus | ⟨-, e', hstatus⟩
    · rwa [hstatus]
    · rwa [hstatus, List.getElem?_set_ne hij]

/-- A callback moves on from a place behind its call; the calling thread does not move. -/
theorem Reports.move (hr : s.Reports) (hpc : s.callbacks[i]? = some pc) {pc' : CallbackPc}
    (hcb : s'.callbacks = s.callbacks.set i pc') (hmain : s'.main = s.main)
    (hcode : s'.errorCode = s.errorCode) (hmono : pc.hasStored = true → pc'.hasStored = true)
    (hcount : pc.hasCounted = true → pc'.hasCounted = true)
    (hstatus : s'.status = s.status ∨
      pc.hasStored = false ∧ ∃ e, s'.status = s.status.set i e)
    (hcalled : ∀ e, e ≠ .sessionOk → pc = .called e → s'.FailedAt i e) : s'.Reports := by
  unfold Reports at hr ⊢
  rw [hmain, hcode]
  have hfailed : (∃ j, s.FailedAt j s.errorCode) → ∃ j, s'.FailedAt j s.errorCode := by
    rintro ⟨j, hj⟩
    exact ⟨j, hj.move hpc hcb hmono hstatus⟩
  cases hm : s.main with
  | issuing j =>
    rw [hm] at hr
    exact hr.imp_right hfailed
  | waiting =>
    rw [hm] at hr
    exact hr.imp_right hfailed
  | calling j =>
    rw [hm] at hr
    refine ⟨hr.1, ?_⟩
    rcases hr.2 with hj | hj
    · by_cases hij : i = j
      · subst hij
        exact Or.inr (hcalled _ hr.1 (Option.some.inj (hpc.symm.trans hj)))
      · exact Or.inl (by rw [hcb, List.getElem?_set_ne hij, hj])
    · exact Or.inr (hj.move hpc hcb hmono hstatus)
  | returned =>
    rw [hm] at hr
    obtain ⟨hall, hiff⟩ := hr
    have hcounted := hall pc (mem_of_getElem? hpc)
    refine ⟨fun q hq => ?_, ?_⟩
    · rw [hcb] at hq
      rcases List.mem_or_eq_of_mem_set hq with hq | rfl
      · exact hall q hq
      · exact hcount hcounted
    · rcases hstatus with hstatus | ⟨hns, -⟩
      · rwa [hstatus]
      · simp [CallbackPc.hasStored_of_hasCounted hcounted] at hns
  | timedOut => trivial

theorem Inv.idle_move (hi : Inv n s) (hpc : s.callbacks[i]? = some pc) (hne : pc ≠ .idle)
    {pc' : CallbackPc} (j : ℕ) (q : CallbackPc) (hj : s.main.issued n ≤ j)
    (hq : (s.callbacks.set i pc')[j]? = some q) : q = .idle := by
  have hij : i ≠ j := by
    rintro rfl
    exact hne (hi.idle i pc hj hpc)
  rw [List.getElem?_set_ne hij] at hq
  exact hi.idle j q hj hq

theorem Inv.callbackStep (hi : Inv n s) (hpc : s.callbacks[i]? = some pc)
    (hcond : LoadsAlone s (.callback i)) (h : s.callbackStep i pc = some s') : Inv n s' := by
  have hlt : i < s.status.length := by
    rw [hi.statuses, ← hi.counts.length]
    exact (List.getElem?_eq_some_iff.mp hpc).1
  cases pc with
  | idle => cases h
  | sent => cases h
  | done => cases h
  | called error =>
    obtain rfl := Option.some.inj h
    refine ⟨hi.total, (List.length_set ..).trans hi.statuses, hi.counts.moved hpc rfl rfl rfl,
      hi.idle_move hpc (by simp), hi.issuing, hi.reports.move hpc rfl rfl rfl (fun _ => rfl)
        (by simp [CallbackPc.hasCounted]) (Or.inr ⟨rfl, error, rfl⟩) fun e hne he => ?_⟩
    obtain rfl := CallbackPc.called.inj he
    exact ⟨hne, List.getElem?_set_self hlt, .stored,
      List.getElem?_set_self (List.getElem?_eq_some_iff.mp hpc).1, rfl⟩
  | stored =>
    obtain rfl := Option.some.inj h
    exact ⟨hi.total, hi.statuses, hi.counts.load hpc (hcond hpc), hi.idle_move hpc (by simp),
      hi.issuing, hi.reports.move hpc rfl rfl rfl (fun _ => rfl) (by simp [CallbackPc.hasCounted])
        (Or.inl rfl) (by simp)⟩
  | loaded size =>
    obtain rfl := Option.some.inj h
    exact ⟨hi.total, hi.statuses, hi.counts.store hpc, hi.idle_move hpc (by simp), hi.issuing,
      hi.reports.move hpc rfl rfl rfl (fun _ => rfl) (fun _ => rfl) (Or.inl rfl) (by simp)⟩
  | counted size =>
    obtain rfl := Option.some.inj h
    refine ⟨hi.total, hi.statuses, ?_, hi.idle_move hpc (by simp), hi.issuing,
      hi.reports.move hpc rfl rfl rfl (fun _ => rfl) (fun _ => rfl) (Or.inl rfl) (by simp)⟩
    have hc := hi.counts.compare hpc
    rwa [← hi.total] at hc ⊢

theorem Inv.issue (hi : Inv n s) {error : ESessionError} (h : s.step (.issue error) = some s') :
    Inv n s' := by
  unfold step at h
  cases hm : s.main with
  | calling i => simp [hm] at h
  | waiting => simp [hm] at h
  | returned => simp [hm] at h
  | timedOut => simp [hm] at h
  | issuing i =>
    rw [hm] at h
    simp only at h
    have hin := hi.issuing i hm
    have hidle := hi.idle
    simp only [hm, SyncPc.issued] at hidle
    obtain ⟨pc, hpc⟩ : ∃ pc, s.callbacks[i]? = some pc :=
      ⟨_, List.getElem?_eq_getElem (hi.counts.length.symm ▸ hin)⟩
    obtain rfl := hidle i pc le_rfl hpc
    -- the requests behind this one are still to be issued
    have hbehind : ∀ (pc : CallbackPc) (j : ℕ) (q : CallbackPc), i + 1 ≤ j →
        (s.callbacks.set i pc)[j]? = some q → q = .idle := by
      intro pc j q hj hq
      rw [List.getElem?_set_ne (by omega)] at hq
      exact hidle j q (by omega) hq
    by_cases he : error = .sessionOk
    · rw [if_pos he] at h
      obtain rfl := Option.some.inj h
      have hc := hi.counts.moved hpc (show CallbackPc.sent.hasCounted = _ from rfl) rfl rfl
      exact inv_of_loop rfl hi.total hi.statuses hc (hbehind _) (Or.inl he)
    · rw [if_neg he] at h
      obtain rfl := Option.some.inj h
      refine ⟨hi.total, hi.statuses, hi.counts.moved hpc rfl rfl rfl, hbehind _, by simp,
        he, Or.inl ?_⟩
      exact List.getElem?_set_self (List.getElem?_eq_some_iff.mp hpc).1

theorem Inv.resume (hi : Inv n s) (h : s.step .resume = some s') : Inv n s' := by
  unfold step at h
  cases hm : s.main with
  | issuing i => simp [hm] at h
  | waiting => simp [hm] at h
  | returned => simp [hm] at h
  | timedOut => simp [hm] at h
  | calling i =>
    rw [hm] at h
    simp only [Option.ite_none_right_eq_some] at h
    obtain ⟨hdone, rfl⟩ := h.imp_right Option.some.inj
    have hidle := hi.idle
    have hr := hi.reports
    rw [Reports, hm] at hr
    simp only [hm, SyncPc.issued] at hidle
    refine inv_of_loop rfl hi.total hi.statuses hi.counts hidle (Or.inr ⟨i, ?_⟩)
    -- the callback is done, so it has stored the error
    rcases hr.2 with hcalled | hfailed
    · cases Option.some.inj (hdone.symm.trans hcalled)
    · exact hfailed

theorem Inv.invoke (hi : Inv n s) {error : ESessionError}
    (h : s.step (.invoke i error) = some s') : Inv n s' := by
  simp only [step, Option.ite_none_right_eq_some] at h
  obtain ⟨hpc, rfl⟩ := h.imp_right Option.some.inj
  exact ⟨hi.total, hi.statuses, hi.counts.moved hpc rfl rfl rfl, hi.idle_move hpc (by simp),
    hi.issuing, hi.reports.move hpc rfl rfl rfl (by simp [CallbackPc.hasStored])
      (by simp [CallbackPc.hasCounted]) (Or.inl rfl) (by simp)⟩

theorem Inv.ready (hi : Inv n s) (h : s.step .ready = some s') : Inv n s' := by
  simp only [step, Option.ite_none_right_eq_some] at h
  obtain ⟨⟨hmain, hp⟩, rfl⟩ := h.imp_right Option.some.inj
  have hidle := hi.idle
  have hr := hi.reports
  rw [Reports, hmain] at hr
  rw [hmain] at hidle
  refine ⟨hi.total, hi.statuses, hi.counts, hidle, by simp, hi.counts.all_counted hp, ?_⟩
  rw [readStatus_fst]
  refine ⟨fun h => h.elim (fun hne => ?_) id, Or.inr⟩
  obtain ⟨i, hne, he, -⟩ := hr.resolve_left hne
  exact ⟨_, mem_of_getElem? he, hne⟩

theorem Inv.timeout (hi : Inv n s) (h : s.step .timeout = some s') : Inv n s' := by
  simp only [step, Option.ite_none_right_eq_some] at h
  obtain ⟨⟨hmain, -⟩, rfl⟩ := h.imp_right Option.some.inj
  have hidle := hi.idle
  rw [hmain] at hidle
  exact ⟨hi.total, hi.statuses, hi.counts, hidle, by simp, trivial⟩

theorem Inv.step (hi : Inv n s) {a : PipelineAct} (hcond : LoadsAlone s a)
    (h : s.step a = some s') : Inv n s' := by
  cases a with
  | issue error => exact hi.issue h
  | resume => exact hi.resume h
  | invoke i error => exact hi.invoke h
  | callback i =>
    obtain ⟨pc, hpc, h⟩ := Option.bind_eq_some_iff.mp h
    exact hi.callbackStep hpc hcond h
  | ready => exact hi.ready h
  | timeout => exact hi.timeout h

/-- If no callback loads `received_size` between another one's load and store, the promise is set
once, when every callback has stored its status; a `sync` without a timeout has failed exactly
if some status is an error. -/
theorem pipeline_completes (n : ℕ) (hn : 1 ≤ n) (timeout : ℤ) (as : List PipelineAct)
    (s : PipelineState) (hm : Meets step LoadsAlone (start n true timeout) as)
    (h : run step (start n true timeout) as = some s) :
    (0 < s.promise → ∀ pc ∈ s.callbacks, pc.hasStored = true) ∧
      ((∀ pc ∈ s.callbacks, pc = .done) → s.promise = 1 ∧
        (s.main = .waiting → ∃ s', s.step .ready = some s' ∧ s'.status = s.status ∧
          (s'.failed = true ↔ ∃ e ∈ s.status, e ≠ .sessionOk))) ∧
      (s.main = .returned → (∀ pc ∈ s.callbacks, pc.hasStored = true) ∧
        (s.failed = true ↔ ∃ e ∈ s.status, e ≠ .sessionOk)) := by
  have hi : Inv n s := run_induction (fun _ _ _ hi hc => hi.step hc) (inv_start hn timeout) hm h
  have hreturned : ∀ {s : PipelineState}, Inv n s → s.main = .returned →
      (∀ pc ∈ s.callbacks, pc.hasStored = true) ∧
        (s.failed = true ↔ ∃ e ∈ s.status, e ≠ .sessionOk) := by
    intro s hi hmain
    have hr := hi.reports
    rw [Reports, hmain] at hr
    refine ⟨fun pc hpc => CallbackPc.hasStored_of_hasCounted (hr.1 pc hpc), ?_⟩
    rw [failed, bne_iff_ne]
    exact hr.2
  refine ⟨fun hp pc hpc => CallbackPc.hasStored_of_hasCounted (hi.counts.all_counted hp pc hpc),
    fun hdone => ?_, hreturned hi⟩
  have hone := hi.counts.promise_eq_one hdone
  refine ⟨hone, fun hmain => ?_⟩
  have hready : s.step .ready = some { s with
      errorCode := (readStatus 0 s.status (s.errorCode, "")).1
      additionalErrText := (readStatus 0 s.status (s.errorCode, "")).2
      main := .returned } := if_pos ⟨hmain, by omega⟩
  exact ⟨_, hready, rfl, (hreturned (hi.ready hready) rfl).2⟩

def secondFails : List PipelineAct :=
  [.issue .sessionOk, .issue .socketLost, .callback 1, .callback 1, .callback 1, .callback 1,
    .resume, .invoke 0 .sessionOk, .callback 0, .callback 0, .callback 0, .callback 0]

theorem pipeline_completes_two :
    ∃ s, Meets step LoadsAlone (start 2 true 100) secondFails ∧
      run step (start 2 true 100) secondFails = some s ∧ s.main = .waiting ∧
      (∀ pc ∈ s.callbacks, pc = .done) ∧
      (0 < s.promise → ∀ pc ∈ s.callbacks, pc.hasStored = true) ∧
      ((∀ pc ∈ s.callbacks, pc = .done) → s.promise = 1 ∧
        (s.main = .waiting → ∃ s', s.step .ready = some s' ∧ s'.status = s.status ∧
          (s'.failed = true ↔ ∃ e ∈ s.status, e ≠ .sessionOk))) ∧
      (s.main = .returned → (∀ pc ∈ s.callbacks, pc.hasStored = true) ∧
        (s.failed = true ↔ ∃ e ∈ s.status, e ≠ .sessionOk)) := by
  have hm : Meets step LoadsAlone (start 2 true 100) secondFails := by decide +kernel
  have hr : run step (start 2 true 100) secondFails =
      some ⟨[.sessionOk, .socketLost], 2, 2, 1, [.done, .done], .waiting, 100, .socketLost, ""⟩ := by
    decide +kernel
  exact ⟨_, hm, hr, rfl, by simp, pipeline_completes 2 (by decide) 100 _ _ hm hr⟩

def bothLoad : List PipelineAct :=
  [.issue .sessionOk, .issue .sessionOk, .invoke 0 .sessionOk, .invoke 1 .sessionOk,
    .callback 0, .callback 1, .callback 0, .callback 1, .callback 0, .callback 1,
    .callback 0, .callback 1]

/-- Both callbacks are done, the promise is not set, and `sync` can only time out. -/
theorem pipeline_hangs :
    ∃ s s', run step (start 2 true 100) bothLoad = some s ∧ s.callbacks = [.done, .done] ∧
      s.status = [.sessionOk, .sessionOk] ∧ s.promise = 0 ∧ s.step .ready = none ∧
      s.step .timeout = some s' ∧ s'.failed = true := by
  have hr : run step (start 2 true 100) bothLoad =
      some ⟨[.sessionOk, .sessionOk], 1, 2, 0, [.done, .done], .waiting, 100, .sessionOk, ""⟩ := by
    decide +kernel
  exact ⟨_, _, hr, rfl, rfl, rfl, rfl, rfl, rfl⟩

end PipelineState

end SofaBolt.Pipeline
