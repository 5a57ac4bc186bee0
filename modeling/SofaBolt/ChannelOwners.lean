import SofaBolt.ChannelSockets

namespace SofaBolt

open LifeCycleLock Run

def Held (sockets : List ManagedSocket) (id : ℕ) : Prop :=
  ∃ k, sockets[id]? = some k ∧ k.watched = true ∧ Int.land k.sharers LifeCycleLock.exclusive ≠ 0

def Stored (objects : List ChannelObject) (id : ℕ) : Prop :=
  ∃ x ∈ objects, x.live = true ∧ x.core.socket = some id

def Words (sockets : List ManagedSocket) : Prop :=
  ∀ k ∈ sockets, ∃ u x, k.sharers = lockWord 0 u x

structure Shrinks (ks ks' : List ManagedSocket) : Prop where
  length : ks'.length = ks.length
  held : ∀ id, Held ks' id → Held ks id
  words : Words ks'

theorem Held.lt {ks : List ManagedSocket} {id : ℕ} (h : Held ks id) : id < ks.length := by
  obtain ⟨k, hk, -⟩ := h
  exact (List.getElem?_eq_some_iff.mp hk).1

theorem tryConnect_true (ks : List ManagedSocket) :
    tryConnect ks true = (ks ++ [⟨LifeCycleLock.exclusive, true⟩], some ks.length) := rfl

theorem tryConnect_false (ks : List ManagedSocket) :
    tryConnect ks false = (ks ++ [⟨0, false⟩], none) := by
  have hzero : LifeCycleLock.releaseExclusive (socketTryExclusive 0) = 0 :=
    releaseExclusive_lockWord 0 false true
  simp [tryConnect, hzero]

theorem Words.append {ks : List ManagedSocket} (hw : Words ks) {k : ManagedSocket} {u x : Bool}
    (hk : k.sharers = lockWord 0 u x) : Words (ks ++ [k]) := by
  intro k' hk'
  rcases List.mem_append.mp hk' with hk' | hk'
  · exact hw k' hk'
  · rw [List.mem_singleton.mp hk']
    exact ⟨u, x, hk⟩

theorem Held.of_append {ks : List ManagedSocket} {k : ManagedSocket} {id : ℕ}
    (h : Held (ks ++ [k]) id) : Held ks id ∨ id = ks.length ∧ k.watched = true := by
  obtain ⟨k', hk', hw, hx⟩ := h
  by_cases hlt : id < ks.length
  · rw [List.getElem?_append_left hlt] at hk'
    exact Or.inl ⟨k', hk', hw, hx⟩
  · have hlen := (List.getElem?_eq_some_iff.mp hk').1
    rw [List.length_append, List.length_singleton] at hlen
    obtain rfl : id = ks.length := by omega
    rw [List.getElem?_concat_length] at hk'
    exact Or.inr ⟨rfl, Option.some.inj hk' ▸ hw⟩

/-- A write to one lock that does not make it exclusive in the list. -/
theorem Shrinks.set {ks : List ManagedSocket} (hw : Words ks) {id : ℕ} {k k' : ManagedSocket}
    (hk : ks[id]? = some k) {u x : Bool} (hword : k'.sharers = lockWord 0 u x)
    (hheld : k'.watched = true → x = true → Held ks id) : Shrinks ks (ks.set id k') where
  length := List.length_set ..
  held i h := by
    obtain ⟨r, hr, hwr, hxr⟩ := h
    rcases getElem?_set_cases hk hr with ⟨rfl, rfl⟩ | ⟨-, hr⟩
    · rw [hword, land_exclusive_lockWord] at hxr
      exact hheld hwr hxr
    · exact ⟨r, hr, hwr, hxr⟩
  words r hr := by
    rcases List.mem_or_eq_of_mem_set hr with hr | rfl
    · exact hw r hr
    · exact ⟨u, x, hword⟩

theorem Shrinks.refl {ks : List ManagedSocket} (hw : Words ks) : Shrinks ks ks :=
  ⟨rfl, fun _ => id, hw⟩

theorem Shrinks.trans {ks₁ ks₂ ks₃ : List ManagedSocket} (h₁ : Shrinks ks₁ ks₂)
    (h₂ : Shrinks ks₂ ks₃) : Shrinks ks₁ ks₃ :=
  ⟨h₂.length.trans h₁.length, fun id h => h₁.held id (h₂.held id h), h₂.words⟩

theorem shrinks_releaseSocket {ks : List ManagedSocket} (hw : Words ks) (o : Option ℕ) :
    Shrinks ks (releaseSocket ks o) ∧ ∀ id, o = some id → ¬ Held (releaseSocket ks o) id := by
  cases o with
  | none => exact ⟨.refl hw, by simp⟩
  | some id =>
    cases hk : ks[id]? with
    | none =>
      have heq : releaseSocket ks (some id) = ks := by simp only [releaseSocket, hk]
      rw [heq]
      refine ⟨.refl hw, fun i hi hheld => ?_⟩
      obtain rfl := Option.some.inj hi
      obtain ⟨k, hk', -⟩ := hheld
      rw [hk] at hk'
      cases hk'
    | some k =>
      have heq : releaseSocket ks (some id) =
          ks.set id { k with sharers := LifeCycleLock.releaseExclusive k.sharers } := by
        simp only [releaseSocket, hk]
      obtain ⟨u, x, hword⟩ := hw k (List.mem_of_getElem? hk)
      have hrel : ({ k with sharers := LifeCycleLock.releaseExclusive k.sharers } :
          ManagedSocket).sharers = lockWord 0 false false := by
        rw [hword, releaseExclusive_lockWord]
      rw [heq]
      refine ⟨.set hw hk hrel (by simp), fun i hi hheld => ?_⟩
      obtain rfl := Option.some.inj hi
      obtain ⟨r, hr, -, hx⟩ := hheld
      rw [List.getElem?_set_self (List.getElem?_eq_some_iff.mp hk).1] at hr
      obtain rfl := Option.some.inj hr
      rw [hrel, land_exclusive_lockWord] at hx
      cases hx

theorem shrinks_foldl (os : List (Option ℕ)) {ks : List ManagedSocket} (hw : Words ks) :
    Shrinks ks (os.foldl releaseSocket ks) ∧
      ∀ id, some id ∈ os → ¬ Held (os.foldl releaseSocket ks) id := by
  induction os generalizing ks with
  | nil => exact ⟨.refl hw, fun _ h => absurd h List.not_mem_nil⟩
  | cons o os ih =>
    obtain ⟨h₁, h₂⟩ := shrinks_releaseSocket hw o
    obtain ⟨h₃, h₄⟩ := ih h₁.words
    refine ⟨h₁.trans h₃, fun id hid => ?_⟩
    rcases List.mem_cons.mp hid with hid | hid
    · exact fun hheld => h₂ id hid.symm (h₃.held id hheld)
    · exact h₄ id hid

namespace ChannelCall

def at_ (o : ℕ) : ChannelCall → GetSocketPc
  | .getting o' pc => if o' = o then pc else .outside none
  | _ => .outside none

/-- The channel of the call is alive; `init` is called on a channel of its own. -/
def Inside (objects : List ChannelObject) : ChannelCall → Prop
  | .outside => True
  | .getting o _ => ∃ x, objects[o]? = some x ∧ x.live = true
  | .initPool o _ => ∃ x, objects[o]? = some x ∧ x.live = true ∧ x.parent = none

end ChannelCall

def view (threads : List ChannelCall) (o : ℕ) (c : Channel) : ChannelThreads :=
  ⟨c, threads.map (ChannelCall.at_ o)⟩

namespace ChannelSystem

variable {s : ChannelSystem} {p o : ℕ} {t t' : ChannelCall} {x : ChannelObject}

structure Inv (s : ChannelSystem) : Prop where
  words : Words s.sockets
  stored_lt : ∀ x ∈ s.objects, ∀ id, x.core.socket = some id → id < s.sockets.length
  held : ∀ id, Held s.sockets id → Stored s.objects id
  inside : ∀ t ∈ s.threads, t.Inside s.objects
  lock : ∀ (o : ℕ) (x : ChannelObject), s.objects[o]? = some x → (view s.threads o x.core).Inv
  connecting : ∀ o, .getting o .connect ∈ s.threads → ∀ x, s.objects[o]? = some x →
    ∀ id, x.core.socket = some id → ¬ Held s.sockets id
  pooling : ∀ o k o' pc, .initPool o k ∈ s.threads → .getting o' pc ∈ s.threads →
    o' ≠ o ∧ parentOf s.objects o' ≠ some o

theorem inv_of_outside {ts : List GetSocketPc} (h : ∀ t ∈ ts, t.isOutside = true)
    (socket : Option ℕ) : ChannelThreads.Inv ⟨⟨0, socket⟩, ts⟩ := by
  have hcount : ts.countP GetSocketPc.isCounted = 0 := GetSocketPc.countP_eq_zero h fun _ => rfl
  refine ⟨false, false, ?_, GetSocketPc.countP_eq_zero h fun _ => rfl,
    GetSocketPc.countP_eq_zero h fun _ => rfl, (by cases ·)⟩
  simp only [ChannelThreads.count, hcount]
  rfl

theorem inv_init (channels n : ℕ) : Inv (init channels n) where
  words _ h := absurd h List.not_mem_nil
  stored_lt x hx id h := by
    rw [List.eq_of_mem_replicate hx] at h
    cases h
  held id h := absurd h.lt (Nat.not_lt_zero id)
  inside t ht := by
    rw [List.eq_of_mem_replicate ht]
    trivial
  lock o x hx := by
    rw [List.eq_of_mem_replicate (List.mem_of_getElem? hx)]
    apply inv_of_outside
    intro t ht
    obtain ⟨r, hr, rfl⟩ := List.mem_map.mp ht
    rw [List.eq_of_mem_replicate hr]
    rfl
  connecting o h := by cases List.eq_of_mem_replicate h
  pooling o k o' pc h := by cases List.eq_of_mem_replicate h

/-- The manager, or a channel that gives up its socket, changes the sockets only. -/
theorem Inv.shrink (hi : Inv s) {ks : List ManagedSocket} (h : Shrinks s.sockets ks) :
    Inv { s with sockets := ks } :=
  { hi with
    words := h.words
    stored_lt := fun x hx id hid => (hi.stored_lt x hx id hid).trans_eq h.length.symm
    held := fun id hid => hi.held id (h.held id hid)
    connecting := fun o hm x hx id hid hheld => hi.connecting o hm x hx id hid (h.held id hheld) }

theorem Inv.appendDead (hi : Inv s) : Inv { s with sockets := s.sockets ++ [⟨0, false⟩] } := by
  have hheld : ∀ id, Held (s.sockets ++ [⟨0, false⟩]) id → Held s.sockets id := fun id h =>
    h.of_append.resolve_right fun h => Bool.false_ne_true h.2
  exact { hi with
    words := hi.words.append (u := false) (x := false) rfl
    stored_lt := fun x hx id hid => by
      rw [List.length_append]
      exact Nat.lt_add_right _ (hi.stored_lt x hx id hid)
    held := fun id hid => hi.held id (hheld id hid)
    connecting := fun o hm x hx id hid h => hi.connecting o hm x hx id hid (hheld id h) }

/-- A channel that neither the old nor the new place of a thread is in. -/
theorem view_set_of_outside {threads : List ChannelCall} (ht : threads[p]? = some t) {c : Channel}
    (hi : (view threads o c).Inv) (h : (t.at_ o).isOutside = true)
    (h' : (t'.at_ o).isOutside = true) {c' : Channel} (hbits : c'.bits = c.bits) :
    (view (threads.set p t') o c').Inv := by
  obtain ⟨u, x, hc⟩ := hi
  have hp : (view threads o c).threads[p]? = some (t.at_ o) := by
    rw [view, List.getElem?_map, ht]
    rfl
  have hput : view (threads.set p t') o c' = (view threads o c).put p c' (t'.at_ o) := by
    simp only [view, ChannelThreads.put, List.map_set]
  rw [hput]
  refine ⟨u, x, ?_⟩
  generalize t.at_ o = a at hp h
  generalize t'.at_ o = a' at h'
  cases a with
  | outside r =>
    cases a' with
    | outside r' => exact hc.move hp hbits rfl rfl rfl rfl
    | _ => cases h'
  | _ => cases h

theorem at_isOutside {t : ChannelCall} (h : ∀ pc, t ≠ .getting o pc) :
    (t.at_ o).isOutside = true := by
  cases t with
  | getting o' pc =>
    have hne : o' ≠ o := fun he => h pc (by rw [he])
    rw [ChannelCall.at_, if_neg hne]
    rfl
  | _ => rfl

theorem Inv.moveThread (hi : Inv s) (ht : s.threads[p]? = some t) (t' : ChannelCall)
    (hold : ∀ o pc, t ≠ .getting o pc) (hnew : ∀ o pc, t' ≠ .getting o pc)
    (hinside : t'.Inside s.objects)
    (hpool : ∀ o k, t' = .initPool o k → ∀ o' pc, .getting o' pc ∈ s.threads →
      o' ≠ o ∧ parentOf s.objects o' ≠ some o) :
    Inv { s with threads := s.threads.set p t' } :=
  { hi with
    inside := fun r hr => by
      rcases List.mem_or_eq_of_mem_set hr with hr | rfl
      · exact hi.inside r hr
      · exact hinside
    lock := fun o x hx => view_set_of_outside ht (hi.lock o x hx) (at_isOutside (hold o))
      (at_isOutside (hnew o)) rfl
    connecting := fun o hm => hi.connecting o (mem_of_mem_set (hnew o _).symm hm)
    pooling := fun o k o' pc hm hm' => by
      have hget := mem_of_mem_set (hnew o' pc).symm hm'
      rcases List.mem_or_eq_of_mem_set hm with hm | he
      · exact hi.pooling o k o' pc hm hget
      · exact hpool o k he.symm o' pc hget }

theorem view_step {threads : List ChannelCall} (ht : threads[p]? = some t) {c : Channel}
    (hi : (view threads o c).Inv) (a : SocketOutcome) :
    ChannelThreads.Inv ⟨(getSocketStep a c (t.at_ o)).1,
      (threads.map (ChannelCall.at_ o)).set p (getSocketStep a c (t.at_ o)).2⟩ := by
  have hp : (view threads o c).threads[p]? = some (t.at_ o) := by
    rw [view, List.getElem?_map, ht]
    rfl
  apply hi.step (a := (p, a))
  unfold ChannelThreads.step
  rw [hp]
  rfl

theorem view_next {threads : List ChannelCall} (ht : threads[p]? = some t) {c : Channel}
    {pc : GetSocketPc}
    (hi : ChannelThreads.Inv ⟨c, (threads.map (ChannelCall.at_ o)).set p pc⟩) :
    (view (threads.set p (.next o pc)) o c).Inv := by
  unfold view
  rw [List.map_set]
  cases pc with
  | outside r =>
    obtain ⟨u, x, hc⟩ := hi
    have hlt : p < (threads.map (ChannelCall.at_ o)).length := by
      rw [List.length_map]
      exact (List.getElem?_eq_some_iff.mp ht).1
    have hmove : ((⟨c, (threads.map (ChannelCall.at_ o)).set p (.outside r)⟩ :
        ChannelThreads).put p c (.outside none)).Counted u x :=
      hc.move (List.getElem?_set_self hlt) rfl rfl rfl rfl rfl
    unfold ChannelThreads.put at hmove
    rw [List.set_set] at hmove
    exact ⟨u, x, hmove⟩
  | _ =>
    simp only [ChannelCall.next, ChannelCall.at_, if_true]
    exact hi

/-- A thread enters `getSocketInternal` of a channel that is not being set up. -/
theorem Inv.getSocket (hi : Inv s) (ht : s.threads[p]? = some .outside)
    (hx : s.objects[o]? = some x) (hlive : x.live = true)
    (hinit : ∀ o' k, .initPool o' k ∈ s.threads → o ≠ o' ∧ parentOf s.objects o ≠ some o') :
    Inv { s with threads := s.threads.set p (.getting o .tryShared) } :=
  { hi with
    inside := fun r hr => by
      rcases List.mem_or_eq_of_mem_set hr with hr | rfl
      · exact hi.inside r hr
      · exact ⟨x, hx, hlive⟩
    lock := fun o' y hy => by
      by_cases ho : o = o'
      · subst ho
        exact view_next ht (view_step ht (hi.lock o y hy) ⟨false, none⟩)
      · apply view_set_of_outside ht (hi.lock o' y hy) rfl _ rfl
        exact at_isOutside fun pc h => ho (ChannelCall.getting.inj h).1
    connecting := fun o' hm => hi.connecting o' (mem_of_mem_set (by simp) hm)
    pooling := fun o' k o'' pc hm hm' => by
      have hpool := mem_of_mem_set (by simp) hm
      rcases List.mem_or_eq_of_mem_set hm' with hm' | he
      · exact hi.pooling o' k o'' pc hpool hm'
      · obtain ⟨rfl, rfl⟩ := ChannelCall.getting.inj he
        exact hinit o' k hpool }

theorem view_congr {threads : List ChannelCall} {c c' : Channel} (hi : (view threads o c).Inv)
    (hbits : c'.bits = c.bits) : (view threads o c').Inv := by
  obtain ⟨u, x, hc⟩ := hi
  exact ⟨u, x, hbits.trans hc.bits, hc.upgraded, hc.exclusive, hc.alone⟩

theorem parentOf_set {objects : List ChannelObject} {x x' : ChannelObject}
    (hx : objects[o]? = some x) (hp : x'.parent = x.parent) (o' : ℕ) :
    parentOf (objects.set o x') o' = parentOf objects o' := by
  unfold parentOf
  by_cases ho : o = o'
  · subst ho
    rw [List.getElem?_set_self (List.getElem?_eq_some_iff.mp hx).1, hx]
    exact hp
  · rw [List.getElem?_set_ne ho]

theorem inside_set {objects : List ChannelObject} {x x' : ChannelObject}
    (hx : objects[o]? = some x) (hp : x'.parent = x.parent)
    (hlive : t.object = some o → x'.live = x.live) (h : t.Inside objects) :
    t.Inside (objects.set o x') := by
  have hset := fun (o' : ℕ) (ho : o ≠ o') =>
    List.getElem?_set_ne (l := objects) (a := x') ho
  have hself := List.getElem?_set_self (a := x') (List.getElem?_eq_some_iff.mp hx).1
  cases t with
  | outside => trivial
  | getting o' pc =>
    obtain ⟨y, hy, hl⟩ := h
    by_cases ho : o = o'
    · subst ho
      obtain rfl : x = y := Option.some.inj (hx.symm.trans hy)
      exact ⟨x', hself, (hlive rfl).trans hl⟩
    · exact ⟨y, (hset o' ho).trans hy, hl⟩
  | initPool o' k =>
    obtain ⟨y, hy, hl, hpar⟩ := h
    by_cases ho : o = o'
    · subst ho
      obtain rfl : x = y := Option.some.inj (hx.symm.trans hy)
      exact ⟨x', hself, (hlive rfl).trans hl, hp.trans hpar⟩
    · exact ⟨y, (hset o' ho).trans hy, hl, hpar⟩

theorem parentOf_setCore {objects : List ChannelObject} (hx : objects[o]? = some x) (c : Channel)
    (o' : ℕ) : parentOf (objects.set o (x.setCore c)) o' = parentOf objects o' :=
  parentOf_set hx (show (x.setCore c).parent = x.parent from rfl) o'

theorem inside_setCore {objects : List ChannelObject} (hx : objects[o]? = some x) (c : Channel)
    (h : t.Inside objects) : t.Inside (objects.set o (x.setCore c)) :=
  inside_set hx (show (x.setCore c).parent = x.parent from rfl) (fun _ => rfl) h

theorem stored_set {objects : List ChannelObject} {x x' : ChannelObject} {id : ℕ}
    (hx : objects[o]? = some x)
    (h : x.live = true → x.core.socket = some id → x'.live = true ∧ x'.core.socket = some id)
    (hs : Stored objects id) : Stored (objects.set o x') id := by
  obtain ⟨y, hy, hl, hid⟩ := hs
  obtain ⟨i, hi⟩ := List.mem_iff_getElem?.mp hy
  by_cases ho : o = i
  · subst ho
    obtain rfl : x = y := Option.some.inj (hx.symm.trans hi)
    exact ⟨x', List.mem_of_getElem?
      (List.getElem?_set_self (List.getElem?_eq_some_iff.mp hx).1), h hl hid⟩
  · exact ⟨y, List.mem_of_getElem? ((List.getElem?_set_ne ho).trans hi), hl, hid⟩

theorem Inv.moveGet (hi : Inv s) {pc : GetSocketPc} (ht : s.threads[p]? = some (.getting o pc))
    (hx : s.objects[o]? = some x) (a : SocketOutcome)
    (hconn : (getSocketStep a x.core pc).2 = .connect → ∀ id, x.core.socket = some id →
      ¬ Held s.sockets id) :
    Inv { s with
      objects := s.objects.set o (x.setCore ⟨(getSocketStep a x.core pc).1.bits, x.core.socket⟩)
      threads := s.threads.set p (.next o (getSocketStep a x.core pc).2) } := by
  have hmem := mem_of_getElem? ht
  have hat : ChannelCall.at_ o (.getting o pc) = pc := if_pos rfl
  have hnext : ∀ o' pc', ChannelCall.getting o' pc' =
      .next o (getSocketStep a x.core pc).2 → o' = o ∧ pc' = (getSocketStep a x.core pc).2 := by
    intro o' pc' he
    generalize (getSocketStep a x.core pc).2 = pc'' at he
    cases pc'' with
    | outside r => cases he
    | _ => exact ⟨(ChannelCall.getting.inj he).1, (ChannelCall.getting.inj he).2⟩
  constructor
  case words => exact hi.words
  case stored_lt =>
    intro y hy id hid
    rcases List.mem_or_eq_of_mem_set hy with hy | rfl
    · exact hi.stored_lt y hy id hid
    · exact hi.stored_lt x (List.mem_of_getElem? hx) id hid
  case held => exact fun id hid => stored_set hx (fun hl hs => ⟨hl, hs⟩) (hi.held id hid)
  case inside =>
    intro r hr
    apply inside_setCore hx
    rcases List.mem_or_eq_of_mem_set hr with hr | rfl
    · exact hi.inside r hr
    · have hin := hi.inside _ hmem
      generalize (getSocketStep a x.core pc).2 = pc''
      cases pc'' with
      | outside r => trivial
      | _ => exact hin
  case lock =>
    intro o' y hy
    rcases getElem?_set_cases hx hy with ⟨rfl, rfl⟩ | ⟨hne, hy⟩
    · have hstep := view_step ht (hi.lock o' x hx) a
      rw [hat] at hstep
      exact view_congr (view_next ht hstep) rfl
    · apply view_set_of_outside ht (hi.lock o' y hy) _ _ rfl
      · exact at_isOutside fun pc' h => hne (ChannelCall.getting.inj h).1.symm
      · exact at_isOutside fun pc' h => hne (hnext o' pc' h.symm).1
  case connecting =>
    intro o' hm y hy id hid
    have hsame : ∃ y', s.objects[o']? = some y' ∧ y'.core.socket = some id := by
      rcases getElem?_set_cases hx hy with ⟨rfl, rfl⟩ | ⟨hne, hy⟩
      · exact ⟨x, hx, hid⟩
      · exact ⟨y, hy, hid⟩
    obtain ⟨y', hy', hid'⟩ := hsame
    rcases List.mem_or_eq_of_mem_set hm with hm | he
    · exact hi.connecting o' hm y' hy' id hid'
    · obtain ⟨rfl, hpc⟩ := hnext o' _ he
      obtain rfl : x = y' := Option.some.inj (hx.symm.trans hy')
      exact hconn hpc.symm id hid'
  case pooling =>
    intro o₁ k o₂ pc₂ hm hm'
    rw [parentOf_setCore hx]
    have hpool : ChannelCall.initPool o₁ k ∈ s.threads := by
      rcases List.mem_or_eq_of_mem_set hm with hm | he
      · exact hm
      · generalize (getSocketStep a x.core pc).2 = pc'' at he
        cases pc'' <;> cases he
    rcases List.mem_or_eq_of_mem_set hm' with hm' | he
    · exact hi.pooling o₁ k o₂ pc₂ hpool hm'
    · obtain ⟨rfl, -⟩ := hnext o₂ _ he
      exact hi.pooling o₁ k o₂ pc hpool hmem

theorem Inv.newSocket (hi : Inv s) (hx : s.objects[o]? = some x) (hlive : x.live = true)
    (hnot : ∀ id, x.core.socket = some id → ¬ Held s.sockets id)
    (hnc : .getting o .connect ∉ s.threads) (ok : Bool) :
    Inv { s with
      sockets := (tryConnect s.sockets ok).1
      objects := s.objects.set o (x.setCore ⟨x.core.bits, (tryConnect s.sockets ok).2⟩) } := by
  have hself := List.getElem?_set_self (a := x.setCore ⟨x.core.bits, (tryConnect s.sockets ok).2⟩)
    (List.getElem?_eq_some_iff.mp hx).1
  have hlen : (tryConnect s.sockets ok).1.length = s.sockets.length + 1 := by
    cases ok <;> simp [tryConnect]
  -- what is held is held by another channel, or is the new socket
  have hheld : ∀ id, Held (tryConnect s.sockets ok).1 id →
      Held s.sockets id ∨ id = s.sockets.length ∧ (tryConnect s.sockets ok).2 = some id := by
    intro id hid
    cases ok with
    | true => exact hid.of_append.imp_right fun h => ⟨h.1, congrArg some h.1.symm⟩
    | false =>
      rw [tryConnect_false] at hid
      exact Or.inl (hid.of_append.resolve_right fun h => Bool.false_ne_true h.2)
  constructor
  case words =>
    cases ok with
    | true => exact hi.words.append (u := false) (x := true) rfl
    | false =>
      rw [tryConnect_false]
      exact hi.words.append (u := false) (x := false) rfl
  case stored_lt =>
    intro y hy id hid
    change id < (tryConnect s.sockets ok).1.length
    rw [hlen]
    rcases List.mem_or_eq_of_mem_set hy with hy | rfl
    · exact (hi.stored_lt y hy id hid).trans (Nat.lt_succ_self _)
    · cases ok with
      | true => exact Option.some.inj hid ▸ Nat.lt_succ_self _
      | false => cases hid
  case held =>
    intro id hid
    rcases hheld id hid with hid | ⟨-, hnew⟩
    · exact stored_set hx (fun _ hs => absurd hid (hnot _ hs)) (hi.held _ hid)
    · exact ⟨_, List.mem_of_getElem? hself, hlive, hnew⟩
  case inside => exact fun t ht => inside_setCore hx _ (hi.inside t ht)
  case lock =>
    intro o' y hy
    rcases getElem?_set_cases hx hy with ⟨rfl, rfl⟩ | ⟨hne, hy⟩
    · exact view_congr (hi.lock o' x hx) rfl
    · exact hi.lock o' y hy
  case connecting =>
    intro o' hm y hy id hid h
    rcases getElem?_set_cases hx hy with ⟨rfl, rfl⟩ | ⟨hne, hy⟩
    · exact hnc hm
    · rcases hheld id h with h | ⟨he, -⟩
      · exact hi.connecting o' hm y hy id hid h
      · exact absurd he (hi.stored_lt y (List.mem_of_getElem? hy) id hid).ne
  case pooling =>
    intro o₁ k o₂ pc hm hm'
    rw [parentOf_setCore hx]
    exact hi.pooling o₁ k o₂ pc hm hm'

theorem Inv.setObject (hi : Inv s) (hx : s.objects[o]? = some x) {x' : ChannelObject}
    (hno : ∀ t ∈ s.threads, t.object ≠ some o) (hparent : x'.parent = x.parent)
    (hsocket : x'.core.socket = x.core.socket) (hlock : (view s.threads o x'.core).Inv)
    (hlive : x'.live = x.live ∨ ∀ id, x.core.socket = some id → ¬ Held s.sockets id) :
    Inv (s.setObject o x') := by
  constructor
  case words => exact hi.words
  case stored_lt =>
    intro y hy id hid
    rcases List.mem_or_eq_of_mem_set hy with hy | rfl
    · exact hi.stored_lt y hy id hid
    · exact hi.stored_lt x (List.mem_of_getElem? hx) id (hsocket.symm.trans hid)
  case held =>
    intro id hid
    refine stored_set hx (fun hl hs => ⟨?_, hsocket.trans hs⟩) (hi.held id hid)
    rcases hlive with hlive | hnot
    · exact hlive.trans hl
    · exact absurd hid (hnot id hs)
  case inside =>
    exact fun t ht => inside_set hx hparent (fun h => absurd h (hno t ht)) (hi.inside t ht)
  case lock =>
    intro o' y hy
    rcases getElem?_set_cases hx hy with ⟨rfl, rfl⟩ | ⟨hne, hy⟩
    · exact hlock
    · exact hi.lock o' y hy
  case connecting =>
    intro o' hm y hy id hid
    rcases getElem?_set_cases hx hy with ⟨rfl, rfl⟩ | ⟨hne, hy⟩
    · exact absurd rfl (hno _ hm)
    · exact hi.connecting o' hm y hy id hid
  case pooling =>
    intro o₁ k o₂ pc hm hm'
    change o₂ ≠ o₁ ∧ parentOf (s.objects.set o x') o₂ ≠ some o₁
    rw [parentOf_set hx hparent]
    exact hi.pooling o₁ k o₂ pc hm hm'

theorem Inv.appendSub (hi : Inv s) (o : ℕ) :
    Inv { s with
      sockets := s.sockets ++ [⟨LifeCycleLock.exclusive, true⟩]
      objects := s.objects ++ [⟨⟨0, some s.sockets.length⟩, .single, some o, true⟩] } := by
  -- no call is on the new object
  have hlt : ∀ t ∈ s.threads, ∀ o', t.object = some o' → o' < s.objects.length := by
    intro t ht o' ho'
    have hin := hi.inside t ht
    cases t with
    | outside => cases ho'
    | getting o'' pc =>
      obtain rfl := Option.some.inj ho'
      obtain ⟨y, hy, -⟩ := hin
      exact (List.getElem?_eq_some_iff.mp hy).1
    | initPool o'' k =>
      obtain rfl := Option.some.inj ho'
      obtain ⟨y, hy, -⟩ := hin
      exact (List.getElem?_eq_some_iff.mp hy).1
  have hleft : ∀ {o' : ℕ}, o' < s.objects.length →
      (s.objects ++ [⟨⟨0, some s.sockets.length⟩, .single, some o, true⟩])[o']? =
        s.objects[o']? := fun h => List.getElem?_append_left h
  constructor
  case words => exact hi.words.append (u := false) (x := true) rfl
  case stored_lt =>
    intro y hy id hid
    simp only [List.length_append, List.length_singleton]
    rcases List.mem_append.mp hy with hy | hy
    · exact (hi.stored_lt y hy id hid).trans (Nat.lt_succ_self _)
    · rw [List.mem_singleton.mp hy] at hid
      exact Option.some.inj hid ▸ Nat.lt_succ_self _
  case held =>
    intro id hid
    rcases hid.of_append with hid | ⟨rfl, -⟩
    · obtain ⟨y, hy, hs⟩ := hi.held id hid
      exact ⟨y, List.mem_append_left _ hy, hs⟩
    · exact ⟨_, List.mem_append_right _ (List.mem_singleton_self _), rfl, rfl⟩
  case inside =>
    intro t ht
    have hin := hi.inside t ht
    have hlt := hlt t ht
    cases t with
    | outside => trivial
    | getting o' pc =>
      obtain ⟨y, hy, hl⟩ := hin
      exact ⟨y, (hleft (hlt o' rfl)).trans hy, hl⟩
    | initPool o' k =>
      obtain ⟨y, hy, hl⟩ := hin
      exact ⟨y, (hleft (hlt o' rfl)).trans hy, hl⟩
  case lock =>
    intro o' y hy
    by_cases ho : o' < s.objects.length
    · exact hi.lock o' y ((hleft ho).symm.trans hy)
    · have hlen := (List.getElem?_eq_some_iff.mp hy).1
      simp only [List.length_append, List.length_singleton] at hlen
      obtain rfl : o' = s.objects.length := by omega
      simp only [List.getElem?_concat_length, Option.some.injEq] at hy
      subst hy
      apply inv_of_outside
      intro t ht
      obtain ⟨r, hr, rfl⟩ := List.mem_map.mp ht
      apply at_isOutside
      rintro pc rfl
      exact absurd (hlt _ hr _ rfl) (lt_irrefl _)
  case connecting =>
    intro o' hm y hy id hid h
    have hy := (hleft (hlt _ hm o' rfl)).symm.trans hy
    rcases h.of_append with h | ⟨he, -⟩
    · exact hi.connecting o' hm y hy id hid h
    · exact absurd he (hi.stored_lt y (List.mem_of_getElem? hy) id hid).ne
  case pooling =>
    intro o₁ k o₂ pc hm hm'
    unfold parentOf
    rw [hleft (hlt _ hm' o₂ rfl)]
    exact hi.pooling o₁ k o₂ pc hm hm'

theorem parentOf_destroySubs (s : ChannelSystem) (o o' : ℕ) :
    parentOf (s.destroySubs o).objects o' = parentOf s.objects o' := by
  simp only [parentOf, ChannelSystem.destroySubs, List.getElem?_map]
  cases s.objects[o']? with
  | none => rfl
  | some z =>
    simp only [Option.map_some, Option.bind_some]
    split_ifs <;> rfl

theorem Inv.destroySubs (hi : Inv s) (hno : ∀ o' pc, .getting o' pc ∈ s.threads →
    parentOf s.objects o' ≠ some o) : Inv (s.destroySubs o) := by
  obtain ⟨hshrink, hfree⟩ := shrinks_foldl (s.subSockets o) hi.words
  have hget : ∀ {o' : ℕ} {y : ChannelObject}, (s.destroySubs o).objects[o']? = some y →
      ∃ z, s.objects[o']? = some z ∧ y.core = z.core ∧ y.parent = z.parent ∧
        (z.parent ≠ some o → y = z) := by
    intro o' y hy
    simp only [ChannelSystem.destroySubs, List.getElem?_map] at hy
    obtain ⟨z, hz, rfl⟩ := Option.map_eq_some_iff.mp hy
    refine ⟨z, hz, ?_, ?_, fun h => if_neg h⟩
    · split_ifs <;> rfl
    · split_ifs <;> rfl
  have hkeep : ∀ {o' : ℕ} {z : ChannelObject}, s.objects[o']? = some z → z.parent ≠ some o →
      (s.destroySubs o).objects[o']? = some z := by
    intro o' z hz hp
    simp only [ChannelSystem.destroySubs, List.getElem?_map, hz, Option.map_some, if_neg hp]
  constructor
  case words => exact hshrink.words
  case stored_lt =>
    intro y hy id hid
    obtain ⟨i, hy⟩ := List.mem_iff_getElem?.mp hy
    obtain ⟨z, hz, hcore, -⟩ := hget hy
    rw [hcore] at hid
    exact (hi.stored_lt z (List.mem_of_getElem? hz) id hid).trans_eq hshrink.length.symm
  case held =>
    intro id hid
    obtain ⟨z, hz, hl, hs⟩ := hi.held id (hshrink.held id hid)
    obtain ⟨i, hi'⟩ := List.mem_iff_getElem?.mp hz
    -- the destructors have released every socket stored in a sub channel of `o`
    have hp : z.parent ≠ some o := by
      intro hp
      refine hfree id ?_ hid
      refine List.mem_map.mpr ⟨z, List.mem_filter.mpr ⟨hz, ?_⟩, hs⟩
      simp [hp, hl]
    exact ⟨z, List.mem_of_getElem? (hkeep hi' hp), hl, hs⟩
  case inside =>
    intro t ht
    have hin := hi.inside t ht
    cases t with
    | outside => trivial
    | getting o' pc =>
      obtain ⟨z, hz, hl⟩ := hin
      have hp := hno o' pc ht
      simp only [parentOf, hz, Option.bind_some] at hp
      exact ⟨z, hkeep hz hp, hl⟩
    | initPool o' k =>
      obtain ⟨z, hz, hl, hp⟩ := hin
      exact ⟨z, hkeep hz (by rw [hp]; rintro ⟨⟩), hl, hp⟩
  case lock =>
    intro o' y hy
    obtain ⟨z, hz, hcore, -⟩ := hget hy
    rw [hcore]
    exact hi.lock o' z hz
  case connecting =>
    intro o' hm y hy id hid h
    obtain ⟨z, hz, hcore, -⟩ := hget hy
    rw [hcore] at hid
    exact hi.connecting o' hm z hz id hid (hshrink.held id h)
  case pooling =>
    intro o₁ k o₂ pc hm hm'
    rw [parentOf_destroySubs]
    exact hi.pooling o₁ k o₂ pc hm hm'

variable {s' : ChannelSystem}

/-- Nobody is in a call on the channel or on one of its sub channels. -/
theorem of_not_inUse (h : s.inUse o = false) :
    (∀ t ∈ s.threads, t.object ≠ some o) ∧
      ∀ o' pc, .getting o' pc ∈ s.threads → parentOf s.objects o' ≠ some o := by
  have hnone := List.any_eq_false.mp h
  refine ⟨fun t ht ho => hnone t ht ?_, fun o' pc ht ho => hnone _ ht ?_⟩
  · simp [ho]
  · simp [ChannelCall.object, ho]

theorem of_not_initializing (h : s.initializing o = false) :
    ∀ o' k, .initPool o' k ∈ s.threads → o ≠ o' ∧ parentOf s.objects o ≠ some o' := by
  intro o' k ht
  have hnone := List.any_eq_false.mp h _ ht
  refine ⟨fun ho => hnone ?_, fun ho => hnone ?_⟩
  · simp [ChannelCall.initializes, ho]
  · simp [ChannelCall.initializes, ho]

theorem view_idle (hno : ∀ t ∈ s.threads, t.object ≠ some o) (socket : Option ℕ) :
    (view s.threads o ⟨0, socket⟩).Inv := by
  apply inv_of_outside
  intro t ht
  obtain ⟨r, hr, rfl⟩ := List.mem_map.mp ht
  apply at_isOutside
  rintro pc rfl
  exact hno _ hr rfl

theorem Inv.initChannel (hi : Inv s) (hp : s.threads[p]? = some .outside)
    (hx : s.objects[o]? = some x) (hlive : x.live = true) (hparent : x.parent = none)
    (huse : s.inUse o = false) {type : EConnectionType}
    (hcond : type = .single → x.core.socket = none) (poolSize : ℤ) (ok : Bool) :
    Inv (s.initChannel p o x type poolSize ok) := by
  obtain ⟨hno, hsub⟩ := of_not_inUse huse
  have hset : ∀ type, Inv (s.setObject o
      { x with core := ⟨0, x.core.socket⟩, connectionType := type }) := fun type =>
    hi.setObject hx hno rfl rfl (view_idle hno _) (Or.inl rfl)
  have hself : ∀ x', (s.setObject o x').objects[o]? = some x' := fun x' =>
    List.getElem?_set_self (List.getElem?_eq_some_iff.mp hx).1
  cases type with
  | short => exact hset .short
  | single =>
    -- `init` overwrites `_socket` without releasing it; `hcond` says that it was empty
    have hnew := (hset .single).newSocket (hself _) hlive
      (fun id hid => by rw [hcond rfl] at hid; cases hid) (fun hm => hno _ hm rfl) ok
    simp only [ChannelSystem.setObject, List.set_set] at hnew
    exact hnew
  | pooled =>
    unfold ChannelSystem.initChannel
    simp only
    split_ifs with hsize
    · exact hset .pooled
    · have hpar : ∀ o', parentOf (s.setObject o
          { x with core := ⟨0, x.core.socket⟩, connectionType := .pooled }).objects o' =
            parentOf s.objects o' := fun o' => parentOf_set hx
        (show ({ x with core := ⟨0, x.core.socket⟩, connectionType := .pooled } :
          ChannelObject).parent = x.parent from rfl) o'
      have hdestroy := (hset .pooled).destroySubs (o := o) fun o' pc ht => by
        rw [hpar]
        exact hsub o' pc ht
      apply hdestroy.moveThread hp (.initPool o poolSize.toNat) (by simp) (by simp)
      · refine ⟨{ x with core := ⟨0, x.core.socket⟩, connectionType := .pooled }, ?_, hlive,
          hparent⟩
        simp [ChannelSystem.destroySubs, List.getElem?_map, hself, hparent]
      · rintro o' k he o'' pc ht
        obtain ⟨rfl, -⟩ := ChannelCall.initPool.inj he
        refine ⟨fun ho => hno _ ht (congrArg some ho), ?_⟩
        rw [parentOf_destroySubs, hpar]
        exact hsub o'' pc ht

theorem Inv.destroyChannel (hi : Inv s) (hx : s.objects[o]? = some x) (huse : s.inUse o = false)
    (hcond : x.connectionType = .pooled → x.core.socket = none) :
    Inv (s.destroyChannel o x) := by
  obtain ⟨hno, hsub⟩ := of_not_inUse huse
  have hpar := parentOf_set hx (show ({ x with live := false } : ChannelObject).parent = x.parent
    from rfl)
  unfold ChannelSystem.destroyChannel
  simp only
  split_ifs with htype
  · have hset : Inv (s.setObject o { x with live := false }) :=
      hi.setObject hx hno rfl rfl (hi.lock o x hx)
        (Or.inr fun id hid => by rw [hcond htype] at hid; cases hid)
    apply hset.destroySubs
    intro o' pc ht
    exact (hpar o').trans_ne (hsub o' pc ht)
  · obtain ⟨hshrink, hfree⟩ := shrinks_releaseSocket hi.words x.core.socket
    have hset : Inv ({ s with sockets := releaseSocket s.sockets x.core.socket }.setObject o
        { x with live := false }) :=
      (hi.shrink hshrink).setObject hx hno rfl rfl (hi.lock o x hx) (Or.inr hfree)
    apply hset.destroySubs
    intro o' pc ht
    exact (hpar o').trans_ne (hsub o' pc ht)

theorem Inv.connectSub (hi : Inv s) {left : ℕ} (hp : s.threads[p]? = some (.initPool o left))
    (ok : Bool) : Inv (s.connectSub p o left ok) := by
  have hmem := mem_of_getElem? hp
  obtain ⟨y, hy, hl, hpar⟩ := hi.inside _ hmem
  unfold ChannelSystem.connectSub
  cases ok with
  | true =>
    have hsub := hi.appendSub o
    have hy' : (s.objects ++ [⟨⟨0, some s.sockets.length⟩, .single, some o, true⟩])[o]? = some y :=
      (List.getElem?_append_left (List.getElem?_eq_some_iff.mp hy).1).trans hy
    rw [tryConnect_true]
    simp only
    split_ifs
    · exact hsub.moveThread hp .outside (by simp) (by simp) trivial (by simp)
    · apply hsub.moveThread hp (.initPool o (left - 1)) (by simp) (by simp) ⟨y, hy', hl, hpar⟩
      rintro o' k he o'' pc ht
      obtain ⟨rfl, -⟩ := ChannelCall.initPool.inj he
      exact hsub.pooling o left o'' pc hmem ht
  | false =>
    rw [tryConnect_false]
    have hmove := hi.appendDead.moveThread hp .outside (by simp) (by simp) trivial (by simp)
    apply hmove.destroySubs
    intro o' pc ht
    have hne : ChannelCall.getting o' pc ≠ .outside := (by cases ·)
    exact (hi.pooling o left o' pc hmem (mem_of_mem_set hne ht)).2

theorem getSocketStep_socket (a : SocketOutcome) (c : Channel) {pc : GetSocketPc}
    (h : pc ≠ .connect) : (getSocketStep a c pc).1.socket = c.socket := by
  unfold getSocketStep
  cases pc with
  | connect => exact absurd rfl h
  | readSocket => cases hs : c.socket <;> simp [hs]
  | exclusive => cases LifeCycleLock.tryExclusive c.bits <;> rfl
  | _ => rfl

theorem getSocketStep_connect {a : SocketOutcome} {c : Channel} {pc : GetSocketPc}
    (h : (getSocketStep a c pc).2 = .connect) : pc = .surrender := by
  unfold getSocketStep at h
  cases pc with
  | surrender => rfl
  | tryShared =>
    cases hh : held c.bits <;> simp [hh] at h
  | readSocket =>
    cases hs : c.socket <;> cases ha : a.active <;> simp [hs, ha] at h
  | releaseShared r up => cases up <;> simp at h
  | exclusive => cases hx : LifeCycleLock.tryExclusive c.bits <;> simp [hx] at h
  | _ => cases h

theorem Inv.getStep (hi : Inv s) {pc : GetSocketPc} (hp : s.threads[p]? = some (.getting o pc))
    (hx : s.objects[o]? = some x) (active ok : Bool) :
    Inv (s.getStep p o x pc active ok) := by
  have hmem := mem_of_getElem? hp
  obtain ⟨y, hy, hlive⟩ := hi.inside _ hmem
  obtain rfl : x = y := Option.some.inj (hx.symm.trans hy)
  have hcore : ∀ a, pc ≠ .connect →
      (⟨(getSocketStep a x.core pc).1.bits, x.core.socket⟩ : Channel) =
        (getSocketStep a x.core pc).1 := by
    intro a hne
    rw [← getSocketStep_socket a x.core hne]
  by_cases hc : pc = .connect
  · subst hc
    -- nobody else is about to connect this channel
    have halone : ∀ q, s.threads[q]? = some (.getting o .connect) → p = q := by
      intro q hq
      obtain ⟨u, z, hcount⟩ := hi.lock o x hx
      have hat : ∀ {i : ℕ}, s.threads[i]? = some (.getting o .connect) →
          (view s.threads o x.core).threads[i]? = some .connect := by
        intro i hi'
        rw [view, List.getElem?_map, hi', Option.map_some, ChannelCall.at_, if_pos rfl]
      exact eq_of_countP_le_one (hcount.exclusive.trans_le (Bool.toNat_le z)) (hat hp) (hat hq)
        rfl rfl
    have hmove := hi.moveGet hp hx ⟨active, (tryConnect s.sockets ok).2⟩ (by cases ·)
    have hself := List.getElem?_set_self (a := x.setCore ⟨x.core.bits, x.core.socket⟩)
      (List.getElem?_eq_some_iff.mp hx).1
    have hnew := hmove.newSocket hself hlive (hi.connecting o hmem x hx) (fun hm => by
      obtain ⟨q, hq⟩ := List.mem_iff_getElem?.mp hm
      rcases getElem?_set_cases hp hq with ⟨-, heq⟩ | ⟨hqp, hq⟩
      · cases heq
      · exact hqp (halone q hq).symm) ok
    simp only [List.set_set] at hnew
    exact hnew
  · by_cases hsur : pc = .surrender
    · subst hsur
      obtain ⟨hshrink, hfree⟩ := shrinks_releaseSocket hi.words x.core.socket
      have hmove := (hi.shrink hshrink).moveGet hp hx ⟨active, (tryConnect s.sockets ok).2⟩
        fun _ => hfree
      rw [hcore _ hc] at hmove
      exact hmove
    · have hmove := hi.moveGet hp hx ⟨active, (tryConnect s.sockets ok).2⟩
        fun h => absurd (getSocketStep_connect h) hsur
      rw [hcore _ hc] at hmove
      have hsame : socketsAfter s.sockets x.core ok pc = s.sockets := by
        cases pc with
        | surrender => exact absurd rfl hsur
        | connect => exact absurd rfl hc
        | _ => rfl
      unfold ChannelSystem.getStep
      rw [hsame]
      exact hmove

end ChannelSystem

/-- What a step must not do for a socket to keep an owner: `init` as a single channel
of one that has a socket, the destructor of a pooled channel that has a socket of its
own, and a successful `getSocket` of a short channel. -/
def SystemAct.KeepsOwner (s : ChannelSystem) : SystemAct → Prop
  | .init _ o options _ _ => ∀ x ∈ s.objects[o]?,
      options.getD x.connectionType = .single → x.core.socket = none
  | .destroy o => ∀ x ∈ s.objects[o]?, x.connectionType = .pooled → x.core.socket = none
  | .getShort _ ok => ok = false
  | _ => True

instance (s : ChannelSystem) : DecidablePred (SystemAct.KeepsOwner s)
  | .init _ o options _ _ => inferInstanceAs (Decidable (∀ x ∈ s.objects[o]?,
      options.getD x.connectionType = .single → x.core.socket = none))
  | .destroy o => inferInstanceAs (Decidable (∀ x ∈ s.objects[o]?,
      x.connectionType = .pooled → x.core.socket = none))
  | .getShort _ ok => inferInstanceAs (Decidable (ok = false))
  | .getSocket _ _ | .step _ _ _ | .watchUpgrade _ | .watchExclusive _ => isTrue trivial

namespace ChannelSystem

variable {s s' : ChannelSystem}

theorem Inv.step (hi : Inv s) {a : SystemAct} (hcond : a.KeepsOwner s)
    (h : s.step a = some s') : Inv s' := by
  cases a with
  | init p o options poolSize ok =>
    simp only [ChannelSystem.step] at h
    split at h
    · next x hp hx =>
      split_ifs at h with hg
      obtain rfl := Option.some.inj h
      simp only [Bool.and_eq_true, beq_iff_eq, Bool.not_eq_true'] at hg
      exact hi.initChannel hp hx hg.1.1 hg.1.2 hg.2 (hcond x hx) poolSize ok
    · cases h
  | destroy o =>
    obtain ⟨x, hx, h⟩ := Option.bind_eq_some_iff.mp h
    split_ifs at h with hg
    obtain rfl := Option.some.inj h
    simp only [Bool.and_eq_true, Bool.not_eq_true'] at hg
    exact hi.destroyChannel hx hg.2 (hcond x hx)
  | getSocket p o =>
    simp only [ChannelSystem.step] at h
    split at h
    · next x hp hx =>
      split_ifs at h with hg
      obtain rfl := Option.some.inj h
      simp only [Bool.and_eq_true, Bool.not_eq_true'] at hg
      exact hi.getSocket hp hx hg.1.1 (of_not_initializing hg.2)
    · cases h
  | getShort o ok =>
    obtain ⟨x, hx, h⟩ := Option.bind_eq_some_iff.mp h
    split_ifs at h
    obtain rfl := Option.some.inj h
    rw [show ok = false from hcond, tryConnect_false]
    exact hi.appendDead
  | step p active ok =>
    simp only [ChannelSystem.step] at h
    split at h
    · next o pc hp =>
      obtain ⟨x, hx, rfl⟩ := Option.map_eq_some_iff.mp h
      exact hi.getStep hp hx active ok
    · next o left hp =>
      obtain rfl := Option.some.inj h
      exact hi.connectSub hp ok
    · cases h
  | watchUpgrade id =>
    obtain ⟨k, hk, h⟩ := Option.bind_eq_some_iff.mp h
    split_ifs at h with hw
    obtain rfl := Option.some.inj h
    obtain ⟨u, x, hword⟩ := hi.words k (List.mem_of_getElem? hk)
    apply hi.shrink
    have hup : (tryUpgrade k.sharers).2 = lockWord 0 true x := by
      rw [hword]
      exact orUpgraded_lockWord 0 u x
    refine Shrinks.set hi.words hk hup ?_
    rintro - rfl
    exact ⟨k, hk, hw, by rw [hword, land_exclusive_lockWord]⟩
  | watchExclusive id =>
    obtain ⟨k, hk, h⟩ := Option.bind_eq_some_iff.mp h
    split_ifs at h
    split at h
    · next sharers hx =>
      obtain rfl := Option.some.inj h
      rw [LifeCycleLock.tryExclusive, Option.ite_none_right_eq_some] at hx
      obtain ⟨-, rfl⟩ := hx.imp_right Option.some.inj
      apply hi.shrink
      exact Shrinks.set hi.words hk (u := false) (x := true) rfl (by cases ·)
    · exact Option.some.inj h ▸ hi

theorem Inv.watch_takes (hi : Inv s) {id : ℕ} {k : ManagedSocket} (hk : s.sockets[id]? = some k)
    (hw : k.watched = true) (hnot : ¬ Held s.sockets id) :
    ∃ s', run ChannelSystem.step s [.watchUpgrade id, .watchExclusive id] = some s' ∧
      ∃ k', s'.sockets[id]? = some k' ∧ k'.watched = false := by
  have hlt := (List.getElem?_eq_some_iff.mp hk).1
  obtain ⟨u, x, hword⟩ := hi.words k (List.mem_of_getElem? hk)
  obtain rfl : x = false := by
    by_contra hx
    refine hnot ⟨k, hk, hw, ?_⟩
    rw [hword, land_exclusive_lockWord]
    simpa using hx
  have hup : (tryUpgrade k.sharers).2 = LifeCycleLock.upgraded := by
    rw [hword]
    exact orUpgraded_lockWord 0 u false
  have h₁ : s.step (.watchUpgrade id) =
      some { s with sockets := s.sockets.set id ⟨LifeCycleLock.upgraded, true⟩ } := by
    simp only [ChannelSystem.step, hk, Option.bind_some, hw, if_true, hup]
  have h₂ : ChannelSystem.step { s with sockets := s.sockets.set id ⟨LifeCycleLock.upgraded, true⟩ }
      (.watchExclusive id) =
        some { s with sockets := s.sockets.set id ⟨LifeCycleLock.exclusive, false⟩ } := by
    simp only [ChannelSystem.step, List.getElem?_set_self hlt, Option.bind_some, if_true,
      LifeCycleLock.tryExclusive, List.set_set]
  refine ⟨{ s with sockets := s.sockets.set id ⟨LifeCycleLock.exclusive, false⟩ }, ?_,
    ⟨LifeCycleLock.exclusive, false⟩, List.getElem?_set_self hlt, rfl⟩
  rw [run, h₁, Option.bind_some, run, h₂]
  rfl

/-- Each socket in the manager's list whose lock is held exclusively is the socket of a living
channel or sub channel, and the manager takes each that is nobody's. -/
theorem no_socket_orphaned (channels n : ℕ) (as : List SystemAct) (s : ChannelSystem)
    (hm : Meets ChannelSystem.step SystemAct.KeepsOwner (init channels n) as)
    (hr : run ChannelSystem.step (init channels n) as = some s) :
    (∀ (id : ℕ) (k : ManagedSocket), s.sockets[id]? = some k → k.watched = true →
        Int.land k.sharers LifeCycleLock.exclusive ≠ 0 →
          ∃ x ∈ s.objects, x.live = true ∧ x.core.socket = some id) ∧
      ∀ (id : ℕ) (k : ManagedSocket), s.sockets[id]? = some k → k.watched = true →
        (∀ x ∈ s.objects, x.live = true → x.core.socket ≠ some id) →
          ∃ s', run ChannelSystem.step s [.watchUpgrade id, .watchExclusive id] = some s' ∧
            ∃ k', s'.sockets[id]? = some k' ∧ k'.watched = false := by
  have hi : s.Inv := run_induction (fun _ _ _ hi hcond h => Inv.step hi hcond h)
    (inv_init channels n) hm hr
  refine ⟨fun id k hk hw hx => hi.held id ⟨k, hk, hw, hx⟩, fun id k hk hw hnone => ?_⟩
  apply hi.watch_takes hk hw
  intro hheld
  obtain ⟨x, hx, hl, hs⟩ := hi.held id hheld
  exact hnone x hx hl hs

def reconnectRun : List SystemAct :=
  [.init 0 0 none 0 true, .init 1 1 (some .pooled) 1 true, .step 1 true true, .getSocket 0 0,
    .step 0 false true, .step 0 false true, .step 0 false true, .step 0 false true,
    .step 0 false true, .step 0 false true, .step 0 false true, .step 0 false true,
    .destroy 1, .watchUpgrade 0, .watchExclusive 0]

theorem no_socket_orphaned_reconnect :
    ∃ as s, Meets ChannelSystem.step SystemAct.KeepsOwner (init 2 2) as ∧
      run ChannelSystem.step (init 2 2) as = some s ∧
      s.sockets = [⟨1, false⟩, ⟨0, true⟩, ⟨1, true⟩] ∧
      (∃ x ∈ s.objects, x.live = true ∧ x.core.socket = some 2) ∧
      ∃ s', run ChannelSystem.step s [.watchUpgrade 1, .watchExclusive 1] = some s' ∧
        ∃ k', s'.sockets[1]? = some k' ∧ k'.watched = false := by
  have hm : Meets ChannelSystem.step SystemAct.KeepsOwner (init 2 2) reconnectRun := by
    decide +kernel
  have hr : run ChannelSystem.step (init 2 2) reconnectRun = some
      { sockets := [⟨1, false⟩, ⟨0, true⟩, ⟨1, true⟩]
        objects := [⟨⟨0, some 2⟩, .single, none, true⟩, ⟨⟨0, none⟩, .pooled, none, false⟩,
          ⟨⟨0, some 1⟩, .single, some 1, false⟩]
        threads := [.outside, .outside] } := by decide +kernel
  obtain ⟨h₁, h₂⟩ := no_socket_orphaned 2 2 _ _ hm hr
  refine ⟨_, _, hm, hr, rfl, h₁ 2 _ rfl rfl (by decide), h₂ 1 _ rfl rfl ?_⟩
  simp

/-- The socket of a short connection: no call is in progress, its lock is held
exclusively, no channel has it, and the manager does not take it. -/
theorem short_socket_orphaned :
    ∃ as s, run ChannelSystem.step (init 1 1) as = some s ∧ s.threads = [.outside] ∧
      (∃ k, s.sockets[0]? = some k ∧ k.watched = true ∧
        Int.land k.sharers LifeCycleLock.exclusive ≠ 0) ∧
      (∀ x ∈ s.objects, x.core.socket ≠ some 0) ∧
      ∃ s', run ChannelSystem.step s [.watchUpgrade 0, .watchExclusive 0] = some s' ∧
        ∃ k, s'.sockets[0]? = some k ∧ k.watched = true := by
  refine ⟨[.init 0 0 (some .short) 0 true, .getShort 0 true],
    ⟨[⟨1, true⟩], [⟨⟨0, none⟩, .short, none, true⟩], [.outside]⟩, by decide +kernel, rfl,
    ⟨_, rfl, rfl, by decide⟩, by simp,
    ⟨[⟨3, true⟩], [⟨⟨0, none⟩, .short, none, true⟩], [.outside]⟩, by decide +kernel, _, rfl, rfl⟩

end ChannelSystem

end SofaBolt
