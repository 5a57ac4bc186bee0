import SofaBolt.Adjacent
import SofaBolt.Run

/- An operation is a program of single atomic accesses to the `prev` and `next` fields and to
`_size`; `Pc` is where it is, with the local variables that are still used, and `listStep`
is its next access. `_size` wraps below zero for a moment when the node of a push that has
not counted yet is taken out; the number here is then negative. -/

namespace SofaBolt.IntrusiveList

open Adjacent

inductive NodePtr where
  | header
  | tail
  | node (i : ℕ)
deriving DecidableEq, Repr

structure Links where
  prev : NodePtr → Option NodePtr
  next : NodePtr → Option NodePtr
  size : ℤ

namespace Links

def empty : Links where
  prev := Function.update (fun _ => none) .tail (some .header)
  next := Function.update (fun _ => none) .header (some .tail)
  size := 0

def setPrev (l : Links) (p : NodePtr) (v : Option NodePtr) : Links :=
  { l with prev := Function.update l.prev p v }

def setNext (l : Links) (p : NodePtr) (v : Option NodePtr) : Links :=
  { l with next := Function.update l.next p v }

end Links

inductive End where
  | front
  | back
deriving DecidableEq, Repr

structure Window where
  prev : NodePtr
  next : NodePtr
  cur : NodePtr
deriving DecidableEq, Repr

inductive Caller where
  | remove
  | pop (e : End)
deriving DecidableEq, Repr

inductive Result where
  | unit
  | removed (ret : Bool)
  | popped (ret : Option NodePtr)
deriving DecidableEq, Repr

inductive Pc where
  | idle
  -- the loop of `push_front` and `push_back`
  | checkPrev (e : End) (cur : NodePtr)
  | loadEnd (e : End) (cur : NodePtr)
  -- `insert_once`
  | is1 (e : End) (w : Window)
  | linkPrev (e : End) (w : Window)
  | linkNext (e : End) (w : Window)
  | is2 (e : End) (w : Window)
  | undoNext (e : End) (w : Window)
  | undoPrev (e : End) (w : Window)
  | is3 (w : Window)
  | addSize
  -- the loop of `pop_front` and `pop_back`
  | loadCur (e : End)
  | loadSide (e : End) (cur : NodePtr)
  -- the loop of `remove`
  | loadPrev (cur : NodePtr)
  | loadNext (cur : NodePtr) (prev : Option NodePtr)
  -- `remove_once`
  | rs1 (c : Caller) (w : Window)
  | rs2 (c : Caller) (w : Window)
  | rs3 (c : Caller) (w : Window)
  | rs4 (c : Caller) (w : Window)
  | undo4 (c : Caller) (w : Window)
  | rs5 (c : Caller) (w : Window)
  | undo5Prev (c : Caller) (w : Window)
  | undo5Next (c : Caller) (w : Window)
  | rs6 (c : Caller) (w : Window)
  | subSize (c : Caller) (cur : NodePtr)
  | returned (r : Result)
deriving DecidableEq, Repr

def Caller.retry : Caller → NodePtr → Pc
  | .remove, cur => .loadPrev cur
  | .pop e, _ => .loadCur e

def Caller.result : Caller → NodePtr → Result
  | .remove, _ => .removed true
  | .pop _, cur => .popped (some cur)

/-- The window of a pop whose `cur` has this neighbour; the other one is the end. -/
def End.window : End → NodePtr → NodePtr → Window
  | .front, cur, next => ⟨.header, next, cur⟩
  | .back, cur, prev => ⟨prev, .tail, cur⟩

def End.place : End → NodePtr → NodePtr → Window
  | .front, cur, next => ⟨.header, next, cur⟩
  | .back, cur, prev => ⟨prev, .tail, cur⟩

def End.other : End → NodePtr
  | .front => .tail
  | .back => .header

def End.outer (l : Links) : End → Option NodePtr
  | .front => l.next .header
  | .back => l.prev .tail

def End.inner (l : Links) : End → NodePtr → Option NodePtr
  | .front => l.next
  | .back => l.prev

/-- One access.  A loop that waits, in IS3 and RS6, stays where it is; `none` is an
access through a null pointer, or an operation that is not in progress. -/
def listStep (l : Links) : Pc → Option (Links × Pc)
  | .checkPrev e cur => some (l, if l.prev cur = none then .loadEnd e cur else .returned .unit)
  | .loadEnd e cur => (e.outer l).map fun other => (l, .is1 e (e.place cur other))
  | .is1 e w => some (l, if l.prev w.next = some w.prev then .linkPrev e w else .checkPrev e w.cur)
  | .linkPrev e w =>
    if l.prev w.cur = none then some (l.setPrev w.cur (some w.prev), .linkNext e w)
    else some (l, .checkPrev e w.cur)
  | .linkNext e w => some (l.setNext w.cur (some w.next), .is2 e w)
  | .is2 e w =>
    if l.next w.prev = some w.next then some (l.setNext w.prev (some w.cur), .is3 w)
    else some (l, .undoNext e w)
  | .undoNext e w =>
    some (if l.next w.cur = some w.next then l.setNext w.cur none else l, .undoPrev e w)
  | .undoPrev e w =>
    some (if l.prev w.cur = some w.prev then l.setPrev w.cur none else l, .checkPrev e w.cur)
  | .is3 w =>
    if l.prev w.next = some w.prev then some (l.setPrev w.next (some w.cur), .addSize)
    else some (l, .is3 w)
  | .addSize => some ({ l with size := l.size + 1 }, .returned .unit)
  | .loadCur e => (e.outer l).map fun cur =>
    (l, if cur = e.other then .returned (.popped none) else .loadSide e cur)
  | .loadSide e cur =>
    match e.inner l cur with
    | none => some (l, .loadCur e)
    | some other => some (l, .rs1 (.pop e) (e.window cur other))
  | .loadPrev cur => some (l, .loadNext cur (l.prev cur))
  | .loadNext cur prev =>
    match prev, l.next cur with
    | some prev, some next => some (l, .rs1 .remove ⟨prev, next, cur⟩)
    | _, _ => some (l, .returned (.removed false))
  | .rs1 c w => some (l, if l.prev w.next = some w.cur then .rs2 c w else c.retry w.cur)
  | .rs2 c w => some (l, if l.next w.prev = some w.cur then .rs3 c w else c.retry w.cur)
  | .rs3 c w =>
    if l.prev w.cur = some w.prev then some (l.setPrev w.cur none, .rs4 c w)
    else some (l, c.retry w.cur)
  | .rs4 c w =>
    if l.next w.cur = some w.next then some (l.setNext w.cur none, .rs5 c w)
    else some (l, .undo4 c w)
  | .undo4 c w =>
    some (if l.prev w.cur = none then l.setPrev w.cur (some w.prev) else l, c.retry w.cur)
  | .rs5 c w =>
    if l.next w.prev = some w.cur then some (l.setNext w.prev (some w.next), .rs6 c w)
    else some (l, .undo5Prev c w)
  | .undo5Prev c w =>
    some (if l.prev w.cur = none then l.setPrev w.cur (some w.prev) else l, .undo5Next c w)
  | .undo5Next c w =>
    some (if l.next w.cur = none then l.setNext w.cur (some w.next) else l, c.retry w.cur)
  | .rs6 c w =>
    if l.prev w.next = some w.cur then some (l.setPrev w.next (some w.prev), .subSize c w.cur)
    else some (l, .rs6 c w)
  | .subSize c cur => some ({ l with size := l.size - 1 }, .returned (c.result cur))
  | .idle | .returned _ => none

inductive Op where
  | pushFront (i : ℕ)
  | pushBack (i : ℕ)
  | popFront
  | popBack
  | remove (i : ℕ)
deriving DecidableEq, Repr

def Op.start : Op → Pc
  | .pushFront i => .checkPrev .front (.node i)
  | .pushBack i => .checkPrev .back (.node i)
  | .popFront => .loadCur .front
  | .popBack => .loadCur .back
  | .remove i => .loadPrev (.node i)

def frame (xs : List ℕ) : List NodePtr := .header :: xs.map .node ++ [.tail]

structure Links.Holds (l : Links) (xs : List ℕ) : Prop where
  nodup : xs.Nodup
  next : ∀ a b, Adj (frame xs) a b → l.next a = some b
  prev : ∀ a b, Adj (frame xs) a b → l.prev b = some a
  out : ∀ i, i ∉ xs → l.prev (.node i) = none ∧ l.next (.node i) = none
  size : l.size = xs.length

def finish : ℕ → Links → Pc → Option (Links × Result)
  | 0, _, _ => none
  | _ + 1, l, .returned r => some (l, r)
  | fuel + 1, l, pc => (listStep l pc).bind fun r => finish fuel r.1 r.2

def Links.exec (l : Links) (op : Op) : Option (Links × Result) := finish 10 l op.start

variable {l : Links} {xs ys zs : List ℕ} {x : ℕ}

theorem frame_nodup (h : xs.Nodup) : (frame xs).Nodup := by
  rw [frame, List.nodup_append]
  refine ⟨?_, List.nodup_singleton _, ?_⟩
  · rw [List.nodup_cons]
    exact ⟨by simp, h.map (fun a b hab => NodePtr.node.inj hab)⟩
  · intro a ha b hb
    rw [List.mem_singleton.mp hb]
    rintro rfl
    simp at ha

theorem mem_frame (h : NodePtr.node x ∈ frame xs) : x ∈ xs := by
  simpa [frame] using h

namespace Links

theorem holds_empty : empty.Holds [] := by
  have hframe : ∀ {a b}, Adj (frame []) a b → a = .header ∧ b = .tail := by
    intro a b h
    exact (adj_cons_cons.mp h).resolve_right not_adj_singleton
  refine ⟨List.nodup_nil, fun a b h => ?_, fun a b h => ?_, fun i _ => ⟨rfl, rfl⟩, rfl⟩
  · obtain ⟨rfl, rfl⟩ := hframe h
    rfl
  · obtain ⟨rfl, rfl⟩ := hframe h
    rfl

def insert (l : Links) (w : Window) : Links where
  prev := Function.update (Function.update l.prev w.cur (some w.prev)) w.next (some w.cur)
  next := Function.update (Function.update l.next w.cur (some w.next)) w.prev (some w.cur)
  size := l.size + 1

def unlink (l : Links) (w : Window) : Links where
  prev := Function.update (Function.update l.prev w.cur none) w.next (some w.prev)
  next := Function.update (Function.update l.next w.cur none) w.prev (some w.next)
  size := l.size - 1

theorem Holds.insert {w : Window} {us vs : List NodePtr} (h : l.Holds xs) (hcur : w.cur = .node x)
    (hframe : frame xs = us ++ w.prev :: w.next :: vs)
    (hframe' : frame ys = us ++ w.prev :: w.cur :: w.next :: vs) (hx : x ∉ xs) (hys : ys.Nodup)
    (hmem : ∀ i, i ∈ ys ↔ i = x ∨ i ∈ xs) (hlen : ys.length = xs.length + 1) :
    (l.insert w).Holds ys := by
  have hnd := frame_nodup h.nodup
  have hadj : Adj (frame xs) w.prev w.next := ⟨us, vs, hframe⟩
  have hcur' : w.cur ∉ frame xs := by
    rw [hcur]
    exact fun hmem => hx (mem_frame hmem)
  have hne : ∀ {a}, a ∈ frame xs → a ≠ w.cur := by
    rintro a ha rfl
    exact hcur' ha
  have hiff : ∀ a b, Adj (frame ys) a b ↔ (a = w.prev ∧ b = w.cur) ∨ (a = w.cur ∧ b = w.next) ∨
      (a ≠ w.prev ∧ Adj (frame xs) a b) := by
    intro a b
    rw [hframe'] at *
    rw [hframe] at hnd ⊢
    exact adj_insert hnd
  constructor
  case nodup => exact hys
  case next =>
    intro a b hab
    simp only [Links.insert]
    rcases (hiff a b).mp hab with ⟨rfl, rfl⟩ | ⟨rfl, rfl⟩ | ⟨ha, hab⟩
    · rw [Function.update_self]
    · rw [Function.update_of_ne (hne hadj.mem_left).symm, Function.update_self]
    · rw [Function.update_of_ne ha, Function.update_of_ne (hne hab.mem_left), h.next a b hab]
  case prev =>
    intro a b hab
    simp only [Links.insert]
    rcases (hiff a b).mp hab with ⟨rfl, rfl⟩ | ⟨rfl, rfl⟩ | ⟨ha, hab⟩
    · rw [Function.update_of_ne (hne hadj.mem_right).symm, Function.update_self]
    · rw [Function.update_self]
    · have hb : b ≠ w.next := by
        rintro rfl
        exact ha (hab.unique_left hnd hadj)
      rw [Function.update_of_ne hb, Function.update_of_ne (hne hab.mem_right), h.prev a b hab]
  case out =>
    intro i hi
    rw [hmem, not_or] at hi
    have hi' : ∀ {a}, a ∈ frame xs → NodePtr.node i ≠ a := by
      rintro a ha rfl
      exact hi.2 (mem_frame ha)
    have hix : NodePtr.node i ≠ w.cur := by
      rw [hcur]
      simpa using hi.1
    simp only [Links.insert]
    rw [Function.update_of_ne (hi' hadj.mem_right), Function.update_of_ne hix,
      Function.update_of_ne (hi' hadj.mem_left), Function.update_of_ne hix]
    exact h.out i hi.2
  case size =>
    simp only [Links.insert, h.size, hlen]
    norm_num

theorem Holds.unlink {w : Window} {us vs : List NodePtr} (h : l.Holds xs) (hcur : w.cur = .node x)
    (hframe : frame xs = us ++ w.prev :: w.cur :: w.next :: vs)
    (hframe' : frame ys = us ++ w.prev :: w.next :: vs) (hys : ys.Nodup)
    (hmem : ∀ i, i ∈ ys ↔ i ≠ x ∧ i ∈ xs) (hlen : xs.length = ys.length + 1) :
    (l.unlink w).Holds ys := by
  have hnd := frame_nodup h.nodup
  have hnd' := frame_nodup hys
  have hadj : Adj (frame ys) w.prev w.next := ⟨us, vs, hframe'⟩
  have hcur' : w.cur ∉ frame ys := by
    rw [hcur]
    exact fun hm => ((hmem x).mp (mem_frame hm)).1 rfl
  have hne : ∀ {a}, a ∈ frame ys → a ≠ w.cur := by
    rintro a ha rfl
    exact hcur' ha
  have hiff : ∀ a b, Adj (frame ys) a b ↔ (a = w.prev ∧ b = w.next) ∨
      (a ≠ w.prev ∧ a ≠ w.cur ∧ Adj (frame xs) a b) := by
    intro a b
    rw [hframe'] at *
    rw [hframe] at hnd ⊢
    exact adj_erase hnd
  constructor
  case nodup => exact hys
  case next =>
    intro a b hab
    simp only [Links.unlink]
    rcases (hiff a b).mp hab with ⟨rfl, rfl⟩ | ⟨ha, ha', hab'⟩
    · rw [Function.update_self]
    · rw [Function.update_of_ne ha, Function.update_of_ne ha', h.next a b hab']
  case prev =>
    intro a b hab
    simp only [Links.unlink]
    rcases (hiff a b).mp hab with ⟨rfl, rfl⟩ | ⟨ha, ha', hab'⟩
    · rw [Function.update_self]
    · have hb : b ≠ w.next := by
        rintro rfl
        exact ha (hab.unique_left hnd' hadj)
      rw [Function.update_of_ne hb, Function.update_of_ne (hne hab.mem_right), h.prev a b hab']
  case out =>
    intro i hi
    have hi' : ∀ {a}, a ∈ frame ys → NodePtr.node i ≠ a := by
      rintro a ha rfl
      exact hi (mem_frame ha)
    simp only [Links.unlink]
    rw [Function.update_of_ne (hi' hadj.mem_right), Function.update_of_ne (hi' hadj.mem_left)]
    by_cases hix : NodePtr.node i = w.cur
    · rw [hix, Function.update_self, Function.update_self]
      exact ⟨rfl, rfl⟩
    · rw [Function.update_of_ne hix, Function.update_of_ne hix]
      refine h.out i fun hxs => hi ((hmem i).mpr ⟨?_, hxs⟩)
      rintro rfl
      exact hix hcur.symm
  case size =>
    simp only [Links.unlink, h.size, hlen]
    norm_num

theorem finish_step {fuel : ℕ} {pc : Pc} {r : Links × Pc} (h : listStep l pc = some r) :
    finish (fuel + 1) l pc = finish fuel r.1 r.2 := by
  cases pc with
  | returned res => cases h
  | _ =>
    rw [finish, h, Option.bind_some]
    simp

theorem finish_insert {e : End} {w : Window} {other : NodePtr} (hfree : l.prev w.cur = none)
    (houter : e.outer l = some other) (hw : e.place w.cur other = w)
    (hprev : l.prev w.next = some w.prev) (hnext : l.next w.prev = some w.next)
    (hne : w.next ≠ w.cur) (hne' : w.prev ≠ w.cur) :
    finish 10 l (.checkPrev e w.cur) = some (l.insert w, .unit) := by
  simp [finish, listStep, hfree, houter, hw, hprev, setPrev, setNext, hnext,
    Function.update_of_ne hne, Function.update_of_ne hne', Links.insert]

theorem finish_unlink {c : Caller} {w : Window} (hprev : l.prev w.cur = some w.prev)
    (hnext : l.next w.cur = some w.next) (hprev' : l.prev w.next = some w.cur)
    (hnext' : l.next w.prev = some w.cur) (hne : w.next ≠ w.cur) (hne' : w.prev ≠ w.cur) :
    finish 8 l (.rs1 c w) = some (l.unlink w, c.result w.cur) := by
  simp [finish, listStep, hprev, hnext, hprev', hnext', setPrev, setNext,
    Function.update_of_ne hne, Function.update_of_ne hne', Links.unlink]

theorem exec_pushFront (h : l.Holds xs) (hx : x ∉ xs) :
    ∃ l', l.exec (.pushFront x) = some (l', .unit) ∧ l'.Holds (x :: xs) := by
  obtain ⟨n, vs, hvs⟩ : ∃ n vs, xs.map NodePtr.node ++ [.tail] = n :: vs := by
    cases xs with
    | nil => exact ⟨_, _, rfl⟩
    | cons y ys => exact ⟨_, _, rfl⟩
  have hframe : frame xs = [] ++ NodePtr.header :: n :: vs := by rw [frame, List.cons_append, hvs]; rfl
  have hframe' : frame (x :: xs) = [] ++ NodePtr.header :: .node x :: n :: vs := by
    rw [frame, List.map_cons, List.cons_append, List.cons_append, hvs]
    rfl
  have hadj : Adj (frame xs) .header n := ⟨[], vs, hframe⟩
  have hne : n ≠ .node x := by
    rintro rfl
    exact hx (mem_frame hadj.mem_right)
  let w : Window := ⟨.header, n, .node x⟩
  refine ⟨l.insert w, ?_, h.insert (w := w) rfl hframe hframe' hx
    (List.nodup_cons.mpr ⟨hx, h.nodup⟩) (fun i => List.mem_cons) rfl⟩
  exact finish_insert (w := w) (h.out x hx).1 (h.next .header n hadj) rfl (h.prev _ _ hadj)
    (h.next _ _ hadj) hne (by simp [w])

end Links

theorem frame_split (ys zs : List ℕ) (x : ℕ) :
    ∃ us p n vs, frame (ys ++ x :: zs) = us ++ p :: .node x :: n :: vs ∧
      frame (ys ++ zs) = us ++ p :: n :: vs := by
  obtain ⟨n, vs, hvs⟩ : ∃ n vs, zs.map NodePtr.node ++ [.tail] = n :: vs := by
    cases zs with
    | nil => exact ⟨_, _, rfl⟩
    | cons y ys => exact ⟨_, _, rfl⟩
  obtain ⟨us, p, hus⟩ : ∃ us p, NodePtr.header :: ys.map NodePtr.node = us ++ [p] := by
    rcases List.eq_nil_or_concat ys with rfl | ⟨init, y, rfl⟩
    · exact ⟨[], _, rfl⟩
    · exact ⟨.header :: init.map .node, .node y, by simp⟩
  refine ⟨us, p, n, vs, ?_, ?_⟩
  · rw [frame, List.map_append, List.map_cons, ← List.cons_append, hus]
    simp [hvs]
  · rw [frame, List.map_append, ← List.cons_append, hus]
    simp [hvs]

namespace Links

theorem exec_unlink (h : l.Holds (ys ++ x :: zs)) :
    ∃ w : Window, w.cur = .node x ∧ Adj (frame (ys ++ x :: zs)) w.prev (.node x) ∧
      Adj (frame (ys ++ x :: zs)) (.node x) w.next ∧ (l.unlink w).Holds (ys ++ zs) ∧
      ∀ c, finish 8 l (.rs1 c w) = some (l.unlink w, c.result (.node x)) := by
  obtain ⟨us, p, n, vs, hframe, hframe'⟩ := frame_split ys zs x
  have hp : Adj (frame (ys ++ x :: zs)) p (.node x) := ⟨us, n :: vs, hframe⟩
  have hn : Adj (frame (ys ++ x :: zs)) (.node x) n := ⟨us ++ [p], vs, by rw [hframe]; simp⟩
  have hnd := frame_nodup h.nodup
  have hsub : (ys ++ zs).Sublist (ys ++ x :: zs) := by simp
  have hx : x ∉ ys ++ zs := by
    have := h.nodup
    rw [List.nodup_append, List.nodup_cons] at this
    rw [List.mem_append]
    rintro (hx | hx)
    · exact this.2.2 x hx x (by simp) rfl
    · exact this.2.1.1 hx
  refine ⟨⟨p, n, .node x⟩, rfl, hp, hn, h.unlink (x := x) rfl hframe hframe' (h.nodup.sublist hsub)
    (fun i => ?_) (by simp; omega), fun c => ?_⟩
  · constructor
    · intro hi
      refine ⟨?_, hsub.mem hi⟩
      rintro rfl
      exact hx hi
    · rintro ⟨hne, hi⟩
      rw [List.mem_append, List.mem_cons] at hi
      rw [List.mem_append]
      tauto
  · exact finish_unlink (h.prev _ _ hp) (h.next _ _ hn) (h.prev _ _ hn) (h.next _ _ hp)
      (hn.ne hnd).symm (hp.ne hnd)

theorem exec_remove (h : l.Holds (ys ++ x :: zs)) :
    ∃ l', l.exec (.remove x) = some (l', .removed true) ∧ l'.Holds (ys ++ zs) := by
  obtain ⟨⟨p, n, cur⟩, rfl, hp, hn, hholds, hfin⟩ := exec_unlink h
  refine ⟨_, ?_, hholds⟩
  have h₁ : listStep l (.loadPrev (.node x)) = some (l, .loadNext (.node x) (some p)) := by
    rw [listStep, h.prev _ _ hp]
  have h₂ : listStep l (.loadNext (.node x) (some p)) =
      some (l, .rs1 .remove ⟨p, n, .node x⟩) := by
    simp only [listStep, h.next _ _ hn]
  exact (finish_step h₁).trans ((finish_step h₂).trans (hfin .remove))

theorem exec_remove_absent (h : l.Holds xs) (hx : x ∉ xs) :
    l.exec (.remove x) = some (l, .removed false) := by
  have hprev := (h.out x hx).1
  simp [exec, Op.start, finish, listStep, hprev]

theorem exec_popBack_nil (h : l.Holds []) : l.exec .popBack = some (l, .popped none) := by
  have hprev := h.prev .header .tail ⟨[], [], rfl⟩
  simp [exec, Op.start, finish, listStep, End.outer, End.other, hprev]

theorem exec_popBack (h : l.Holds (ys ++ [x])) :
    ∃ l', l.exec .popBack = some (l', .popped (some (.node x))) ∧ l'.Holds ys := by
  obtain ⟨⟨p, n, cur⟩, rfl, hp, hn, hholds, hfin⟩ := exec_unlink h
  rw [List.append_nil] at hholds
  refine ⟨_, ?_, hholds⟩
  have hnd := frame_nodup h.nodup
  have htail : Adj (frame (ys ++ [x])) (.node x) .tail :=
    ⟨.header :: ys.map .node, [], by simp [frame]⟩
  obtain rfl := hn.unique_right hnd htail
  have h₁ : listStep l (.loadCur .back) = some (l, .loadSide .back (.node x)) := by
    simp only [listStep, End.outer, h.prev _ _ htail, Option.map_some, End.other, reduceCtorEq,
      if_false]
  have h₂ : listStep l (.loadSide .back (.node x)) =
      some (l, .rs1 (.pop .back) ⟨p, .tail, .node x⟩) := by
    simp only [listStep, End.inner, h.prev _ _ hp, End.window]
  exact (finish_step h₁).trans ((finish_step h₂).trans (hfin (.pop .back)))

end Links

end SofaBolt.IntrusiveList
