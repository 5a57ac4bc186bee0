import SofaBolt.IntrusiveList
import SofaBolt.LaggingLinks

namespace SofaBolt.IntrusiveList

open Adjacent LaggingLinks Run

inductive Role where
  | other
  /-- The links of `cur`, which is not in the list yet. -/
  | entering (cur : NodePtr) (prev next : Option NodePtr)
  /-- `cur` is in the list, and `next` does not know. -/
  | inserted (w : Window)
  | counting
  | prevCut (w : Window)
  | bothCut (w : Window)
  | nextCut (w : Window)
  /-- `cur` is out of the list, and `next` does not know. -/
  | leaving (w : Window)
  | left (cur : NodePtr)
deriving DecidableEq

def Pc.role : Pc → Role
  | .checkPrev _ cur | .loadEnd _ cur => .entering cur none none
  | .is1 _ w | .linkPrev _ w => .entering w.cur none none
  | .linkNext _ w | .undoPrev _ w => .entering w.cur (some w.prev) none
  | .is2 _ w | .undoNext _ w => .entering w.cur (some w.prev) (some w.next)
  | .is3 w => .inserted w
  | .addSize => .counting
  | .rs4 _ w | .undo4 _ w => .prevCut w
  | .rs5 _ w | .undo5Prev _ w => .bothCut w
  | .undo5Next _ w => .nextCut w
  | .rs6 _ w => .leaving w
  | .subSize _ cur => .left cur
  | _ => .other

namespace Role

def cutNext : Role → Option (NodePtr × NodePtr)
  | .bothCut w | .nextCut w => some (w.cur, w.next)
  | _ => none

def cutPrev : Role → Option (NodePtr × NodePtr)
  | .prevCut w | .bothCut w => some (w.cur, w.prev)
  | _ => none

/-- A `prev` that is still to be changed, with the value it has to have and the new one. -/
def pending : Role → Option (NodePtr × NodePtr × NodePtr)
  | .inserted w => some (w.next, w.prev, w.cur)
  | .leaving w => some (w.next, w.cur, w.prev)
  | _ => none

def entry : Role → Option (NodePtr × Option NodePtr × Option NodePtr)
  | .entering cur prev next => some (cur, prev, next)
  | _ => none

def insertion : Role → Option Window
  | .inserted w => some w
  | _ => none

def fresh : Role → Option NodePtr
  | .entering cur _ _ => some cur
  | .inserted w => some w.cur
  | _ => none

def enters (x : NodePtr) : Role → Bool
  | .entering cur _ _ => decide (cur = x)
  | _ => false

def leaves (x : NodePtr) : Role → Bool
  | .leaving w => decide (w.cur = x)
  | .left cur => decide (cur = x)
  | _ => false

def uncounted : Role → Bool
  | .inserted _ | .counting => true
  | _ => false

def counted : Role → Bool
  | .leaving _ | .left _ => true
  | _ => false

def awayAfter (away : NodePtr → Bool) : Role → NodePtr → Bool
  | .left cur => Function.update away cur true
  | _ => away

def linkedAfter (linked : NodePtr → Bool) : Role → NodePtr → Bool
  | .inserted w => Function.update linked w.cur true
  | .leaving w => Function.update linked w.cur false
  | _ => linked

end Role

def Pc.cutNext (pc : Pc) := pc.role.cutNext

def Pc.cutPrev (pc : Pc) := pc.role.cutPrev

def Pc.pending (pc : Pc) := pc.role.pending

def Pc.entry (pc : Pc) := pc.role.entry

def Pc.insertion (pc : Pc) := pc.role.insertion

def Pc.fresh (pc : Pc) := pc.role.fresh

def Pc.enters (x : NodePtr) (pc : Pc) := pc.role.enters x

def Pc.leaves (x : NodePtr) (pc : Pc) := pc.role.leaves x

def Pc.uncounted (pc : Pc) := pc.role.uncounted

def Pc.counted (pc : Pc) := pc.role.counted

def Pc.cur : Pc → Option NodePtr
  | .checkPrev _ cur | .loadEnd _ cur | .loadSide _ cur | .loadPrev cur | .loadNext cur _
  | .subSize _ cur => some cur
  | .is1 _ w | .linkPrev _ w | .linkNext _ w | .is2 _ w | .undoNext _ w | .undoPrev _ w | .is3 w
  | .rs1 _ w | .rs2 _ w | .rs3 _ w | .rs4 _ w | .undo4 _ w | .rs5 _ w | .undo5Prev _ w
  | .undo5Next _ w | .rs6 _ w => some w.cur
  | _ => none

def Pc.quiet : Pc → Bool
  | .idle | .returned _ => true
  | _ => false

def Op.pushed : Op → Option ℕ
  | .pushFront i | .pushBack i => some i
  | _ => none

/-- The links, the threads, the nodes that may be pushed, and the nodes between the CAS of
IS2 and that of RS5. -/
structure State where
  links : Links
  threads : List Pc
  away : NodePtr → Bool
  linked : NodePtr → Bool

inductive Act where
  | start (t : ℕ) (op : Op)
  | access (t : ℕ)
deriving DecidableEq, Repr

namespace State

def init (n : ℕ) : State where
  links := .empty
  threads := List.replicate n .idle
  away _ := true
  linked _ := false

def start (s : State) (t : ℕ) (op : Op) : Option State :=
  match op.pushed with
  | none => some { s with threads := s.threads.set t op.start }
  | some i =>
    if s.away (.node i) then
      some { s with
        threads := s.threads.set t op.start
        away := Function.update s.away (.node i) false }
    else none

/-- The thread has gone from `pc` to `pc'` by an access that leaves the links `l`. -/
def moved (s : State) (t : ℕ) (pc : Pc) (l : Links) (pc' : Pc) : State where
  links := l
  threads := s.threads.set t pc'
  away := pc.role.awayAfter s.away
  linked := pc'.role.linkedAfter s.linked

def step (s : State) : Act → Option State
  | .start t op => (s.threads[t]?).bind fun pc => if pc.quiet then s.start t op else none
  | .access t => (s.threads[t]?).bind fun pc =>
    (listStep s.links pc).map fun r => s.moved t pc r.1 r.2

end State

/-- The nodes an operation expects to be the ones it has seen: the `prev` it has loaded, and
from RS2 on the node that it takes out. -/
def Pc.holds : Pc → List NodePtr
  | .is1 _ w | .linkPrev _ w | .linkNext _ w | .is2 _ w | .undoNext _ w | .undoPrev _ w
  | .is3 w | .rs1 _ w => [w.prev]
  | .loadNext _ prev => prev.toList
  | .rs2 _ w | .rs3 _ w | .rs4 _ w | .undo4 _ w | .rs5 _ w | .undo5Prev _ w | .undo5Next _ w
  | .rs6 _ w => [w.prev, w.cur]
  | _ => []

/-- No node is pushed that an operation in progress holds. -/
def Reusable (s : State) : Act → Prop
  | .start _ op => ∀ i ∈ op.pushed, ∀ u ∈ s.threads, .node i ∉ u.holds
  | .access _ => True

instance decidableReusable (s : State) : (a : Act) → Decidable (Reusable s a)
  | .start _ op => inferInstanceAs (Decidable (∀ i ∈ op.pushed, ∀ u ∈ s.threads,
      NodePtr.node i ∉ u.holds))
  | .access _ => isTrue trivial

variable {l : Links} {ts : List Pc} {xs : List ℕ} {trail : NodePtr → List NodePtr}
  {a b p n v y : NodePtr} {x k : ℕ} {w : Window} {pc pc' : Pc} {i : ℕ}

theorem mem_frame_iff : a ∈ frame xs ↔ a = .header ∨ a = .tail ∨ ∃ i ∈ xs, a = .node i := by
  simp only [frame, List.mem_append, List.mem_cons, List.mem_map, List.not_mem_nil, or_false,
    eq_comm (a := a)]
  rw [or_right_comm, or_assoc]

theorem exists_next (ha : a ∈ frame xs) (hne : a ≠ .tail) : ∃ b, Adj (frame xs) a b := by
  rw [frame, List.mem_append, List.mem_singleton] at ha
  exact exists_adj_of_mem_append (ha.resolve_right hne)

theorem exists_prev (hb : b ∈ frame xs) (hne : b ≠ .header) : ∃ a, Adj (frame xs) a b := by
  rw [frame, List.cons_append, List.mem_cons] at hb
  exact exists_adj_of_mem_cons (hb.resolve_left hne)

theorem ne_header_of_adj (h : Adj (frame xs) a b) : b ≠ .header := by
  rintro rfl
  have := Adj.mem_tail (show Adj (.header :: (xs.map .node ++ [.tail])) a .header from h)
  simp at this

theorem ne_tail_of_adj (hn : xs.Nodup) (h : Adj (frame xs) a b) : a ≠ .tail := by
  rintro rfl
  exact not_adj_last (frame_nodup hn) List.getLast?_concat h

theorem frame_insert (hn : xs.Nodup) (hx : x ∉ xs) (hpn : Adj (frame xs) p n) :
    ∃ ys : List ℕ, ys.Nodup ∧ (∀ i, i ∈ ys ↔ i = x ∨ i ∈ xs) ∧ ys.length = xs.length + 1 ∧
      ∀ a b, Adj (frame ys) a b ↔
        (a = p ∧ b = .node x) ∨ (a = .node x ∧ b = n) ∨ (a ≠ p ∧ Adj (frame xs) a b) := by
  obtain ⟨us, vs, hframe⟩ := hpn
  have hlen : us.length ≤ xs.length := by
    have := congrArg List.length hframe
    simp [frame] at this
    omega
  obtain ⟨hus, hvs⟩ : .header :: (xs.take us.length).map .node = us ++ [p] ∧
      (xs.drop us.length).map .node ++ [.tail] = n :: vs := by
    refine List.append_inj ?_ (by simp [hlen])
    rw [← List.append_assoc, List.cons_append, ← List.map_append, List.take_append_drop,
      List.append_assoc, List.singleton_append]
    exact hframe
  refine ⟨xs.take us.length ++ x :: xs.drop us.length, ?_, fun i => ?_, ?_, fun a b => ?_⟩
  · rw [List.nodup_middle, List.take_append_drop, List.nodup_cons]
    exact ⟨hx, hn⟩
  · rw [List.mem_append, List.mem_cons, or_left_comm, ← List.mem_append, List.take_append_drop]
  · simp
    omega
  · have hys : frame (xs.take us.length ++ x :: xs.drop us.length) =
        us ++ p :: .node x :: n :: vs := by
      rw [frame, List.map_append, List.map_cons, ← List.cons_append, hus, List.append_assoc,
        List.cons_append, hvs, List.append_assoc, List.singleton_append]
    have hnd := frame_nodup hn
    rw [hys, hframe]
    rw [hframe] at hnd
    exact adj_insert hnd

theorem frame_erase (hn : xs.Nodup) (hpx : Adj (frame xs) p (.node x))
    (hxn : Adj (frame xs) (.node x) n) :
    ∃ ys : List ℕ, ys.Nodup ∧ (∀ i, i ∈ ys ↔ i ≠ x ∧ i ∈ xs) ∧ xs.length = ys.length + 1 ∧
      ∀ a b, Adj (frame ys) a b ↔
        (a = p ∧ b = n) ∨ (a ≠ p ∧ a ≠ .node x ∧ Adj (frame xs) a b) := by
  have hnd := frame_nodup hn
  obtain ⟨ys, zs, rfl⟩ := List.append_of_mem (mem_frame hpx.mem_right)
  obtain ⟨us, p', n', vs, hframe, hframe'⟩ := frame_split ys zs x
  obtain rfl : p' = p := Adj.unique_left hnd ⟨us, n' :: vs, hframe⟩ hpx
  obtain rfl : n' = n := Adj.unique_right hnd ⟨us ++ [p'], vs, by rw [hframe]; simp⟩ hxn
  rw [List.nodup_middle, List.nodup_cons] at hn
  refine ⟨ys ++ zs, hn.2, fun i => ?_, by simp; omega, fun a b => ?_⟩
  · rw [List.mem_append, List.mem_append, List.mem_cons, or_left_comm, ← List.mem_append]
    constructor
    · intro hi
      refine ⟨?_, Or.inr hi⟩
      rintro rfl
      exact hn.1 hi
    · rintro ⟨hne, hi⟩
      exact hi.resolve_left hne
  · rw [hframe] at hnd ⊢
    rw [hframe']
    exact adj_erase hnd

end SofaBolt.IntrusiveList
