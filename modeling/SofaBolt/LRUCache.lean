import SofaBolt.ConcurrentHashMap
import SofaBolt.IntrusiveList
import SofaBolt.Run

/- Nodes are numbers, the addresses `new` gives; `cells` is what is stored there, `none` after
`delete`. A walk through a chain may take one link more than there are elements, and an
eviction one node more than the list has. A call that has no result, since it runs out,
waits for a lock it holds itself or uses a deleted node, is `none`. One access to a deleted
node is made by every successful `erase`: it reads `used_mem` behind `delete`. What that
read gives is left open; `freed` is an arbitrary function of the node. -/

namespace SofaBolt

open Chain IntrusiveList Run

structure LRUNode (K V : Type*) where
  key : K
  value : V
  usedMem : ℕ
deriving DecidableEq, Repr

structure LRUCache (K V : Type*) where
  bucketSize : ℕ
  buckets : Link ℕ ℕ → Option ℕ
  elementSize : ℕ
  cells : ℕ → Option (LRUNode K V)
  nextId : ℕ
  list : Links
  memSize : ℕ
  memSizeUsed : ℕ
  hitQueryTimes : ℕ
  totalQueryTimes : ℕ

/-- `fetch_add` and `fetch_sub` on a `size_t`. -/
def wrapAdd (a b : ℕ) : ℕ := (a + b) % 2 ^ 64

def wrapSub (a b : ℕ) : ℕ := (a + (2 ^ 64 - b % 2 ^ 64)) % 2 ^ 64

namespace LRUCache

variable {K V : Type*}

def init (bucketHint maxMemBytes : ℕ) : LRUCache K V where
  bucketSize := nextBucketNum bucketHint
  buckets _ := none
  elementSize := 0
  cells _ := none
  nextId := 0
  list := Links.empty
  memSize := maxMemBytes
  memSizeUsed := 0
  hitQueryTimes := 0
  totalQueryTimes := 0

def key (c : LRUCache K V) (p : ℕ) : Option K := (c.cells p).map LRUNode.key

def newNode (c : LRUCache K V) (n : LRUNode K V) : LRUCache K V :=
  { c with
    buckets := Function.update c.buckets (.next c.nextId) none
    cells := Function.update c.cells c.nextId (some n)
    nextId := c.nextId + 1
    list := (c.list.setPrev (.node c.nextId) none).setNext (.node c.nextId) none }

def delete (c : LRUCache K V) (p : ℕ) : LRUCache K V :=
  { c with cells := Function.update c.cells p none }

def listOp (c : LRUCache K V) (op : IntrusiveList.Op) :
    Option (LRUCache K V × Result) :=
  (c.list.exec op).map fun r => ({ c with list := r.1 }, r.2)

def listRemove (c : LRUCache K V) (p : ℕ) : Option (LRUCache K V × Bool) :=
  (c.cells p).bind fun _ => (c.listOp (.remove p)).map fun r => (r.1, r.2 == .removed true)

def pushFront (c : LRUCache K V) (p : ℕ) : Option (LRUCache K V) :=
  (c.listOp (.pushFront p)).map Prod.fst

variable [DecidableEq K] (hash : K → ℕ) (freed : ℕ → ℕ)

def getBucketIdx (c : LRUCache K V) (k : K) : ℕ := bucketIdx hash c.bucketSize k

def findEntry (c : LRUCache K V) (k : K) : Option (Link ℕ ℕ) :=
  find c.buckets c.key k (c.elementSize + 1) (.head (c.getBucketIdx hash k))

def unlinkEntry (c : LRUCache K V) (p : Link ℕ ℕ) (q : ℕ) : LRUCache K V :=
  { c with
    buckets := Function.update c.buckets p (c.buckets (.next q))
    elementSize := c.elementSize - 1 }

def eraseNolock (c : LRUCache K V) (k : K) : Option (LRUCache K V) :=
  (c.findEntry hash k).map fun p =>
    match c.buckets p with
    | some q => c.unlinkEntry p q
    | none => c

def subMem (c : LRUCache K V) (mem : ℕ) : LRUCache K V :=
  { c with memSizeUsed := wrapSub c.memSizeUsed mem }

def erasePostprocess (c : LRUCache K V) (q : ℕ) : Option (LRUCache K V) :=
  (c.listRemove q).bind fun r =>
    if r.2 then some ((r.1.delete q).subMem (freed q))
    else (r.1.cells q).map fun n => r.1.subMem n.usedMem

/-- `intrusive_erase`, while the lock of the bucket `held` is held. -/
def intrusiveErase (c : LRUCache K V) (held : Option ℕ) (k : K) : Option (LRUCache K V) :=
  if held = some (c.getBucketIdx hash k) then none
  else (c.findEntry hash k).bind fun p =>
    match c.buckets p with
    | some q => (c.unlinkEntry p q).erasePostprocess freed q
    | none => some c

def erase (c : LRUCache K V) (k : K) : Option (LRUCache K V) := c.intrusiveErase hash freed none k

/-- The body of the loop of `release_nodes` for the node `p` it has popped. -/
def releaseNode (c : LRUCache K V) (lockedKey : K) (p : ℕ) : Option (LRUCache K V) :=
  (c.cells p).bind fun n =>
    if c.getBucketIdx hash lockedKey = c.getBucketIdx hash n.key then
      (c.eraseNolock hash n.key).map fun c => (c.subMem n.usedMem).delete p
    else
      (c.intrusiveErase hash freed (some (c.getBucketIdx hash lockedKey)) n.key).bind fun c =>
        (c.listRemove p).map fun r => r.1.delete p

def releaseNodes (lockedKey : K) : ℕ → LRUCache K V → ℕ → Option (LRUCache K V)
  | 0, _, _ => none
  | fuel + 1, c, mem =>
    if mem = 0 then some c
    else (c.listOp .popBack).bind fun r =>
      match r.2 with
      | .popped (some (.node p)) => (r.1.cells p).bind fun n =>
        (r.1.releaseNode hash freed lockedKey p).bind fun c =>
          releaseNodes lockedKey fuel c (wrapSub mem n.usedMem)
      | _ => some r.1

def release (c : LRUCache K V) (mem : ℕ) (lockedKey : K) : Option (LRUCache K V) :=
  releaseNodes hash freed lockedKey (c.list.size.toNat + 1) c mem

def get (c : LRUCache K V) (k : K) : Option (Option V × LRUCache K V) :=
  let c := { c with totalQueryTimes := c.totalQueryTimes + 1 }
  (c.findEntry hash k).bind fun p =>
    match c.buckets p with
    | none => some (none, c)
    | some q =>
      let c := { c with hitQueryTimes := c.hitQueryTimes + 1 }
      (c.listRemove q).bind fun r =>
        (if r.2 then r.1.pushFront q else some r.1).bind fun c =>
          (c.cells q).map fun n => (some n.value, c)

def putPostprocess (c : LRUCache K V) (n : LRUNode K V) : Option (LRUCache K V) :=
  (if c.memSize < wrapAdd n.usedMem c.memSizeUsed then c.release hash freed n.usedMem n.key
    else some c).map fun c => { c with memSizeUsed := wrapAdd c.memSizeUsed n.usedMem }

def linkEntry (c : LRUCache K V) (p : Link ℕ ℕ) (q : ℕ) : LRUCache K V :=
  { c with
    buckets := Function.update c.buckets p (some q)
    elementSize := c.elementSize + 1 }

def put (c : LRUCache K V) (k : K) (mem : ℕ) (val : V) : Option (Bool × LRUCache K V) :=
  let q := c.nextId
  let c := c.newNode ⟨k, val, mem⟩
  if c.memSize < mem then some (false, c.delete q)
  else (c.findEntry hash k).bind fun p =>
    match c.buckets p with
    | some _ => some (false, c.delete q)
    | none => ((c.linkEntry p q).putPostprocess hash freed ⟨k, val, mem⟩).bind fun c =>
      (c.pushFront q).map fun c => (true, c)

def exchangePostprocess (c : LRUCache K V) (n : LRUNode K V) (mem : ℕ) : Option (LRUCache K V) :=
  let c := { c with memSizeUsed := wrapAdd c.memSizeUsed mem }
  if c.memSize < c.memSizeUsed then c.release hash freed (c.memSizeUsed - c.memSize) n.key
  else some c

/-- `*p = val` for a node that is there: the new node takes its place, and does not get
its `hash_next`. -/
def replaceEntry (c : LRUCache K V) (p : Link ℕ ℕ) (q : ℕ) : LRUCache K V :=
  { c with buckets := Function.update c.buckets p (some q) }

def exchange (c : LRUCache K V) (k : K) (mem : ℕ) (val : V) : Option (Bool × LRUCache K V) :=
  let q := c.nextId
  let c := c.newNode ⟨k, val, mem⟩
  (c.findEntry hash k).bind fun p =>
    match c.buckets p with
    | some ori => (c.cells ori).bind fun n =>
      ((c.replaceEntry p q).exchangePostprocess hash freed ⟨k, val, mem⟩
          (wrapSub mem n.usedMem)).bind fun c =>
        (c.listRemove ori).bind fun r =>
          ((if r.2 then r.1.delete ori else r.1).pushFront q).map fun c => (true, c)
    | none =>
      ((c.linkEntry p q).exchangePostprocess hash freed ⟨k, val, mem⟩ mem).bind fun c =>
        (c.pushFront q).map fun c => (false, c)

inductive Call (K V : Type*) where
  | get (k : K)
  | put (k : K) (mem : ℕ) (val : V)
  | erase (k : K)
  | exchange (k : K) (mem : ℕ) (val : V)

inductive Answer (V : Type*) where
  | found (val : Option V)
  | bool (ret : Bool)
  | unit
deriving DecidableEq

def call (c : LRUCache K V) : Call K V → Option (Answer V × LRUCache K V)
  | .get k => (c.get hash k).map fun r => (.found r.1, r.2)
  | .put k mem val => (c.put hash freed k mem val).map fun r => (.bool r.1, r.2)
  | .erase k => (c.erase hash freed k).map fun c => (.unit, c)
  | .exchange k mem val => (c.exchange hash freed k mem val).map fun r => (.bool r.1, r.2)

def calls (c : LRUCache K V) : List (Call K V) → Option (List (Answer V) × LRUCache K V)
  | [] => some ([], c)
  | a :: as => (c.call hash freed a).bind fun r => (calls r.2 as).map fun rs => (r.1 :: rs.1, rs.2)

end LRUCache

end SofaBolt
