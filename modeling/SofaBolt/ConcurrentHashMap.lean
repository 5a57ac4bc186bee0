import SofaBolt.Chain

/- A node is a number, the address `new` has given it; `cells` is what is stored there, `none`
if the node has not been made or has been deleted. The loops of the source have no bound;
the walks here may take as many links as there are elements and one more, and run out if a
chain is longer. Locks are taken and released within each call, so that they are always free
here. -/

namespace SofaBolt

open Chain

def primes : List ℕ :=
  [2, 3, 5, 7, 11, 13, 17, 19, 23, 29, 31, 37, 41, 43, 47, 53, 59, 61, 67, 71, 73, 79, 83, 89,
    97, 103, 109, 113, 127, 137, 139, 149, 157, 167, 179, 193, 199, 211, 227, 241, 257, 277, 293,
    313, 337, 359, 383, 409, 439, 467, 503, 541, 577, 619, 661, 709, 761, 823, 887, 953, 1031,
    1109, 1193, 1289, 1381, 1493, 1613, 1741, 1879, 2029, 2179, 2357, 2549, 2753, 2971, 3209,
    3469, 3739, 4027, 4349, 4703, 5087, 5503, 5953, 6427, 6949, 7517, 8123, 8783, 9497, 10273,
    11113, 12011, 12983, 14033, 15173, 16411, 17749, 19183, 20753, 22447, 24281, 26267, 28411,
    30727, 33223, 35933, 38873, 42043, 45481, 49201, 53201, 57557, 62233, 67307, 72817, 78779,
    85229, 92203, 99733, 107897, 116731, 126271, 136607, 147793, 159871, 172933, 187091, 202409,
    218971, 236897, 256279, 277261, 299951, 324503, 351061, 379787, 410857, 444487, 480881,
    520241, 562841, 608903, 658753, 712697, 771049, 834181, 902483, 976369, 1056323, 1142821,
    1236397, 1337629, 1447153, 1565659, 1693859, 1832561, 1982627, 2144977, 2320627, 2510653,
    2716249, 2938679, 3179303, 3439651, 3721303, 4026031, 4355707, 4712381, 5098259, 5515729,
    5967347, 6456007, 6984629, 7556579, 8175383, 8844859, 9569143, 10352717, 11200489, 12117689,
    13109983, 14183539, 15345007, 16601593, 17961079, 19431899, 21023161, 22744717, 24607243,
    26622317, 28802401, 31160981, 33712729, 36473443, 39460231, 42691603, 46187573, 49969847,
    54061849, 58488943, 63278561, 68460391, 74066549, 80131819, 86693767, 93793069, 101473717,
    109783337, 118773397, 128499677, 139022417, 150406843, 162723577, 176048909, 190465427,
    206062531, 222936881, 241193053, 260944219, 282312799, 305431229, 330442829, 357502601,
    386778277, 418451333, 452718089, 489790921, 529899637, 573292817, 620239453, 671030513,
    725980837, 785430967, 849749479, 919334987, 994618837, 1076067617, 1164186217, 1259520799,
    1362662261, 1474249943, 1594975441, 1725587117, 1866894511, 2019773507, 2185171673,
    2364114217, 2557710269, 2767159799, 2993761039, 3238918481, 3504151727, 3791104843,
    4101556399, 4294967291]

/-- `std::lower_bound` over all but the last entry, which is what is left otherwise. -/
def nextBucketNum (n : ℕ) : ℕ :=
  (primes.dropLast.find? (n ≤ ·)).getD 4294967291

theorem nextBucketNum_pos (n : ℕ) : 0 < nextBucketNum n := by
  have hpos : ∀ q ∈ primes, 0 < q := by decide +kernel
  rw [nextBucketNum]
  cases h : primes.dropLast.find? (n ≤ ·) with
  | none => decide
  | some q => exact hpos q (List.dropLast_subset _ (List.mem_of_find?_eq_some h))

/-- `_hasher(key) % _bucket_size`. -/
def bucketIdx {K : Type*} (hash : K → ℕ) (bucketSize : ℕ) (key : K) : ℕ := hash key % bucketSize

section Buckets

variable {K : Type*} {hash : K → ℕ} {n : ℕ} {links links' : Link ℕ ℕ → Option ℕ}
  {key key' : ℕ → Option K} {ids : Finset ℕ} {chain : ℕ → List ℕ} {k : K} {p q : ℕ}

/-- The nodes `ids` have different keys, and the chain of a bucket has those with a key
of that bucket, each once. -/
structure Buckets (hash : K → ℕ) (n : ℕ) (links : Link ℕ ℕ → Option ℕ) (key : ℕ → Option K)
    (ids : Finset ℕ) (chain : ℕ → List ℕ) : Prop where
  chains : ∀ b, IsChain links (.head b) (chain b)
  nodup : ∀ b, (chain b).Nodup
  mem : ∀ b p, p ∈ chain b ↔ p ∈ ids ∧ ∃ k, key p = some k ∧ bucketIdx hash n k = b
  keyed : ∀ p ∈ ids, ∃ k, key p = some k
  inj : ∀ p ∈ ids, ∀ q ∈ ids, key p = key q → p = q

namespace Buckets

theorem empty (hash : K → ℕ) (n : ℕ) (key : ℕ → Option K) :
    Buckets hash n (fun _ => none) key ∅ fun _ => [] where
  chains b := rfl
  nodup b := List.nodup_nil
  mem b p := by simp
  keyed p hp := by simp at hp
  inj p hp := by simp at hp

theorem congr (h : Buckets hash n links key ids chain)
    (hhead : ∀ b, links' (.head b) = links (.head b))
    (hnext : ∀ p ∈ ids, links' (.next p) = links (.next p))
    (hkey : ∀ p ∈ ids, key' p = key p) : Buckets hash n links' key' ids chain where
  chains b := (h.chains b).congr (hhead b) fun p hp => hnext p ((h.mem b p).mp hp).1
  nodup := h.nodup
  mem b p := by
    rw [h.mem]
    refine and_congr_right fun hp => ?_
    rw [hkey p hp]
  keyed p hp := by
    rw [hkey p hp]
    exact h.keyed p hp
  inj p hp q hq hpq := by
    rw [hkey p hp, hkey q hq] at hpq
    exact h.inj p hp q hq hpq

theorem length_le (h : Buckets hash n links key ids chain) (b : ℕ) :
    (chain b).length ≤ ids.card := by
  rw [← List.toFinset_card_of_nodup (h.nodup b)]
  refine Finset.card_le_card fun p hp => ?_
  exact ((h.mem b p).mp (List.mem_toFinset.mp hp)).1

theorem other_key (h : Buckets hash n links key ids chain) (hk : ∀ p ∈ ids, key p ≠ some k)
    {b : ℕ} : ∀ p ∈ chain b, ∃ k', key p = some k' ∧ k' ≠ k := by
  intro p hp
  obtain ⟨hid, k', hk', -⟩ := (h.mem b p).mp hp
  refine ⟨k', hk', ?_⟩
  rintro rfl
  exact hk p hid hk'

theorem disjoint (h : Buckets hash n links key ids chain) {b c : ℕ} (hbc : b ≠ c) :
    ∀ p ∈ chain b, p ∉ chain c := by
  intro p hb hc
  obtain ⟨-, k, hk, rfl⟩ := (h.mem b p).mp hb
  obtain ⟨-, k', hk', rfl⟩ := (h.mem c p).mp hc
  rw [hk] at hk'
  exact hbc (congrArg _ (Option.some.inj hk'))

/-- The walk for a key that is not there ends at an empty link. -/
theorem find_absent [DecidableEq K] (h : Buckets hash n links key ids chain)
    (hk : ∀ p ∈ ids, key p ≠ some k) (b : ℕ) :
    find links key k (ids.card + 1) (.head b) = some (endLink (.head b) (chain b)) ∧
      links (endLink (.head b) (chain b)) = none :=
  Chain.find_absent (h.chains b) (h.other_key hk) (Nat.lt_succ_of_le (h.length_le b))

theorem split (h : Buckets hash n links key ids chain) (hp : p ∈ ids) (hk : key p = some k) :
    ∃ as bs, chain (bucketIdx hash n k) = as ++ p :: bs :=
  List.append_of_mem ((h.mem _ p).mpr ⟨hp, k, hk, rfl⟩)

/-- The walk for the key of a node ends at the link that holds it. -/
theorem find_present [DecidableEq K] (h : Buckets hash n links key ids chain)
    (hk : key p = some k) {as bs : List ℕ}
    (hsplit : chain (bucketIdx hash n k) = as ++ p :: bs) :
    find links key k (ids.card + 1) (.head (bucketIdx hash n k)) =
        some (endLink (.head (bucketIdx hash n k)) as) ∧
      links (endLink (.head (bucketIdx hash n k)) as) = some p := by
  have hch := h.chains (bucketIdx hash n k)
  have hnd := h.nodup (bucketIdx hash n k)
  have hlen := h.length_le (bucketIdx hash n k)
  have hmem : ∀ q ∈ as ++ p :: bs, q ∈ ids := fun q hq => ((h.mem _ q).mp (hsplit ▸ hq)).1
  rw [hsplit] at hch hnd hlen
  refine Chain.find_present hch (fun a ha => ?_) hk ?_
  · obtain ⟨k', hk'⟩ := h.keyed a (hmem a (by simp [ha]))
    refine ⟨k', hk', ?_⟩
    rintro rfl
    have hap := h.inj a (hmem a (by simp [ha])) p (hmem p (by simp)) (hk'.trans hk.symm)
    rw [List.nodup_append] at hnd
    exact hnd.2.2 a ha p (by simp) hap
  · simp only [List.length_append, List.length_cons] at hlen
    omega

theorem put (h : Buckets hash n links key ids chain) (hk : ∀ p ∈ ids, key p ≠ some k)
    (hq : q ∉ ids) (hqk : key q = some k) (hend : links (.next q) = none) :
    Buckets hash n
      (Function.update links
        (endLink (.head (bucketIdx hash n k)) (chain (bucketIdx hash n k))) (some q))
      key (insert q ids)
      (Function.update chain (bucketIdx hash n k) (chain (bucketIdx hash n k) ++ [q])) := by
  have hnew : ∀ b, q ∉ chain b := fun b hb => hq ((h.mem b q).mp hb).1
  constructor
  case chains =>
    intro b
    by_cases hb : b = bucketIdx hash n k
    · subst hb
      rw [Function.update_self]
      have hch := h.chains (bucketIdx hash n k)
      rw [← List.append_nil (chain _)] at hch
      exact hch.put (h.nodup _) (hnew _) hend
    · rw [Function.update_of_ne hb]
      exact (h.chains b).update_other hb (h.disjoint hb)
  case nodup =>
    intro b
    by_cases hb : b = bucketIdx hash n k
    · subst hb
      rw [Function.update_self, List.nodup_append]
      refine ⟨h.nodup _, List.nodup_singleton q, fun a ha b hb => ?_⟩
      rw [List.mem_singleton.mp hb]
      rintro rfl
      exact hnew _ ha
    · rw [Function.update_of_ne hb]
      exact h.nodup b
  case mem =>
    intro b p
    by_cases hb : b = bucketIdx hash n k
    · subst hb
      rw [Function.update_self, List.mem_append, h.mem, List.mem_singleton, Finset.mem_insert]
      constructor
      · rintro (⟨hp, hk'⟩ | rfl)
        · exact ⟨Or.inr hp, hk'⟩
        · exact ⟨Or.inl rfl, k, hqk, rfl⟩
      · rintro ⟨rfl | hp, hk'⟩
        · exact Or.inr rfl
        · exact Or.inl ⟨hp, hk'⟩
    · rw [Function.update_of_ne hb, h.mem, Finset.mem_insert]
      constructor
      · rintro ⟨hp, hk'⟩
        exact ⟨Or.inr hp, hk'⟩
      · rintro ⟨rfl | hp, k', hk', hb'⟩
        · obtain rfl := Option.some.inj (hqk.symm.trans hk')
          exact absurd hb'.symm hb
        · exact ⟨hp, k', hk', hb'⟩
  case keyed =>
    intro p hp
    rcases Finset.mem_insert.mp hp with rfl | hp
    · exact ⟨k, hqk⟩
    · exact h.keyed p hp
  case inj =>
    intro p hp r hr hpr
    rcases Finset.mem_insert.mp hp with hpq | hid
    · rcases Finset.mem_insert.mp hr with hrq | hid'
      · rw [hpq, hrq]
      · rw [hpq, hqk] at hpr
        exact absurd hpr.symm (hk r hid')
    · rcases Finset.mem_insert.mp hr with hrq | hid'
      · rw [hrq, hqk] at hpr
        exact absurd hpr (hk p hid)
      · exact h.inj p hid r hid' hpr

theorem erase (h : Buckets hash n links key ids chain) (hk : key p = some k) {as bs : List ℕ}
    (hsplit : chain (bucketIdx hash n k) = as ++ p :: bs) :
    Buckets hash n
      (Function.update links (endLink (.head (bucketIdx hash n k)) as) (links (.next p)))
      key (ids.erase p) (Function.update chain (bucketIdx hash n k) (as ++ bs)) := by
  have hch := h.chains (bucketIdx hash n k)
  have hnd := h.nodup (bucketIdx hash n k)
  have hmem := h.mem (bucketIdx hash n k)
  have hdis : ∀ b, b ≠ bucketIdx hash n k → ∀ r ∈ chain b, r ∉ as ++ p :: bs := fun b hb =>
    hsplit ▸ h.disjoint hb
  rw [hsplit] at hch hnd hmem
  have hp : p ∉ as ++ bs := by
    rw [List.nodup_append] at hnd
    obtain ⟨-, hbs, hdis⟩ := hnd
    rw [List.mem_append]
    rintro (hp | hp)
    · exact hdis p hp p (by simp) rfl
    · exact (List.nodup_cons.mp hbs).1 hp
  constructor
  case chains =>
    intro b
    by_cases hb : b = bucketIdx hash n k
    · subst hb
      rw [Function.update_self]
      exact hch.erase hnd
    · rw [Function.update_of_ne hb]
      exact (h.chains b).update_other hb fun r hr has => hdis b hb r hr (by simp [has])
  case nodup =>
    intro b
    by_cases hb : b = bucketIdx hash n k
    · subst hb
      rw [Function.update_self]
      exact hnd.sublist (by simp)
    · rw [Function.update_of_ne hb]
      exact h.nodup b
  case mem =>
    intro b r
    by_cases hb : b = bucketIdx hash n k
    · subst hb
      rw [Function.update_self, Finset.mem_erase, and_assoc, ← hmem]
      constructor
      · intro hr
        refine ⟨?_, by rw [List.mem_append] at hr; simp; tauto⟩
        rintro rfl
        exact hp hr
      · rintro ⟨hne, hr⟩
        rw [List.mem_append, List.mem_cons] at hr
        rw [List.mem_append]
        tauto
    · rw [Function.update_of_ne hb, h.mem, Finset.mem_erase]
      refine ⟨fun hr => ⟨⟨?_, hr.1⟩, hr.2⟩, fun hr => ⟨hr.1.2, hr.2⟩⟩
      rintro rfl
      obtain ⟨-, k', hk', hb'⟩ := hr
      obtain rfl := Option.some.inj (hk.symm.trans hk')
      exact hb hb'.symm
  case keyed => exact fun r hr => h.keyed r (Finset.mem_of_mem_erase hr)
  case inj =>
    exact fun r hr t ht => h.inj r (Finset.mem_of_mem_erase hr) t (Finset.mem_of_mem_erase ht)

/-- A new node takes the place of the last one of a bucket, which has the same key. -/
theorem replace_last (h : Buckets hash n links key ids chain) (hp : p ∈ ids)
    (hk : key p = some k) {as : List ℕ} (hsplit : chain (bucketIdx hash n k) = as ++ [p])
    (hq : q ∉ ids) (hqk : key q = some k) (hend : links (.next q) = none) :
    ∃ chain', Buckets hash n
      (Function.update links (endLink (.head (bucketIdx hash n k)) as) (some q)) key
      (insert q (ids.erase p)) chain' := by
  have herase := h.erase hk hsplit
  have has : q ∉ as := by
    intro hmem
    exact hq ((h.mem (bucketIdx hash n k) q).mp (by simp [hsplit, hmem])).1
  have hput := herase.put (q := q) (k := k)
    (fun r hr hrk => (Finset.mem_erase.mp hr).1
      (h.inj r (Finset.mem_of_mem_erase hr) p hp (hrk.trans hk.symm)))
    (fun hmem => hq (Finset.mem_of_mem_erase hmem)) hqk
    (by rw [Function.update_of_ne (endLink_ne_next has).symm, hend])
  rw [Function.update_self, List.append_nil, Function.update_idem] at hput
  exact ⟨_, hput⟩

end Buckets

end Buckets

structure ConcurrentHashMap (K V : Type*) where
  bucketSize : ℕ
  links : Link ℕ ℕ → Option ℕ
  cells : ℕ → Option (K × V)
  nextId : ℕ
  elementSize : ℕ

namespace ConcurrentHashMap

variable {K V : Type*}

def init (bucketHint : ℕ) : ConcurrentHashMap K V where
  bucketSize := nextBucketNum bucketHint
  links _ := none
  cells _ := none
  nextId := 0
  elementSize := 0

def key (m : ConcurrentHashMap K V) (p : ℕ) : Option K := (m.cells p).map Prod.fst

section Operations

variable [DecidableEq K] (hash : K → ℕ)

/-- `get_entry` and the loop all operations begin with: the link they stop at. -/
def findEntry (m : ConcurrentHashMap K V) (k : K) : Option (Link ℕ ℕ) :=
  find m.links m.key k (m.elementSize + 1) (.head (bucketIdx hash m.bucketSize k))

def newNode (m : ConcurrentHashMap K V) (p : Link ℕ ℕ) (k : K) (val : V) :
    ConcurrentHashMap K V :=
  { m with
    links := Function.update (Function.update m.links (.next m.nextId) none) p (some m.nextId)
    cells := Function.update m.cells m.nextId (some (k, val))
    nextId := m.nextId + 1
    elementSize := m.elementSize + 1 }

def put (m : ConcurrentHashMap K V) (k : K) (val : V) : Option (Bool × ConcurrentHashMap K V) :=
  (m.findEntry hash k).map fun p =>
    match m.links p with
    | some _ => (false, m)
    | none => (true, m.newNode p k val)

def exchange (m : ConcurrentHashMap K V) (k : K) (val : V) :
    Option (Bool × V × ConcurrentHashMap K V) :=
  (m.findEntry hash k).bind fun p =>
    match m.links p with
    | some q => (m.cells q).map fun c =>
      (true, c.2, { m with cells := Function.update m.cells q (some (c.1, val)) })
    | none => some (false, val, m.newNode p k val)

/-- The value found, if any; without one `get` returns false and leaves `val`. -/
def get (m : ConcurrentHashMap K V) (k : K) : Option (Option V) :=
  (m.findEntry hash k).bind fun p =>
    match m.links p with
    | some q => (m.cells q).map fun c => some c.2
    | none => some none

def erase (m : ConcurrentHashMap K V) (k : K) : Option (Bool × ConcurrentHashMap K V) :=
  (m.findEntry hash k).map fun p =>
    match m.links p with
    | some q => (true, { m with
        links := Function.update m.links p (m.links (.next q))
        cells := Function.update m.cells q none
        elementSize := m.elementSize - 1 })
    | none => (false, m)

end Operations

inductive Call (K V : Type*) where
  | put (k : K) (val : V)
  | exchange (k : K) (val : V)
  | get (k : K)
  | erase (k : K)

inductive Answer (V : Type*) where
  | bool (ret : Bool)
  | exchanged (ret : Bool) (val : V)
  | found (val : Option V)
deriving DecidableEq

variable [DecidableEq K] (hash : K → ℕ)

def call (m : ConcurrentHashMap K V) : Call K V → Option (Answer V × ConcurrentHashMap K V)
  | .put k val => (m.put hash k val).map fun r => (.bool r.1, r.2)
  | .exchange k val => (m.exchange hash k val).map fun r => (.exchanged r.1 r.2.1, r.2.2)
  | .get k => (m.get hash k).map fun r => (.found r, m)
  | .erase k => (m.erase hash k).map fun r => (.bool r.1, r.2)

def calls (m : ConcurrentHashMap K V) :
    List (Call K V) → Option (List (Answer V) × ConcurrentHashMap K V)
  | [] => some ([], m)
  | c :: cs => (m.call hash c).bind fun r => (calls r.2 cs).map fun rs => (r.1 :: rs.1, rs.2)

end ConcurrentHashMap

namespace MapSpec

variable {K V : Type*} [DecidableEq K]

open ConcurrentHashMap (Call Answer)

def call (f : K → Option V) : Call K V → Answer V × (K → Option V)
  | .put k val => if (f k).isSome then (.bool false, f) else
      (.bool true, Function.update f k (some val))
  | .exchange k val => (.exchanged (f k).isSome ((f k).getD val), Function.update f k (some val))
  | .get k => (.found (f k), f)
  | .erase k => (.bool (f k).isSome, Function.update f k none)

def calls (f : K → Option V) : List (Call K V) → List (Answer V) × (K → Option V)
  | [] => ([], f)
  | c :: cs => ((call f c).1 :: (calls (call f c).2 cs).1, (calls (call f c).2 cs).2)

end MapSpec

namespace ConcurrentHashMap

variable {K V : Type*} {hash : K → ℕ} {m m' : ConcurrentHashMap K V} {f : K → Option V}
  {ids : Finset ℕ} {chain : ℕ → List ℕ} {k : K} {val : V}

theorem cells_newNode (hnew : m.nextId ∉ ids) (l : Link ℕ ℕ) (k : K) (val : V) :
    ∀ p ∈ ids, (m.newNode l k val).cells p = m.cells p := by
  intro p hp
  refine Function.update_of_ne ?_ _ _
  rintro rfl
  exact hnew hp

theorem buckets_newNode (hb : Buckets hash m.bucketSize m.links m.key ids chain)
    (hnew : m.nextId ∉ ids) (hk : ∀ p ∈ ids, m.key p ≠ some k) (val : V) :
    Buckets hash m.bucketSize
      (m.newNode (endLink (.head (bucketIdx hash m.bucketSize k))
        (chain (bucketIdx hash m.bucketSize k))) k val).links
      (m.newNode (endLink (.head (bucketIdx hash m.bucketSize k))
        (chain (bucketIdx hash m.bucketSize k))) k val).key
      (insert m.nextId ids)
      (Function.update chain (bucketIdx hash m.bucketSize k)
        (chain (bucketIdx hash m.bucketSize k) ++ [m.nextId])) := by
  set l := endLink (.head (bucketIdx hash m.bucketSize k)) (chain (bucketIdx hash m.bucketSize k))
  have hkey : ∀ p ∈ ids, (m.newNode l k val).key p = m.key p := by
    intro p hp
    rw [key, cells_newNode hnew l k val p hp]
    rfl
  -- the new node, before it is linked
  have hb' : Buckets hash m.bucketSize (Function.update m.links (.next m.nextId) none)
      (m.newNode l k val).key ids chain := by
    refine hb.congr (fun b => by simp) (fun p hp => ?_) hkey
    rw [Function.update_of_ne]
    rintro ⟨⟩
    exact hnew hp
  refine hb'.put (fun p hp => ?_) hnew (by simp [key, ConcurrentHashMap.newNode]) (by simp)
  rw [hkey p hp]
  exact hk p hp

theorem buckets_eraseNode (hb : Buckets hash m.bucketSize m.links m.key ids chain) {p : ℕ}
    (hk : m.key p = some k) {as bs : List ℕ}
    (hsplit : chain (bucketIdx hash m.bucketSize k) = as ++ p :: bs) :
    Buckets hash m.bucketSize
      (Function.update m.links (endLink (.head (bucketIdx hash m.bucketSize k)) as)
        (m.links (.next p)))
      (fun q => (Function.update m.cells p none q).map Prod.fst) (ids.erase p)
      (Function.update chain (bucketIdx hash m.bucketSize k) (as ++ bs)) := by
  refine (hb.erase hk hsplit).congr (fun _ => rfl) (fun _ _ => rfl) fun q hq => ?_
  simp [key, Function.update_of_ne (Finset.ne_of_mem_erase hq)]

structure Stores (hash : K → ℕ) (m : ConcurrentHashMap K V) (f : K → Option V) (ids : Finset ℕ)
    (chain : ℕ → List ℕ) : Prop where
  pos : 0 < m.bucketSize
  buckets : Buckets hash m.bucketSize m.links m.key ids chain
  size : m.elementSize = ids.card
  fresh : ∀ p, m.nextId ≤ p → p ∉ ids
  values : ∀ k v, f k = some v ↔ ∃ p ∈ ids, m.cells p = some (k, v)

namespace Stores

theorem init (hash : K → ℕ) (bucketHint : ℕ) :
    Stores hash (ConcurrentHashMap.init bucketHint : ConcurrentHashMap K V) (fun _ => none) ∅
      fun _ => [] where
  pos := nextBucketNum_pos bucketHint
  buckets := Buckets.empty ..
  size := rfl
  fresh p _ := by simp
  values k v := by simp

theorem key_eq {p : ℕ} {v : V} (hp : m.cells p = some (k, v)) : m.key p = some k := by
  rw [key, hp]
  rfl

theorem not_key (hs : Stores hash m f ids chain) (hk : f k = none) : ∀ p ∈ ids, m.key p ≠ some k := by
  intro p hp hkey
  obtain ⟨⟨k', v⟩, hcell, rfl⟩ := Option.map_eq_some_iff.mp hkey
  have := (hs.values k' v).mpr ⟨p, hp, hcell⟩
  rw [hk] at this
  cases this

theorem node_unique (hs : Stores hash m f ids chain) {p q : ℕ} {v w : V} (hp : p ∈ ids)
    (hq : q ∈ ids) (hcell : m.cells p = some (k, v)) (hcell' : m.cells q = some (k, w)) : p = q :=
  hs.buckets.inj p hp q hq ((key_eq hcell).trans (key_eq hcell').symm)

section

variable [DecidableEq K]

theorem findEntry_absent (hs : Stores hash m f ids chain) (hk : f k = none) :
    m.findEntry hash k = some (endLink (.head (bucketIdx hash m.bucketSize k))
        (chain (bucketIdx hash m.bucketSize k))) ∧
      m.links (endLink (.head (bucketIdx hash m.bucketSize k))
        (chain (bucketIdx hash m.bucketSize k))) = none := by
  rw [findEntry, hs.size]
  exact hs.buckets.find_absent (hs.not_key hk) _

theorem findEntry_present (hs : Stores hash m f ids chain) {v : V} (hk : f k = some v) :
    ∃ p as bs, p ∈ ids ∧ m.cells p = some (k, v) ∧
      chain (bucketIdx hash m.bucketSize k) = as ++ p :: bs ∧
      m.findEntry hash k = some (endLink (.head (bucketIdx hash m.bucketSize k)) as) ∧
      m.links (endLink (.head (bucketIdx hash m.bucketSize k)) as) = some p := by
  obtain ⟨p, hp, hcell⟩ := (hs.values k v).mp hk
  obtain ⟨as, bs, hsplit⟩ := hs.buckets.split hp (key_eq hcell)
  refine ⟨p, as, bs, hp, hcell, hsplit, ?_⟩
  rw [findEntry, hs.size]
  exact hs.buckets.find_present (key_eq hcell) hsplit

theorem newNode (hs : Stores hash m f ids chain) (val : V) (hk : f k = none) :
    ∃ ids' chain', Stores hash (m.newNode (endLink (.head (bucketIdx hash m.bucketSize k))
        (chain (bucketIdx hash m.bucketSize k))) k val) (Function.update f k (some val))
        ids' chain' := by
  have hnew : m.nextId ∉ ids := hs.fresh _ le_rfl
  have hcells := cells_newNode hnew (endLink (.head (bucketIdx hash m.bucketSize k))
    (chain (bucketIdx hash m.bucketSize k))) k val
  refine ⟨insert m.nextId ids, _, hs.pos, buckets_newNode hs.buckets hnew (hs.not_key hk) val,
    ?_, ?_, ?_⟩
  · rw [Finset.card_insert_of_notMem hnew, ← hs.size]
    rfl
  · intro p hp
    change m.nextId + 1 ≤ p at hp
    rw [Finset.mem_insert, not_or]
    exact ⟨by omega, hs.fresh p (by omega)⟩
  · intro k' v
    have hold : (∃ p ∈ ids, (m.newNode (endLink (.head (bucketIdx hash m.bucketSize k))
        (chain (bucketIdx hash m.bucketSize k))) k val).cells p = some (k', v)) ↔
        f k' = some v := by
      rw [hs.values]
      refine exists_congr fun p => and_congr_right fun hp => ?_
      rw [hcells p hp]
    rw [Finset.exists_mem_insert, hold]
    change _ ↔ Function.update m.cells m.nextId (some (k, val)) m.nextId = some (k', v) ∨ _
    rw [Function.update_self]
    by_cases hkk : k' = k
    · subst hkk
      simp [hk]
    · simp [Function.update_of_ne hkk, Ne.symm hkk]

theorem setValue (hs : Stores hash m f ids chain) {p : ℕ} {v : V} (hp : p ∈ ids)
    (hcell : m.cells p = some (k, v)) :
    Stores hash { m with cells := Function.update m.cells p (some (k, val)) }
      (Function.update f k (some val)) ids chain where
  pos := hs.pos
  buckets := by
    refine hs.buckets.congr (fun _ => rfl) (fun _ _ => rfl) fun q _ => ?_
    by_cases hq : q = p
    · subst hq
      rw [key_eq hcell, key]
      simp
    · simp [key, Function.update_of_ne hq]
  size := hs.size
  fresh := hs.fresh
  values k' v' := by
    change _ ↔ ∃ q ∈ ids, Function.update m.cells p (some (k, val)) q = some (k', v')
    by_cases hkk : k' = k
    · subst hkk
      rw [Function.update_self]
      constructor
      · intro h
        obtain rfl := Option.some.inj h
        exact ⟨p, hp, Function.update_self ..⟩
      · rintro ⟨q, hq, hcell'⟩
        by_cases hqp : q = p
        · subst hqp
          rw [Function.update_self] at hcell'
          cases hcell'
          rfl
        · rw [Function.update_of_ne hqp] at hcell'
          exact absurd (hs.node_unique hq hp hcell' hcell) hqp
    · rw [Function.update_of_ne hkk, hs.values]
      refine exists_congr fun q => and_congr_right fun _ => ?_
      by_cases hqp : q = p
      · subst hqp
        rw [Function.update_self, hcell]
        simp [Ne.symm hkk]
      · rw [Function.update_of_ne hqp]

theorem eraseNode (hs : Stores hash m f ids chain) {p : ℕ} {v : V} {as bs : List ℕ} (hp : p ∈ ids)
    (hcell : m.cells p = some (k, v))
    (hsplit : chain (bucketIdx hash m.bucketSize k) = as ++ p :: bs) :
    ∃ ids' chain', Stores hash { m with
        links := Function.update m.links (endLink (.head (bucketIdx hash m.bucketSize k)) as)
          (m.links (.next p))
        cells := Function.update m.cells p none
        elementSize := m.elementSize - 1 } (Function.update f k none) ids' chain' := by
  refine ⟨ids.erase p, _, hs.pos, buckets_eraseNode hs.buckets (key_eq hcell) hsplit, ?_,
    fun q hq hmem => ?_, fun k' v' => ?_⟩
  · rw [Finset.card_erase_of_mem hp, ← hs.size]
  · exact hs.fresh q hq (Finset.mem_of_mem_erase hmem)
  · constructor
    · intro h
      have hkk : k' ≠ k := by
        rintro rfl
        simp at h
      rw [Function.update_of_ne hkk] at h
      obtain ⟨q, hq, hcell'⟩ := (hs.values k' v').mp h
      have hqp : q ≠ p := by
        rintro rfl
        rw [hcell] at hcell'
        cases hcell'
        exact hkk rfl
      exact ⟨q, Finset.mem_erase.mpr ⟨hqp, hq⟩, by simpa [Function.update_of_ne hqp] using hcell'⟩
    · rintro ⟨q, hq, hcell'⟩
      obtain ⟨hqp, hq⟩ := Finset.mem_erase.mp hq
      simp only [Function.update_of_ne hqp] at hcell'
      have hkk : k' ≠ k := by
        rintro rfl
        exact hqp (hs.node_unique hq hp hcell' hcell)
      rw [Function.update_of_ne hkk]
      exact (hs.values k' v').mpr ⟨q, hq, hcell'⟩

theorem put (hs : Stores hash m f ids chain) (k : K) (val : V) :
    ∃ m' ids' chain', m.put hash k val = some (!(f k).isSome, m') ∧
      Stores hash m' (MapSpec.call f (.put k val)).2 ids' chain' := by
  cases hk : f k with
  | none =>
    obtain ⟨hfind, hnone⟩ := hs.findEntry_absent hk
    obtain ⟨ids', chain', hs'⟩ := hs.newNode val hk
    refine ⟨_, ids', chain', by rw [ConcurrentHashMap.put, hfind, Option.map_some, hnone]; rfl, ?_⟩
    simpa [MapSpec.call, hk] using hs'
  | some v =>
    obtain ⟨p, as, bs, hp, hcell, hsplit, hfind, hlink⟩ := hs.findEntry_present hk
    refine ⟨m, ids, chain, by rw [ConcurrentHashMap.put, hfind, Option.map_some, hlink]; rfl, ?_⟩
    simpa [MapSpec.call, hk] using hs

theorem exchange (hs : Stores hash m f ids chain) (k : K) (val : V) :
    ∃ m' ids' chain', m.exchange hash k val = some ((f k).isSome, (f k).getD val, m') ∧
      Stores hash m' (MapSpec.call f (.exchange k val)).2 ids' chain' := by
  cases hk : f k with
  | none =>
    obtain ⟨hfind, hnone⟩ := hs.findEntry_absent hk
    obtain ⟨ids', chain', hs'⟩ := hs.newNode val hk
    exact ⟨_, ids', chain',
      by rw [ConcurrentHashMap.exchange, hfind, Option.bind_some, hnone]; rfl, hs'⟩
  | some v =>
    obtain ⟨p, as, bs, hp, hcell, hsplit, hfind, hlink⟩ := hs.findEntry_present hk
    refine ⟨_, ids, chain, ?_, hs.setValue hp hcell⟩
    rw [ConcurrentHashMap.exchange, hfind, Option.bind_some, hlink]
    simp only [hcell, Option.map_some]
    rfl

theorem get (hs : Stores hash m f ids chain) (k : K) : m.get hash k = some (f k) := by
  cases hk : f k with
  | none =>
    obtain ⟨hfind, hnone⟩ := hs.findEntry_absent hk
    rw [ConcurrentHashMap.get, hfind, Option.bind_some, hnone]
  | some v =>
    obtain ⟨p, as, bs, hp, hcell, hsplit, hfind, hlink⟩ := hs.findEntry_present hk
    rw [ConcurrentHashMap.get, hfind, Option.bind_some, hlink]
    simp only [hcell, Option.map_some]

theorem erase (hs : Stores hash m f ids chain) (k : K) :
    ∃ m' ids' chain', m.erase hash k = some ((f k).isSome, m') ∧
      Stores hash m' (MapSpec.call f (.erase k)).2 ids' chain' := by
  cases hk : f k with
  | none =>
    obtain ⟨hfind, hnone⟩ := hs.findEntry_absent hk
    refine ⟨m, ids, chain, by rw [ConcurrentHashMap.erase, hfind, Option.map_some, hnone]; rfl, ?_⟩
    simp only [MapSpec.call]
    rwa [Function.update_eq_self_iff.mpr hk.symm]
  | some v =>
    obtain ⟨p, as, bs, hp, hcell, hsplit, hfind, hlink⟩ := hs.findEntry_present hk
    obtain ⟨ids', chain', hs'⟩ := hs.eraseNode hp hcell hsplit
    exact ⟨_, ids', chain',
      by rw [ConcurrentHashMap.erase, hfind, Option.map_some, hlink]; rfl, hs'⟩

theorem call (hs : Stores hash m f ids chain) (c : Call K V) :
    ∃ m' ids' chain', m.call hash c = some ((MapSpec.call f c).1, m') ∧
      Stores hash m' (MapSpec.call f c).2 ids' chain' := by
  cases c with
  | put k val =>
    obtain ⟨m', ids', chain', hput, hs'⟩ := hs.put k val
    refine ⟨m', ids', chain', ?_, hs'⟩
    rw [ConcurrentHashMap.call, hput, Option.map_some, MapSpec.call]
    cases (f k).isSome <;> rfl
  | exchange k val =>
    obtain ⟨m', ids', chain', hex, hs'⟩ := hs.exchange k val
    exact ⟨m', ids', chain', by rw [ConcurrentHashMap.call, hex]; rfl, hs'⟩
  | get k => exact ⟨m, ids, chain, by rw [ConcurrentHashMap.call, hs.get k]; rfl, hs⟩
  | erase k =>
    obtain ⟨m', ids', chain', her, hs'⟩ := hs.erase k
    exact ⟨m', ids', chain', by rw [ConcurrentHashMap.call, her]; rfl, hs'⟩

theorem calls (hs : Stores hash m f ids chain) (cs : List (Call K V)) :
    ∃ m' ids' chain', m.calls hash cs = some ((MapSpec.calls f cs).1, m') ∧
      Stores hash m' (MapSpec.calls f cs).2 ids' chain' := by
  induction cs generalizing m f ids chain with
  | nil => exact ⟨m, ids, chain, rfl, hs⟩
  | cons c cs ih =>
    obtain ⟨m₁, ids₁, chain₁, hcall, hs₁⟩ := hs.call c
    obtain ⟨m', ids', chain', hcalls, hs'⟩ := ih hs₁
    refine ⟨m', ids', chain', ?_, hs'⟩
    rw [ConcurrentHashMap.calls, hcall, Option.bind_some, hcalls]
    rfl

end

end Stores

variable [DecidableEq K]

/-- Any calls on a new map give the answers of a finite map. Afterwards every key of it is in one
node, in the chain of its bucket, and the size is the number of the keys. -/
theorem concurrentHashMap_refines (hash : K → ℕ) (bucketHint : ℕ) (cs : List (Call K V)) :
    ∃ m : ConcurrentHashMap K V, (init bucketHint).calls hash cs =
        some ((MapSpec.calls (fun _ => none) cs).1, m) ∧
      ∃ chain : ℕ → List ℕ, (∀ b, IsChain m.links (.head b) (chain b)) ∧
        (∀ b, ∀ p ∈ chain b, b < m.bucketSize ∧ ∃ k v, m.cells p = some (k, v) ∧
          bucketIdx hash m.bucketSize k = b ∧ (MapSpec.calls (fun _ => none) cs).2 k = some v) ∧
        (∀ k v, (MapSpec.calls (fun _ => none) cs).2 k = some v →
          ∃ p, m.cells p = some (k, v) ∧
            ∀ b, (chain b).count p = (if b = bucketIdx hash m.bucketSize k then 1 else 0) ∧
              ∀ q ∈ chain b, m.key q = some k → q = p) ∧
        ∃ keys : Finset K, m.elementSize = keys.card ∧
          ∀ k, k ∈ keys ↔ (MapSpec.calls (fun _ => none) cs).2 k ≠ none := by
  obtain ⟨m, ids, chain, hcalls, hs⟩ := (Stores.init (V := V) hash bucketHint).calls cs
  refine ⟨m, hcalls, chain, hs.buckets.chains, fun b p hp => ?_, fun k v hk => ?_, ?_⟩
  · obtain ⟨hid, k, hkey, rfl⟩ := (hs.buckets.mem b p).mp hp
    obtain ⟨⟨k', v⟩, hcell, rfl⟩ := Option.map_eq_some_iff.mp hkey
    exact ⟨Nat.mod_lt _ hs.pos, k', v, hcell, rfl, (hs.values k' v).mpr ⟨p, hid, hcell⟩⟩
  · obtain ⟨p, hid, hcell⟩ := (hs.values k v).mp hk
    refine ⟨p, hcell, fun b => ⟨?_, fun q hq hkey => ?_⟩⟩
    · by_cases hb : b = bucketIdx hash m.bucketSize k
      · rw [if_pos hb]
        exact List.count_eq_one_of_mem (hs.buckets.nodup b)
          ((hs.buckets.mem b p).mpr ⟨hid, k, Stores.key_eq hcell, hb.symm⟩)
      · rw [if_neg hb]
        refine List.count_eq_zero.mpr fun hp => ?_
        obtain ⟨-, k', hkey, rfl⟩ := (hs.buckets.mem b p).mp hp
        obtain rfl := Option.some.inj ((Stores.key_eq hcell).symm.trans hkey)
        exact hb rfl
    · exact hs.buckets.inj q ((hs.buckets.mem b q).mp hq).1 p hid
        (hkey.trans (Stores.key_eq hcell).symm)
  · -- the keys of the nodes
    refine ⟨(ids.attach.image fun p => ((hs.buckets.keyed p.1 p.2).choose)), ?_, fun k => ?_⟩
    · rw [hs.size, Finset.card_image_of_injective, Finset.card_attach]
      intro p q hpq
      have hp := (hs.buckets.keyed p.1 p.2).choose_spec
      have hq := (hs.buckets.keyed q.1 q.2).choose_spec
      simp only at hpq
      rw [← hpq] at hq
      exact Subtype.ext (hs.buckets.inj p.1 p.2 q.1 q.2 (hp.trans hq.symm))
    · rw [Option.ne_none_iff_exists', Finset.mem_image]
      constructor
      · rintro ⟨p, -, hpk⟩
        have hp := (hs.buckets.keyed p.1 p.2).choose_spec
        rw [hpk] at hp
        obtain ⟨⟨k', v⟩, hcell, rfl⟩ := Option.map_eq_some_iff.mp hp
        exact ⟨v, (hs.values k' v).mpr ⟨p.1, p.2, hcell⟩⟩
      · rintro ⟨v, hv⟩
        obtain ⟨p, hid, hcell⟩ := (hs.values k v).mp hv
        refine ⟨⟨p, hid⟩, Finset.mem_attach _ _, ?_⟩
        exact Option.some.inj ((hs.buckets.keyed p hid).choose_spec.symm.trans (Stores.key_eq hcell))

end ConcurrentHashMap

end SofaBolt
