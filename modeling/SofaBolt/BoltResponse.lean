import SofaBolt.BoltRequest

namespace SofaBolt.Bolt

open IOBuffer Wire

inductive EResParseResult where
  | parseOk
  | parseError
  | parseNotEnoughData
deriving DecidableEq, Repr

def boltResponseSuccess : UInt16 := 0

structure BoltHeader where
  proto : UInt8
  type : UInt8
  cmdcode : UInt16
  ver2 : UInt8
  requestId : UInt32
  codec : UInt8
  status : UInt16
  classLen : UInt16
  headerLen : UInt16
  contentLen : UInt32
deriving DecidableEq, Repr

def boltHeaderSize : ℕ := 20

def fieldAt (bs : Bytes) (o n : ℕ) : ℕ := decodeBE ((bs.drop o).take n)

def BoltHeader.ofBytes (bs : Bytes) : BoltHeader where
  proto := UInt8.ofNat (fieldAt bs 0 1)
  type := UInt8.ofNat (fieldAt bs 1 1)
  cmdcode := UInt16.ofNat (fieldAt bs 2 2)
  ver2 := UInt8.ofNat (fieldAt bs 4 1)
  requestId := UInt32.ofNat (fieldAt bs 5 4)
  codec := UInt8.ofNat (fieldAt bs 9 1)
  status := UInt16.ofNat (fieldAt bs 10 2)
  classLen := UInt16.ofNat (fieldAt bs 12 2)
  headerLen := UInt16.ofNat (fieldAt bs 14 2)
  contentLen := UInt32.ofNat (fieldAt bs 16 4)

def BoltHeader.dataSize (hd : BoltHeader) : UInt32 :=
  hd.classLen.toUInt32 + hd.headerLen.toUInt32 + hd.contentLen

inductive ResponseData (M : Type) where
  | none
  | string (target : Bytes)
  | protobuf (target : M)
deriving DecidableEq, Repr

structure BoltResponse (M : Type) where
  header : BoltHeader
  className : Bytes
  headerMap : Bytes → Option Bytes
  data : ResponseData M

variable {M : Type}

def resizeAndCopy (str : Bytes) (n : ℕ) (bs : Bytes) : Bytes :=
  bs ++ ((str ++ List.replicate n 0).take n).drop bs.length

def emplace {K V : Type} [DecidableEq K] (m : K → Option V) (key : K) (value : V) :
    K → Option V :=
  match m key with
  | some _ => m
  | none => Function.update m key (some value)

theorem emplace_apply {K V : Type} [DecidableEq K] (m : K → Option V) (key : K) (value : V)
    (k : K) : emplace m key value k = (m k).or (if k = key then some value else none) := by
  unfold emplace
  by_cases hk : k = key
  · subst hk
    cases hm : m k <;> simp [hm]
  · cases m key <;> simp [hk, Function.update_of_ne]

/-- The two halves of the loop's body, one for the key and one for the value:
a size, and if it is positive so many bytes.  The string is `none` if the
buffer runs out. -/
def cutSized (h : Heap) (buffer : IOBuffer) (leftSize : UInt16) :
    IOBuffer × UInt16 × Option Bytes :=
  let (buffer, raw) := buffer.cutVoid h 4
  if raw.length < 4 then (buffer, leftSize, none)
  else
    let size := UInt32.ofNat (decodeBE raw)
    let leftSize := leftSize - 4
    if 0 < size then
      let (buffer, str) := buffer.cutVoid h size.toNat
      if str.length < size.toNat then (buffer, leftSize, none)
      else (buffer, leftSize - size.toUInt16, some str)
    else (buffer, leftSize, some [])

def headerLoop (h : Heap) : ℕ → IOBuffer → UInt16 → (Bytes → Option Bytes) →
    Option (IOBuffer × (Bytes → Option Bytes) × EResParseResult)
  | 0, _, _, _ => none
  | fuel + 1, buffer, leftSize, m =>
    if leftSize = 0 then some (buffer, m, .parseOk)
    else
      match cutSized h buffer leftSize with
      | (buffer, _, none) => some (buffer, m, .parseNotEnoughData)
      | (buffer, leftSize, some key) =>
        match cutSized h buffer leftSize with
        | (buffer, _, none) => some (buffer, m, .parseNotEnoughData)
        | (buffer, leftSize, some value) =>
          headerLoop h fuel buffer leftSize (emplace m key value)

/-- The content.  `parse` is what protobuf makes of the rest of the buffer: a
message and the number of bytes it has taken from the stream. -/
def deserializeContent (h : Heap) (parse : Bytes → Option (M × ℕ)) (r : BoltResponse M)
    (buffer : IOBuffer) : BoltResponse M × IOBuffer × EResParseResult :=
  let n := r.header.contentLen.toNat
  if 0 < n then
    match r.data with
    | .string target =>
      let (buffer, str) := buffer.cutVoid h n
      let r := { r with data := .string (resizeAndCopy target n str) }
      if str.length < n then (r, buffer, .parseNotEnoughData) else (r, buffer, .parseOk)
    | .protobuf _ =>
      match parse (buffer.toString h) with
      | none => (r, buffer, .parseError)
      | some (msg, byteCount) =>
        let r := { r with data := .protobuf msg }
        if byteCount ≠ n then (r, buffer, .parseError) else (r, (buffer.popFront n).1, .parseOk)
    | .none => (r, buffer, .parseOk)
  else (r, buffer, .parseOk)

def deserializeBody (h : Heap) (parse : Bytes → Option (M × ℕ)) (r : BoltResponse M)
    (buffer : IOBuffer) : Option (BoltResponse M × IOBuffer × EResParseResult) :=
  let n := r.header.classLen.toNat
  let (buffer, str) := buffer.cutVoid h n
  let r := { r with className := resizeAndCopy r.className n str }
  if str.length < n then some (r, buffer, .parseNotEnoughData)
  else do
    -- every round takes eight bytes at least
    let (buffer, headerMap, res) ←
      headerLoop h (buffer.length + 1) buffer r.header.headerLen r.headerMap
    let r := { r with headerMap }
    if res = .parseOk then some (deserializeContent h parse r buffer) else some (r, buffer, res)

/-- `none` would be a loop that does not end.  If not even a header could be cut,
the source leaves the bytes there were in `_header`, which is not modelled. -/
def deserialize (h : Heap) (parse : Bytes → Option (M × ℕ)) (r : BoltResponse M)
    (buffer : IOBuffer) : Option (BoltResponse M × IOBuffer × EResParseResult) :=
  let (buffer, raw) := buffer.cutVoid h boltHeaderSize
  if raw.length < boltHeaderSize then some (r, buffer, .parseNotEnoughData)
  else
    let header := BoltHeader.ofBytes raw
    let r := { r with header }
    if header.proto ≠ boltProtocolType then some (r, buffer, .parseError)
    else if header.type ≠ boltProtocolResponse then some (r, buffer, .parseError)
    else if header.cmdcode = boltProtocolCmdHeartbeat then some (r, buffer, .parseOk)
    else if header.cmdcode ≠ boltProtocolCmdResponse then some (r, buffer, .parseError)
    else if header.status ≠ boltResponseSuccess then
      some (r, (buffer.popFront header.dataSize.toNat).1, .parseOk)
    else deserializeBody h parse r buffer

def maxBoltBodySize : ℕ := 64 * 1024 * 1024

/-- The result, `data_size` and `request_id`; the latter two keep their values
if there is no whole header. -/
def checkHeader (h : Heap) (buffer : IOBuffer) (dataSize requestId : ℕ) :
    EResParseResult × ℕ × ℕ :=
  let raw := buffer.copyTo h boltHeaderSize
  let header := BoltHeader.ofBytes raw
  if raw.length < boltHeaderSize then (.parseNotEnoughData, dataSize, requestId)
  else
    let requestId := header.requestId.toNat
    let dataSize := header.dataSize.toNat
    if maxBoltBodySize < dataSize then (.parseError, dataSize, requestId)
    else
      let dataSize := dataSize + boltHeaderSize
      if buffer.length < dataSize then (.parseNotEnoughData, dataSize, requestId)
      else (.parseOk, dataSize, requestId)

def IsFrame (bs : Bytes) : Prop :=
  boltHeaderSize ≤ bs.length ∧
    bs.length = boltHeaderSize + (BoltHeader.ofBytes bs).classLen.toNat +
      (BoltHeader.ofBytes bs).headerLen.toNat + (BoltHeader.ofBytes bs).contentLen.toNat

instance (bs : Bytes) : Decidable (IsFrame bs) := inferInstanceAs (Decidable (_ ∧ _))

def classSection (bs : Bytes) : Bytes :=
  (bs.drop boltHeaderSize).take (BoltHeader.ofBytes bs).classLen.toNat

def headerSection (bs : Bytes) : Bytes :=
  (bs.drop (boltHeaderSize + (BoltHeader.ofBytes bs).classLen.toNat)).take
    (BoltHeader.ofBytes bs).headerLen.toNat

def contentSection (bs : Bytes) : Bytes :=
  bs.drop (boltHeaderSize + (BoltHeader.ofBytes bs).classLen.toNat +
    (BoltHeader.ofBytes bs).headerLen.toNat)

theorem fieldAt_take {o n k : ℕ} (hk : o + n ≤ k) (bs : Bytes) :
    fieldAt (bs.take k) o n = fieldAt bs o n := by
  rw [fieldAt, fieldAt, List.drop_take, List.take_take, min_eq_left (by omega)]

theorem BoltHeader.ofBytes_take {k : ℕ} (hk : boltHeaderSize ≤ k) (bs : Bytes) :
    BoltHeader.ofBytes (bs.take k) = BoltHeader.ofBytes bs := by
  rw [boltHeaderSize] at hk
  simp only [ofBytes, fieldAt_take (show 0 + 1 ≤ k by omega), fieldAt_take (show 1 + 1 ≤ k by omega),
    fieldAt_take (show 2 + 2 ≤ k by omega), fieldAt_take (show 4 + 1 ≤ k by omega),
    fieldAt_take (show 5 + 4 ≤ k by omega), fieldAt_take (show 9 + 1 ≤ k by omega),
    fieldAt_take (show 10 + 2 ≤ k by omega), fieldAt_take (show 12 + 2 ≤ k by omega),
    fieldAt_take (show 14 + 2 ≤ k by omega), fieldAt_take (show 16 + 4 ≤ k by omega)]

theorem IsFrame.sections {bs : Bytes} (hf : IsFrame bs) :
    bs = bs.take boltHeaderSize ++ (classSection bs ++ (headerSection bs ++ contentSection bs)) ∧
      (classSection bs).length = (BoltHeader.ofBytes bs).classLen.toNat ∧
      (headerSection bs).length = (BoltHeader.ofBytes bs).headerLen.toNat ∧
      (contentSection bs).length = (BoltHeader.ofBytes bs).contentLen.toNat := by
  obtain ⟨-, hlen⟩ := hf
  refine ⟨?_, ?_, ?_, ?_⟩
  · simp only [classSection, headerSection, contentSection, ← List.drop_drop,
      List.take_append_drop]
  · rw [classSection, List.length_take, List.length_drop]
    omega
  · rw [headerSection, List.length_take, List.length_drop]
    omega
  · rw [contentSection, List.length_drop]
    omega

theorem IsFrame.drop_header {bs : Bytes} (hf : IsFrame bs) :
    bs.drop boltHeaderSize = classSection bs ++ (headerSection bs ++ contentSection bs) := by
  conv_lhs => rw [hf.sections.1]
  exact List.drop_left' (List.length_take_of_le hf.1)

/-- Of a frame of admitted size the three lengths are added without overflow. -/
theorem IsFrame.dataSize_eq {f : Bytes} (hf : IsFrame f)
    (hmax : f.length ≤ boltHeaderSize + maxBoltBodySize) :
    (BoltHeader.ofBytes f).dataSize.toNat + boltHeaderSize = f.length := by
  obtain ⟨-, hlen⟩ := hf
  simp only [BoltHeader.dataSize, UInt32.toNat_add, UInt16.toNat_toUInt32]
  simp only [maxBoltBodySize] at hmax
  omega

theorem checkHeader_eq (h : Heap) (buffer : IOBuffer) (dataSize requestId : ℕ) {bs : Bytes}
    {hd : BoltHeader} (hbs : buffer.toString h = bs) (hhd : BoltHeader.ofBytes bs = hd) :
    checkHeader h buffer dataSize requestId =
      if bs.length < boltHeaderSize then (.parseNotEnoughData, dataSize, requestId)
      else if maxBoltBodySize < hd.dataSize.toNat then
        (.parseError, hd.dataSize.toNat, hd.requestId.toNat)
      else if bs.length < hd.dataSize.toNat + boltHeaderSize then
        (.parseNotEnoughData, hd.dataSize.toNat + boltHeaderSize, hd.requestId.toNat)
      else (.parseOk, hd.dataSize.toNat + boltHeaderSize, hd.requestId.toNat) := by
  have hraw : (bs.take boltHeaderSize).length < boltHeaderSize ↔ bs.length < boltHeaderSize := by
    rw [List.length_take]
    omega
  unfold checkHeader
  simp only [copyTo_eq, length_eq buffer h, hbs, BoltHeader.ofBytes_take le_rfl, hhd, hraw]

/-- `checkHeader` finds the end of a frame, and asks for more data before it is
there. -/
theorem checkHeader_spec {h : Heap} {buffer : IOBuffer} {f rest : Bytes} (hf : IsFrame f)
    (hmax : f.length ≤ boltHeaderSize + maxBoltBodySize) (hpre : buffer.toString h <+: f ++ rest)
    (dataSize requestId : ℕ) :
    ((buffer.toString h).length < f.length →
      (checkHeader h buffer dataSize requestId).1 = .parseNotEnoughData) ∧
    (f.length ≤ (buffer.toString h).length → checkHeader h buffer dataSize requestId =
      (.parseOk, f.length, (BoltHeader.ofBytes f).requestId.toNat)) := by
  have hsize := hf.dataSize_eq hmax
  have hle := hf.1
  by_cases h20 : (buffer.toString h).length < boltHeaderSize
  · rw [checkHeader_eq h buffer dataSize requestId rfl rfl, if_pos h20]
    exact ⟨fun _ => rfl, fun hle' => by omega⟩
  · -- the header of the frame is there already
    have hhead : BoltHeader.ofBytes (buffer.toString h) = BoltHeader.ofBytes f := by
      have htake : (buffer.toString h).take boltHeaderSize = f.take boltHeaderSize := by
        rw [List.prefix_iff_eq_take.mp hpre, List.take_take, min_eq_left (by omega),
          List.take_append_of_le_length hle]
      rw [← BoltHeader.ofBytes_take le_rfl, htake, BoltHeader.ofBytes_take le_rfl]
    have hsmall : ¬ maxBoltBodySize < (BoltHeader.ofBytes f).dataSize.toNat := by omega
    rw [checkHeader_eq h buffer dataSize requestId rfl hhead, if_neg h20, if_neg hsmall, hsize]
    refine ⟨fun hlt => ?_, fun hle => ?_⟩
    · rw [if_pos hlt]
    · rw [if_neg (by omega)]

def BoltHeader.bodySize (hd : BoltHeader) : ℕ :=
  hd.classLen.toNat + hd.headerLen.toNat + hd.contentLen.toNat

theorem BoltHeader.dataSize_toNat (hd : BoltHeader) :
    hd.dataSize.toNat = hd.bodySize % 2 ^ 32 := by
  simp only [dataSize, bodySize, UInt32.toNat_add, UInt16.toNat_toUInt32]
  omega

theorem BoltHeader.dataSize_le (hd : BoltHeader) (h : 2 ^ 32 ≤ hd.bodySize) :
    hd.bodySize % 2 ^ 32 ≤ maxBoltBodySize := by
  have hc := hd.classLen.toNat_lt
  have hh := hd.headerLen.toNat_lt
  have hn := hd.contentLen.toNat_lt
  simp only [bodySize, maxBoltBodySize] at *
  omega

/-- `checkHeader` measures the frame exactly if the sum of the lengths is one of 32 bits. -/
theorem checkHeader_measures (h : Heap) (buffer : IOBuffer) (dataSize requestId : ℕ) {bs : Bytes}
    {hd : BoltHeader} {res : EResParseResult} {size id : ℕ} (hbs : buffer.toString h = bs)
    (hhd : BoltHeader.ofBytes bs = hd)
    (hres : checkHeader h buffer dataSize requestId = (res, size, id)) :
    ((bs.length < 20 → res = .parseNotEnoughData) ∧
    (20 ≤ bs.length →
      (res = .parseError ↔ 64 * 1024 * 1024 < hd.bodySize) ∧
      (hd.bodySize ≤ 64 * 1024 * 1024 →
        (res = .parseOk ↔ 20 + hd.bodySize ≤ bs.length) ∧
        (bs.length < 20 + hd.bodySize → res = .parseNotEnoughData)) ∧
      (res = .parseOk → size = 20 + hd.bodySize ∧ id = hd.requestId.toNat))) ↔
    (20 ≤ bs.length → hd.bodySize < 2 ^ 32) := by
  rw [checkHeader_eq h buffer dataSize requestId hbs hhd, boltHeaderSize] at hres
  constructor
  · rintro ⟨-, hmeasures⟩ hle
    by_contra hge
    have herror := (hmeasures hle).1.mpr (by omega)
    have hsmall := hd.dataSize_le (not_lt.mp hge)
    rw [if_neg (by omega), BoltHeader.dataSize_toNat, if_neg (by omega)] at hres
    split_ifs at hres <;> obtain ⟨rfl, -⟩ := hres <;> cases herror
  · refine fun hsum => ⟨fun hlt => ?_, fun hle => ?_⟩
    · rw [if_pos hlt] at hres
      exact (congrArg Prod.fst hres).symm
    · rw [if_neg (by omega), BoltHeader.dataSize_toNat, Nat.mod_eq_of_lt (hsum hle),
        maxBoltBodySize] at hres
      split_ifs at hres with hbig hshort <;> obtain ⟨rfl, rfl, rfl⟩ := hres
      · exact ⟨iff_of_true rfl hbig, fun _ => by omega, by simp⟩
      · exact ⟨iff_of_false (by simp) hbig,
          fun _ => ⟨iff_of_false (by simp) (by omega), fun _ => rfl⟩, by simp⟩
      · exact ⟨iff_of_false (by simp) hbig,
          fun _ => ⟨iff_of_true rfl (by omega), fun _ => by omega⟩, fun _ => ⟨by omega, rfl⟩⟩

def heapOf (bs : Bytes) : Heap where
  block _ := { next := none, size := bs.length, capacity := 8168, data := fun i => bs.getD i 0 }
  fresh := 1
  tlsBlockChain _ := none

def bufferOf (bs : Bytes) : IOBuffer := ⟨[⟨0, 0, bs.length⟩], 0⟩

def partialFrame : Bytes := [1, 0, 0, 2, 1, 0, 0, 0, 7, 11, 0, 0, 0, 1, 0, 0, 0, 0, 0, 2, 99, 104]

theorem checkHeader_measures_partial :
    ∃ res size id, checkHeader (heapOf partialFrame) (bufferOf partialFrame) 0 0 =
        (res, size, id) ∧ res = .parseNotEnoughData := by
  refine ⟨_, _, _, rfl, ?_⟩
  have hbs : (bufferOf partialFrame).toString (heapOf partialFrame) = partialFrame := by decide
  have hmeasures := (checkHeader_measures (heapOf partialFrame) (bufferOf partialFrame) 0 0
    hbs rfl rfl).mpr (by decide)
  exact ((hmeasures.2 (by decide)).2.1 (by decide)).2 (by decide)

def wrappingFrame : Bytes :=
  [1, 0, 0, 2, 1, 0, 0, 0, 7, 11, 0, 0, 0, 1, 0, 0, 255, 255, 255, 255]

/-- The sum is 0 in 32 bits, so the header alone is taken for a frame. -/
theorem checkHeader_wraps :
    (bufferOf wrappingFrame).toString (heapOf wrappingFrame) = wrappingFrame ∧
      (BoltHeader.ofBytes wrappingFrame).bodySize = 2 ^ 32 ∧
      checkHeader (heapOf wrappingFrame) (bufferOf wrappingFrame) 0 0 = (.parseOk, 20, 7) := by
  decide +kernel

variable {h : Heap} {buffer : IOBuffer}

theorem cutSized_spec (hb : buffer.WF h) (left : UInt16) :
    match decodeString 4 (buffer.toString h) with
    | some (s, rest) => ∃ buffer', cutSized h buffer left =
        (buffer', left - 4 - UInt16.ofNat s.length, some s) ∧
        buffer'.WF h ∧ buffer'.toString h = rest
    | none => ∃ buffer' left', cutSized h buffer left = (buffer', left', none) := by
  obtain ⟨hb₁, ht₁, hr₁⟩ := cutVoid_spec hb 4
  unfold cutSized
  simp only [hr₁]
  by_cases h4 : (buffer.toString h).length < 4
  · have hdec : decodeString 4 (buffer.toString h) = none := by
      simp [decodeString, readExact_eq_none.mpr h4]
    rw [hdec, if_pos (by rw [List.length_take]; omega)]
    exact ⟨_, _, rfl⟩
  · have hraw : ((buffer.toString h).take 4).length = 4 := List.length_take_of_le (by omega)
    have hlt : decodeBE ((buffer.toString h).take 4) < 2 ^ 32 := by
      have := decodeBE_lt ((buffer.toString h).take 4)
      rwa [hraw] at this
    set size := decodeBE ((buffer.toString h).take 4) with hsize
    have hread : readExact 4 (buffer.toString h) =
        some ((buffer.toString h).take 4, (buffer.toString h).drop 4) := by
      rw [readExact, if_pos (by omega)]
    have hnat : (UInt32.ofNat size).toNat = size := by
      rw [UInt32.toNat_ofNat']
      omega
    have hdec : decodeString 4 (buffer.toString h) =
        readExact size ((buffer.toString h).drop 4) := by
      simp [decodeString, hread, hsize]
    obtain ⟨hb₂, ht₂, hr₂⟩ := cutVoid_spec hb₁ size
    rw [hdec, if_neg (by omega)]
    by_cases hpos : 0 < size
    · have hpos' : 0 < UInt32.ofNat size := by
        rw [UInt32.lt_iff_toNat_lt, hnat]
        exact hpos
      simp only [hpos', if_true, hnat, hr₂, ht₁]
      by_cases hle : size ≤ ((buffer.toString h).drop 4).length
      · have hlen : (((buffer.toString h).drop 4).take size).length = size :=
          List.length_take_of_le hle
        rw [readExact, if_pos hle, if_neg (by omega)]
        refine ⟨_, ?_, hb₂, by rw [ht₂, ht₁]⟩
        rw [hlen, UInt32.toUInt16_ofNat']
      · rw [readExact_eq_none.mpr (by omega), if_pos (by rw [List.length_take]; omega)]
        exact ⟨_, _, rfl⟩
    · obtain h0 : size = 0 := by omega
      have hpos' : ¬ 0 < UInt32.ofNat size := by simp [h0]
      rw [if_neg hpos', h0]
      exact ⟨_, by simp, hb₁, by simp [ht₁]⟩

theorem headerLoop_succ (hb : buffer.WF h) {left : UInt16} (hl : left ≠ 0) (fuel : ℕ)
    (m : Bytes → Option Bytes) :
    match decodeEntry 4 (buffer.toString h) with
    | some (e, rest) => ∃ buffer', headerLoop h (fuel + 1) buffer left m =
        headerLoop h fuel buffer' (left - UInt16.ofNat (encodeEntry 4 e).length)
          (emplace m e.1 e.2) ∧ buffer'.WF h ∧ buffer'.toString h = rest
    | none => ∃ buffer', headerLoop h (fuel + 1) buffer left m =
        some (buffer', m, .parseNotEnoughData) := by
  have hk := cutSized_spec hb left
  rw [headerLoop, if_neg hl, decodeEntry]
  cases hdk : decodeString 4 (buffer.toString h) with
  | none =>
    rw [hdk] at hk
    obtain ⟨buffer₁, left₁, e₁⟩ := hk
    exact ⟨buffer₁, by rw [e₁]⟩
  | some r =>
    obtain ⟨key, rest⟩ := r
    rw [hdk] at hk
    obtain ⟨buffer₁, e₁, hb₁, ht₁⟩ := hk
    have hv := cutSized_spec hb₁ (left - 4 - UInt16.ofNat key.length)
    simp only [Option.bind_eq_bind, Option.bind_some, e₁]
    rw [ht₁] at hv
    cases hdv : decodeString 4 rest with
    | none =>
      rw [hdv] at hv
      obtain ⟨buffer₂, left₂, e₂⟩ := hv
      exact ⟨buffer₂, by rw [e₂]⟩
    | some r =>
      obtain ⟨value, rest'⟩ := r
      rw [hdv] at hv
      obtain ⟨buffer₂, e₂, hb₂, ht₂⟩ := hv
      refine ⟨buffer₂, ?_, hb₂, ht₂⟩
      have hleft : left - 4 - UInt16.ofNat key.length - 4 - UInt16.ofNat value.length =
          left - UInt16.ofNat (encodeEntry 4 (key, value)).length := by
        simp only [encodeEntry_length, UInt16.ofNat_add]
        grind
      rw [e₂, hleft]

/-- The loop ends, and if it ends well it has decoded entries whose length is
`left_size` modulo 2^16. -/
theorem headerLoop_sound (fuel : ℕ) (hb : buffer.WF h)
    (hfuel : (buffer.toString h).length < fuel) (left : UInt16) (m : Bytes → Option Bytes) :
    ∃ buffer' m' res, headerLoop h fuel buffer left m = some (buffer', m', res) ∧
      (res = .parseOk → buffer'.WF h ∧ ∃ es : List Entry,
        buffer.toString h = es.flatMap (encodeEntry 4) ++ buffer'.toString h ∧
        left = UInt16.ofNat (es.flatMap (encodeEntry 4)).length) := by
  induction fuel generalizing buffer left m with
  | zero => omega
  | succ fuel ih =>
    by_cases hl : left = 0
    · exact ⟨buffer, m, .parseOk, by rw [headerLoop, if_pos hl], fun _ => ⟨hb, [], by simp, by simpa⟩⟩
    · have hstep := headerLoop_succ hb hl fuel m
      cases hd : decodeEntry 4 (buffer.toString h) with
      | none =>
        rw [hd] at hstep
        obtain ⟨buffer', e⟩ := hstep
        exact ⟨buffer', m, _, e, by simp⟩
      | some r =>
        obtain ⟨entry, rest⟩ := r
        rw [hd] at hstep
        obtain ⟨buffer₁, e₁, hb₁, ht₁⟩ := hstep
        obtain ⟨htxt, -⟩ := decodeEntry_eq_some hd
        have hshort : (buffer₁.toString h).length < fuel := by
          rw [htxt, List.length_append, encodeEntry_length] at hfuel
          rw [ht₁]
          omega
        obtain ⟨buffer', m', res, e₂, hok⟩ := ih hb₁ hshort
          (left - UInt16.ofNat (encodeEntry 4 entry).length) (emplace m entry.1 entry.2)
        refine ⟨buffer', m', res, e₁.trans e₂, fun hres => ?_⟩
        obtain ⟨hb', es, hes, hlen⟩ := hok hres
        refine ⟨hb', entry :: es, ?_, ?_⟩
        · rw [htxt, ← ht₁, hes, List.flatMap_cons, List.append_assoc]
        · rw [List.flatMap_cons, List.length_append, UInt16.ofNat_add, ← hlen]
          grind

/-- On a tiled section the loop decodes every entry and stops behind it. -/
theorem headerLoop_tiled (es : List Entry) (hfit : ∀ e ∈ es, e.Fits 4) {rest : Bytes}
    (hb : buffer.WF h) (ht : buffer.toString h = es.flatMap (encodeEntry 4) ++ rest)
    (hlen : (es.flatMap (encodeEntry 4)).length < 65536) {fuel : ℕ} (hfuel : es.length < fuel)
    (m : Bytes → Option Bytes) :
    ∃ buffer', headerLoop h fuel buffer (UInt16.ofNat (es.flatMap (encodeEntry 4)).length) m =
        some (buffer', es.foldl (fun m e => emplace m e.1 e.2) m, .parseOk) ∧
      buffer'.WF h ∧ buffer'.toString h = rest := by
  induction es generalizing buffer fuel m with
  | nil =>
    obtain ⟨fuel, rfl⟩ : ∃ k, fuel = k + 1 := ⟨fuel - 1, by simp at hfuel; omega⟩
    exact ⟨buffer, rfl, hb, ht⟩
  | cons e es ih =>
    obtain ⟨fuel, rfl⟩ : ∃ k, fuel = k + 1 := ⟨fuel - 1, by simp at hfuel; omega⟩
    rw [List.flatMap_cons, List.length_append] at hlen
    rw [List.flatMap_cons, List.append_assoc] at ht
    have hne : UInt16.ofNat ((e :: es).flatMap (encodeEntry 4)).length ≠ 0 := by
      rw [← UInt16.toNat_inj.ne, List.flatMap_cons, List.length_append, UInt16.toNat_ofNat',
        encodeEntry_length]
      rw [encodeEntry_length] at hlen
      have : UInt16.toNat 0 = 0 := rfl
      omega
    have hstep := headerLoop_succ hb hne fuel m
    rw [ht, decodeEntry_append (hfit e (by simp))] at hstep
    obtain ⟨buffer₁, e₁, hb₁, ht₁⟩ := hstep
    have hleft : UInt16.ofNat ((e :: es).flatMap (encodeEntry 4)).length -
        UInt16.ofNat (encodeEntry 4 e).length = UInt16.ofNat (es.flatMap (encodeEntry 4)).length := by
      rw [List.flatMap_cons, List.length_append, UInt16.ofNat_add]
      grind
    rw [hleft] at e₁
    obtain ⟨buffer', e₂, hb', ht'⟩ := ih (fun x hx => hfit x (by simp [hx])) hb₁ ht₁
      (by omega) (by simpa using hfuel) (emplace m e.1 e.2)
    exact ⟨buffer', e₁.trans e₂, hb', ht'⟩

theorem foldl_emplace_apply (es : List Entry) (m : Bytes → Option Bytes) (k : Bytes) :
    es.foldl (fun m e => emplace m e.1 e.2) m k = (m k).or (es.lookup k) := by
  induction es generalizing m with
  | nil => simp
  | cons e es ih =>
    obtain ⟨key, value⟩ := e
    rw [List.foldl_cons, ih, List.lookup_cons, emplace_apply]
    by_cases hk : k = key
    · subst hk
      cases m k <;> simp
    · have hbeq : (k == key) = false := by simpa using hk
      simp [hbeq, hk]

@[simp] theorem resizeAndCopy_of_length {str bs : Bytes} {n : ℕ} (hn : bs.length = n) :
    resizeAndCopy str n bs = bs := by
  have hle : ((str ++ List.replicate n 0).take n).length ≤ bs.length := by
    rw [List.length_take, hn]
    exact min_le_left _ _
  rw [resizeAndCopy, List.drop_eq_nil_of_le hle, List.append_nil]

variable {r : BoltResponse M} {cls kvs content target : Bytes}

def written (target content : Bytes) : Bytes := if content = [] then target else content

@[simp] theorem written_nil (content : Bytes) : written [] content = content := by
  unfold written
  split_ifs with h
  · exact h.symm
  · rfl

theorem deserializeContent_ok (parse : Bytes → Option (M × ℕ)) (hb : buffer.WF h)
    (hdata : r.data = .string target)
    (hn : r.header.contentLen.toNat ≤ (buffer.toString h).length) :
    ∃ buffer', deserializeContent h parse r buffer =
        ({ r with data := .string (written target
          ((buffer.toString h).take r.header.contentLen.toNat)) }, buffer', .parseOk) ∧
      buffer'.toString h = (buffer.toString h).drop r.header.contentLen.toNat := by
  set n := r.header.contentLen.toNat with hndef
  obtain ⟨-, ht, hr⟩ := cutVoid_spec hb n
  have hlen : ((buffer.toString h).take n).length = n := List.length_take_of_le hn
  by_cases hpos : 0 < n
  · have hne : (buffer.toString h).take n ≠ [] := List.ne_nil_of_length_pos (hlen.symm ▸ hpos)
    refine ⟨(buffer.cutVoid h n).1, ?_, ht⟩
    simp only [deserializeContent, ← hndef, hpos, if_true, hdata, hr, hlen, lt_irrefl, if_false,
      resizeAndCopy_of_length hlen, written, hne]
  · have hz : n = 0 := by omega
    refine ⟨buffer, ?_, by rw [hz, List.drop_zero]⟩
    rw [hz, List.take_zero, written, if_pos rfl, ← hdata]
    simp only [deserializeContent, ← hndef, hpos, if_false]

theorem deserializeContent_short (parse : Bytes → Option (M × ℕ)) (hb : buffer.WF h)
    (hdata : r.data = .string target)
    (hn : (buffer.toString h).length < r.header.contentLen.toNat) :
    (deserializeContent h parse r buffer).2.2 = .parseNotEnoughData := by
  obtain ⟨-, -, hr⟩ := cutVoid_spec hb r.header.contentLen.toNat
  have hpos : 0 < r.header.contentLen.toNat := by omega
  have hlt : ((buffer.toString h).take r.header.contentLen.toNat).length <
      r.header.contentLen.toNat := by
    rw [List.length_take]
    omega
  simp only [deserializeContent, hpos, if_true, hdata, hr, hlt]

/-- The class name is there, so the body is the loop and the content. -/
theorem deserializeBody_eq (parse : Bytes → Option (M × ℕ)) (hb : buffer.WF h)
    (ht : buffer.toString h = cls ++ content)
    (hcls : cls.length = r.header.classLen.toNat) :
    ∃ buffer', buffer'.WF h ∧ buffer'.toString h = content ∧
      deserializeBody h parse r buffer =
        (headerLoop h (content.length + 1) buffer' r.header.headerLen r.headerMap).bind fun x =>
          if x.2.2 = .parseOk then
            some (deserializeContent h parse
              { r with className := cls, headerMap := x.2.1 } x.1)
          else some ({ r with className := cls, headerMap := x.2.1 }, x.1, x.2.2) := by
  obtain ⟨hb₁, ht₁, hr₁⟩ := cutVoid_spec hb r.header.classLen.toNat
  rw [ht, List.drop_left' hcls] at ht₁
  rw [ht, List.take_left' hcls] at hr₁
  refine ⟨_, hb₁, ht₁, ?_⟩
  have hlt : ¬ cls.length < r.header.classLen.toNat := by omega
  simp only [deserializeBody, hr₁, hlt, if_false, resizeAndCopy_of_length hcls, length_eq _ h, ht₁]
  rfl

theorem deserializeBody_tiled (parse : Bytes → Option (M × ℕ)) (hb : buffer.WF h)
    (es : List Entry) (hfit : ∀ e ∈ es, e.Fits 4)
    (ht : buffer.toString h = cls ++ (es.flatMap (encodeEntry 4) ++ content))
    (hcls : cls.length = r.header.classLen.toNat)
    (hes : (es.flatMap (encodeEntry 4)).length = r.header.headerLen.toNat)
    (hcon : content.length = r.header.contentLen.toNat) (hdata : r.data = .string target) :
    ∃ buffer', deserializeBody h parse r buffer =
        some ({ r with
          className := cls
          headerMap := es.foldl (fun m e => emplace m e.1 e.2) r.headerMap
          data := .string (written target content) }, buffer', .parseOk) ∧
      buffer'.toString h = [] := by
  obtain ⟨buffer₁, hb₁, ht₁, he⟩ := deserializeBody_eq parse hb ht hcls
  have hlt := r.header.headerLen.toNat_lt
  have hfuel : es.length < (es.flatMap (encodeEntry 4) ++ content).length + 1 := by
    have hsum : es.length ≤ (es.map fun e => (encodeEntry 4 e).length).sum := by
      refine (List.length_map (fun e => (encodeEntry 4 e).length)).symm.trans_le ?_
      refine List.length_le_sum_of_one_le _ fun i hi => ?_
      obtain ⟨e, -, rfl⟩ := List.mem_map.mp hi
      rw [encodeEntry_length]
      omega
    rw [List.length_append, List.length_flatMap]
    omega
  obtain ⟨buffer₂, e₂, hb₂, ht₂⟩ := headerLoop_tiled es hfit hb₁ ht₁ (by omega) hfuel r.headerMap
  rw [hes, UInt16.ofNat_toNat] at e₂
  have hn : r.header.contentLen.toNat ≤ (buffer₂.toString h).length := by rw [ht₂, hcon]
  obtain ⟨buffer₃, e₃, ht₃⟩ := deserializeContent_ok parse
    (r := { r with
      className := cls
      headerMap := es.foldl (fun m e => emplace m e.1 e.2) r.headerMap }) hb₂ hdata hn
  rw [ht₂, ← hcon, List.take_length] at e₃
  rw [ht₂, ← hcon, List.drop_length] at ht₃
  refine ⟨buffer₃, ?_, ht₃⟩
  rw [he, e₂]
  exact congrArg some e₃

/-- A wrapped counter cannot hide an overrun: the entries would have to take
65536 bytes of the content, and then the content is short. -/
theorem deserializeBody_sound (parse : Bytes → Option (M × ℕ)) (hb : buffer.WF h)
    (ht : buffer.toString h = cls ++ (kvs ++ content))
    (hcls : cls.length = r.header.classLen.toNat) (hkvs : kvs.length = r.header.headerLen.toNat)
    (hcon : content.length = r.header.contentLen.toNat) (hdata : r.data = .string target) :
    ∃ r' buffer' res, deserializeBody h parse r buffer = some (r', buffer', res) ∧
      (res = .parseOk → ∃ es : List Entry, kvs = es.flatMap (encodeEntry 4)) := by
  obtain ⟨buffer₁, hb₁, ht₁, he⟩ := deserializeBody_eq parse hb ht hcls
  obtain ⟨buffer₂, m, res, e₂, hok⟩ := headerLoop_sound ((kvs ++ content).length + 1) hb₁
    (by rw [ht₁]; omega) r.header.headerLen r.headerMap
  rw [he, e₂, Option.bind_some]
  by_cases hres : res = .parseOk
  · obtain ⟨hb₂, es, hes, hleft⟩ := hok hres
    set r₂ : BoltResponse M := { r with className := cls, headerMap := m }
    have hshort := deserializeContent_short (r := r₂) parse hb₂ hdata
    obtain ⟨r', buffer', res', hc⟩ : ∃ r' buffer' res',
        deserializeContent h parse r₂ buffer₂ = (r', buffer', res') := ⟨_, _, _, rfl⟩
    rw [if_pos hres, hc]
    refine ⟨r', buffer', res', rfl, fun hres' => ⟨es, ?_⟩⟩
    have hn : content.length ≤ (buffer₂.toString h).length := by
      rw [hc, hres'] at hshort
      by_contra hlt
      exact EResParseResult.noConfusion (hshort (by change _ < r.header.contentLen.toNat; omega))
    rw [ht₁] at hes
    -- no more than `header_len` bytes were taken, and as many modulo 2^16
    have hsum := congrArg List.length hes
    have hmod := congrArg UInt16.toNat hleft
    have hlt := r.header.headerLen.toNat_lt
    rw [List.length_append, List.length_append] at hsum
    rw [UInt16.toNat_ofNat', ← hkvs] at hmod
    have hlen : kvs.length = (es.flatMap (encodeEntry 4)).length := by omega
    exact (List.append_inj hes hlen).1
  · exact ⟨_, _, res, if_neg hres, fun h => absurd h hres⟩

def BoltResponse.ofString (header : BoltHeader) (target : Bytes) : BoltResponse M where
  header := header
  className := []
  headerMap := fun _ => none
  data := .string target

theorem deserialize_eq_body (parse : Bytes → Option (M × ℕ)) (hb : buffer.WF h)
    (hf : IsFrame (buffer.toString h))
    (hproto : (BoltHeader.ofBytes (buffer.toString h)).proto = 1)
    (htype : (BoltHeader.ofBytes (buffer.toString h)).type = 0)
    (hcmd : (BoltHeader.ofBytes (buffer.toString h)).cmdcode = 2)
    (hstatus : (BoltHeader.ofBytes (buffer.toString h)).status = 0) :
    ∃ buffer', buffer'.WF h ∧ buffer'.toString h = (buffer.toString h).drop boltHeaderSize ∧
      deserialize h parse r buffer =
        deserializeBody h parse { r with header := BoltHeader.ofBytes (buffer.toString h) }
          buffer' := by
  obtain ⟨hb₁, ht₁, hr₁⟩ := cutVoid_spec hb boltHeaderSize
  refine ⟨_, hb₁, ht₁, ?_⟩
  have hlen : ((buffer.toString h).take boltHeaderSize).length = boltHeaderSize :=
    List.length_take_of_le hf.1
  simp only [deserialize, hr₁, hlen, lt_irrefl, if_false, BoltHeader.ofBytes_take le_rfl, hproto,
    htype, hcmd, hstatus]
  rfl

/-- On a frame of a successful response `deserialize` returns, and it accepts
exactly if the header section is tiled by entries; then it has decoded the
three sections and used up the buffer. -/
theorem deserialize_accepts_iff_tiled (parse : Bytes → Option (M × ℕ)) (header : BoltHeader)
    (hb : buffer.WF h) (hf : IsFrame (buffer.toString h))
    (hproto : (BoltHeader.ofBytes (buffer.toString h)).proto = 1)
    (htype : (BoltHeader.ofBytes (buffer.toString h)).type = 0)
    (hcmd : (BoltHeader.ofBytes (buffer.toString h)).cmdcode = 2)
    (hstatus : (BoltHeader.ofBytes (buffer.toString h)).status = 0) :
    ∃ r' buffer' res,
      deserialize h parse (BoltResponse.ofString header []) buffer = some (r', buffer', res) ∧
      (res = .parseOk ↔
        ∃ es : List Entry, headerSection (buffer.toString h) = es.flatMap (encodeEntry 4)) ∧
      ∀ es : List Entry, headerSection (buffer.toString h) = es.flatMap (encodeEntry 4) →
        r'.className = classSection (buffer.toString h) ∧
        (∀ k, r'.headerMap k = es.lookup k) ∧
        r'.data = .string (contentSection (buffer.toString h)) ∧
        buffer'.toString h = [] := by
  set bs := buffer.toString h with hbs
  obtain ⟨buffer₁, hb₁, ht₁, he⟩ := deserialize_eq_body (r := BoltResponse.ofString header [])
    parse hb hf hproto htype hcmd hstatus
  obtain ⟨-, hcls, hkvs, hcon⟩ := hf.sections
  have ht : buffer₁.toString h = classSection bs ++ (headerSection bs ++ contentSection bs) :=
    ht₁.trans hf.drop_header
  obtain ⟨r', buffer', res, e, hsound⟩ := deserializeBody_sound parse hb₁ ht
    (r := BoltResponse.ofString (BoltHeader.ofBytes bs) []) hcls hkvs hcon rfl
  -- what the run does on a tiled section
  have htiled : ∀ es : List Entry, headerSection bs = es.flatMap (encodeEntry 4) →
      r'.className = classSection bs ∧ (∀ k, r'.headerMap k = es.lookup k) ∧
        r'.data = .string (contentSection bs) ∧ buffer'.toString h = [] ∧ res = .parseOk := by
    intro es hes
    have hlt := (BoltHeader.ofBytes bs).headerLen.toNat_lt
    rw [hes] at ht hkvs
    obtain ⟨buffer₂, e₂, ht₂⟩ := deserializeBody_tiled parse hb₁ es
      (fits_of_flatMap_lt (by omega)) ht
      (r := BoltResponse.ofString (BoltHeader.ofBytes bs) []) hcls hkvs hcon rfl
    rw [written_nil] at e₂
    obtain ⟨rfl, he₂⟩ := Prod.mk.inj (Option.some.inj (e.symm.trans e₂))
    obtain ⟨rfl, rfl⟩ := Prod.mk.inj he₂
    exact ⟨rfl, fun k => foldl_emplace_apply es _ k, rfl, ht₂, rfl⟩
  refine ⟨r', buffer', res, he.trans e, ⟨hsound, fun h => ?_⟩, ?_⟩
  · obtain ⟨es, hes⟩ := h
    exact (htiled es hes).2.2.2.2
  · intro es hes
    obtain ⟨h₁, h₂, h₃, h₄, -⟩ := htiled es hes
    exact ⟨h₁, h₂, h₃, h₄⟩

def sampleHeap : Heap where
  block _ :=
    { next := none, size := 43, capacity := 8168
      data := fun i =>
        ([1, 0, 0, 2, 1, 0, 0, 0, 7, 11, 0, 0, 0, 1, 0, 20, 0, 0, 0, 2, 99,
          0, 0, 0, 1, 107, 0, 0, 0, 1, 118, 0, 0, 0, 1, 107, 0, 0, 0, 1, 119,
          104, 105] : Bytes).getD i 0 }
  fresh := 1
  tlsBlockChain _ := none

def sampleBuffer : IOBuffer := ⟨[⟨0, 0, 13⟩, ⟨0, 13, 30⟩], 0⟩

theorem deserialize_accepts_iff_tiled_sample :
    ∃ r' buffer', deserialize sampleHeap (fun _ => (none : Option (Unit × ℕ)))
        (BoltResponse.ofString (BoltHeader.ofBytes []) []) sampleBuffer =
          some (r', buffer', .parseOk) ∧
      r'.className = [99] ∧ r'.headerMap [107] = some [118] ∧ r'.data = .string [104, 105] ∧
      buffer'.toString sampleHeap = [] := by
  have hwf : sampleBuffer.WF sampleHeap := ⟨by decide, by unfold Slice.InBlock; decide⟩
  obtain ⟨r', buffer', res, e, hiff, hall⟩ := deserialize_accepts_iff_tiled
    (fun _ => (none : Option (Unit × ℕ))) (BoltHeader.ofBytes []) hwf (by decide) (by decide)
    (by decide) (by decide) (by decide)
  have hsec : headerSection (sampleBuffer.toString sampleHeap) =
      [([107], [118]), ([107], [119])].flatMap (encodeEntry 4) := by decide
  obtain rfl := hiff.mpr ⟨_, hsec⟩
  obtain ⟨hcls, hmap, hdata, hempty⟩ := hall _ hsec
  exact ⟨r', buffer', e, hcls.trans (by decide), (hmap [107]).trans rfl,
    hdata.trans (congrArg _ (by decide)), hempty⟩

end SofaBolt.Bolt
