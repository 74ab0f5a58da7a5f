import LinuxServer.Reactor.BufferShrink

/-! Typed integers through the buffer: appended in network order, peeked and read
back by their types. -/
namespace LinuxServer.Reactor.BufferInts
open LinuxServer.Lib BufferShrink
open Buffer (int8Variable)

inductive IntType where
  | int8
  | int16
  | int32
  deriving DecidableEq

def IntType.size : IntType → Nat
  | .int8 => 1
  | .int16 => 2
  | .int32 => 4

inductive IntVal where
  | int8 (v : BitVec 8)
  | int16 (v : BitVec 16)
  | int32 (v : BitVec 32)
  deriving DecidableEq

namespace IntVal

def type : IntVal → IntType
  | .int8 _ => .int8
  | .int16 _ => .int16
  | .int32 _ => .int32

/-- The big-endian bytes on the wire. -/
def wire : IntVal → List UInt8
  | .int8 v => beBytes 1 v.toNat
  | .int16 v => beBytes 2 v.toNat
  | .int32 v => beBytes 4 v.toNat

/-- What the reading function of the type makes of the value. -/
def received : IntVal → IntVal
  | .int8 v => .int8 v
  | .int16 v => .int16 v
  | .int32 v => .int32 (int8Variable v)

/-- The value is in the range of the local variable that carries it through its
reading function: of int8_t for the 32-bit type. -/
def Fits : IntVal → Prop
  | .int8 _ | .int16 _ => True
  | .int32 v => -128 ≤ v.toInt ∧ v.toInt ≤ 127

instance (v : IntVal) : Decidable v.Fits := by cases v <;> (dsimp only [Fits]; infer_instance)

theorem wire_length (v : IntVal) : v.wire.length = v.type.size := by
  cases v <;> exact beBytes_length _ _

end IntVal

def append (b : Buffer) : IntVal → Except Halt Buffer
  | .int8 v => b.appendInt8 v
  | .int16 v => b.appendInt16 v
  | .int32 v => b.appendInt32 v

def peek (b : Buffer) : IntType → Except Halt IntVal
  | .int8 => .int8 <$> b.peekInt8
  | .int16 => .int16 <$> b.peekInt16
  | .int32 => .int32 <$> b.peekInt32

def read (b : Buffer) : IntType → Except Halt (Buffer × IntVal)
  | .int8 => Prod.map id .int8 <$> b.readInt8
  | .int16 => Prod.map id .int16 <$> b.readInt16
  | .int32 => Prod.map id .int32 <$> b.readInt32

def appendAll (b : Buffer) (vs : List IntVal) : Except Halt Buffer := vs.foldlM append b

/-- Read one value of each type in turn. -/
def readAll (b : Buffer) : List IntType → Except Halt (Buffer × List IntVal)
  | [] => .ok (b,[])
  | t :: ts => do
    let (b',v) ← read b t
    let (b'',vs) ← readAll b' ts
    .ok (b'',v :: vs)

/-! Reading is peeking and retrieving, but for the variable. -/

def consume (b : Buffer) (n : Nat) : Buffer := { b with readerIndex := b.readerIndex + n }

/-- A peeking function that asserts its bytes are readable lets the read go through. -/
theorem readInt_eq {w n : Nat} {pk : Buffer → Except Halt (BitVec w)} {f : BitVec w → BitVec w} {b : Buffer}
    (h : ∀ v, pk b = .ok v → n ≤ b.readableBytes) :
    b.readInt pk f n = (fun v => (consume b n,f v)) <$> pk b := by
  cases hp : pk b with
  | error e =>
    rw [Buffer.readInt,hp]
    rfl
  | ok v =>
    simp only [Buffer.readInt,hp,ok_bind,Buffer.retrieve,ensure_of _ (h v hp)]
    rfl

theorem peek_asserts {b : Buffer} {t : IntType} {v : IntVal} (h : peek b t = .ok v) : t.size ≤ b.readableBytes := by
  cases t with
  | int8 =>
    obtain ⟨x,hx,-⟩ := (map_ok_iff _ _ _).mp h
    obtain ⟨u,hu,-⟩ := (bind_ok_iff _ _ _).mp hx
    exact (ensure_ok_iff _ _ _).mp hu
  | int16 =>
    obtain ⟨x,hx,-⟩ := (map_ok_iff _ _ _).mp h
    obtain ⟨u,hu,-⟩ := (bind_ok_iff _ _ _).mp hx
    exact (ensure_ok_iff _ _ _).mp hu
  | int32 =>
    obtain ⟨x,hx,-⟩ := (map_ok_iff _ _ _).mp h
    obtain ⟨u,hu,-⟩ := (bind_ok_iff _ _ _).mp hx
    exact (ensure_ok_iff _ _ _).mp hu

/-- In every state each read takes its bytes and gives the peeked value as the
variable holds it; where the peek stops, it stops alike. -/
theorem read_eq (b : Buffer) (t : IntType) :
    read b t = (fun v => (consume b t.size,v.received)) <$> peek b t := by
  have asserts {w : Nat} {pk : Buffer → Except Halt (BitVec w)} {c : BitVec w → IntVal}
      (hpk : peek b t = c <$> pk b) : ∀ v, pk b = .ok v → t.size ≤ b.readableBytes := by
    intro v hv
    apply peek_asserts (v := c v)
    rw [hpk,hv]
    rfl
  cases t with
  | int8 =>
    rw [read,Buffer.readInt8,readInt_eq (n := 1) (asserts (c := .int8) rfl),peek]
    cases b.peekInt8 <;> rfl
  | int16 =>
    rw [read,Buffer.readInt16,readInt_eq (n := 2) (asserts (c := .int16) rfl),peek]
    cases b.peekInt16 <;> rfl
  | int32 =>
    rw [read,Buffer.readInt32,readInt_eq (n := 4) (asserts (c := .int32) rfl),peek]
    cases b.peekInt32 <;> rfl

theorem int8Variable_eq_iff (v : BitVec 32) : int8Variable v = v ↔ -128 ≤ v.toInt ∧ v.toInt ≤ 127 := by
  have htoInt : (int8Variable v).toInt = v.toInt.bmod 256 := by
    rw [int8Variable,BitVec.toInt_signExtend_of_le (by decide),BitVec.toInt_setWidth,BitVec.toInt_eq_toNat_bmod,
      Int.bmod_bmod_of_dvd (by decide)]
  rw [← BitVec.toInt_inj,htoInt]
  constructor
  · intro h
    have hlt : v.toInt.bmod 256 < 128 := Int.bmod_lt (by decide)
    have hle : -128 ≤ v.toInt.bmod 256 := Int.le_bmod (by decide)
    omega
  · rintro ⟨hle,hlt⟩
    exact Int.bmod_eq_of_le hle (Int.lt_add_one_of_le hlt)

theorem received_eq_iff (v : IntVal) : v.received = v ↔ v.Fits := by
  cases v with
  | int8 v => exact iff_of_true rfl trivial
  | int16 v => exact iff_of_true rfl trivial
  | int32 v =>
    rw [IntVal.received,IntVal.int32.injEq]
    exact int8Variable_eq_iff v

/-! Typed values on a well-formed buffer. -/

theorem append_ok {b : Buffer} (h : b.WF) (v : IntVal) :
    ∃ b', append b v = .ok b' ∧ b'.WF ∧ b'.readable = b.readable ++ v.wire := by
  cases v with
  | int8 v =>
    obtain ⟨b',he,hwf,hread,-⟩ := Buffer.append_ok h (memoryBytes 1 v)
    exact ⟨b',he,hwf,hread⟩
  | int16 v =>
    obtain ⟨b',he,hwf,hread,-⟩ := Buffer.append_ok h (memoryBytes 2 (hostToNetwork16 v))
    exact ⟨b',he,hwf,by rw [hread,memory_hostToNetwork16]; rfl⟩
  | int32 v =>
    obtain ⟨b',he,hwf,hread,-⟩ := Buffer.append_ok h (memoryBytes 4 (hostToNetwork32 v))
    exact ⟨b',he,hwf,by rw [hread,memory_hostToNetwork32]; rfl⟩

/-- Decoding the big-endian digits of a value gives it back. -/
theorem ofNat_ofBeBytes {k w : Nat} (hw : 256 ^ k = 2 ^ w) (v : BitVec w) :
    BitVec.ofNat w (ofBeBytes (beBytes k v.toNat)) = v := by
  rw [ofBeBytes_beBytes,hw,Nat.mod_eq_of_lt v.isLt,BitVec.ofNat_toNat,BitVec.setWidth_eq]

/-- Peeking the type of the first value gives that value. -/
theorem peek_ok {b : Buffer} (h : b.WF) {v : IntVal} {rest : List UInt8} (hr : b.readable = v.wire ++ rest) :
    peek b v.type = .ok v := by
  have hlen := h.readable_length
  have hwire := v.wire_length
  rw [hr,List.length_append,hwire] at hlen
  have hn : v.type.size ≤ b.readableBytes := by omega
  have hbytes : b.peek v.type.size = .ok v.wire := by
    rw [Buffer.peek_ok h hn,hr,← hwire,List.take_left]
  cases v with
  | int8 v =>
    have hval : ofMemory 8 (beBytes 1 v.toNat) = v := ofNat_ofBeBytes (k := 1) rfl v
    simp only [IntVal.type,IntType.size,IntVal.wire] at hn hbytes
    simp only [peek,IntVal.type,Buffer.peekInt8,ensure_of _ hn,ok_bind,hbytes,hval]
    rfl
  | int16 v =>
    have hval := networkToHost16_ofMemory (beBytes 2 v.toNat) (beBytes_length _ _)
    rw [ofNat_ofBeBytes rfl] at hval
    simp only [IntVal.type,IntType.size,IntVal.wire] at hn hbytes
    simp only [peek,IntVal.type,Buffer.peekInt16,ensure_of _ hn,ok_bind,hbytes,hval]
    rfl
  | int32 v =>
    have hval := networkToHost32_ofMemory (beBytes 4 v.toNat) (beBytes_length _ _)
    rw [ofNat_ofBeBytes rfl] at hval
    simp only [IntVal.type,IntType.size,IntVal.wire] at hn hbytes
    simp only [peek,IntVal.type,Buffer.peekInt32,ensure_of _ hn,ok_bind,hbytes,hval]
    rfl

theorem read_ok {b : Buffer} (h : b.WF) {v : IntVal} {rest : List UInt8} (hr : b.readable = v.wire ++ rest) :
    ∃ b', read b v.type = .ok (b',v.received) ∧ b'.WF ∧ b'.readable = rest := by
  have hp := peek_ok h hr
  obtain ⟨b',hb',hwf,hread⟩ := Buffer.retrieve_ok h (peek_asserts hp)
  refine ⟨b',?_,hwf,?_⟩
  · obtain ⟨u,-,hb'⟩ := (bind_ok_iff _ _ _).mp hb'
    cases hb'
    rw [read_eq,hp]
    rfl
  · rw [hread,hr,← v.wire_length,List.drop_left]

theorem appendAll_ok {b : Buffer} (h : b.WF) (vs : List IntVal) :
    ∃ b', appendAll b vs = .ok b' ∧ b'.WF ∧ b'.readable = b.readable ++ vs.flatMap IntVal.wire := by
  induction vs generalizing b with
  | nil => exact ⟨b,rfl,h,by simp⟩
  | cons v vs ih =>
    obtain ⟨b₁,he,hwf,hread⟩ := append_ok h v
    obtain ⟨b₂,he₂,hwf₂,hread₂⟩ := ih hwf
    refine ⟨b₂,?_,hwf₂,?_⟩
    · rw [appendAll,List.foldlM_cons,he,ok_bind]
      exact he₂
    · rw [hread₂,hread,List.flatMap_cons,List.append_assoc]

/-- Reading the types of the values that lie in the buffer gives what the
variables hold of them, in order. -/
theorem readAll_ok {b : Buffer} (h : b.WF) {vs : List IntVal} (hr : b.readable = vs.flatMap IntVal.wire) :
    ∃ b', readAll b (vs.map IntVal.type) = .ok (b',vs.map IntVal.received) ∧ b'.WF ∧ b'.readable = [] := by
  induction vs generalizing b with
  | nil => exact ⟨b,rfl,h,hr⟩
  | cons v vs ih =>
    obtain ⟨b₁,he,hwf,hread⟩ := read_ok h hr
    obtain ⟨b₂,he₂,hwf₂,hread₂⟩ := ih hwf hread
    refine ⟨b₂,?_,hwf₂,hread₂⟩
    simp only [List.map_cons,readAll,he,he₂,ok_bind]

/-! Where the round trip holds. -/

/-- Append the values, read their types, get the same values and an empty buffer. -/
def RoundTrips (b : Buffer) (vs : List IntVal) : Prop :=
  ∃ b₁ b₂, appendAll b vs = .ok b₁ ∧ readAll b₁ (vs.map IntVal.type) = .ok (b₂,vs) ∧ b₂.readableBytes = 0

/-- Reading gives the peeked value and takes its bytes, or stops as peeking stops. -/
def ReadsAsPeeks (b : Buffer) (t : IntType) : Prop :=
  read b t = (fun v => (consume b t.size,v)) <$> peek b t

/-- Behind the end of the vector nothing can be appended. -/
theorem append_fails {b : Buffer} (hw : b.vBuffer.length < b.writerIndex) (hs : b.writerIndex < 2 ^ 63)
    {data : List UInt8} (hd : data.length ≤ 4) : b.append data = .error .outOfBounds := by
  have hwide : b.writeableBytes = 2 ^ 64 + b.vBuffer.length - b.writerIndex := if_neg (by omega)
  have hroom : ¬ b.writeableBytes < data.length := by omega
  have hbound : ¬ b.writerIndex + data.length ≤ b.vBuffer.length := by omega
  simp only [Buffer.append,Buffer.ensureWritableBytes,hroom,if_false,ok_bind,ensure_of _ (not_lt.mp hroom),
    Buffer.store,copyTo,ensure_not _ hbound]
  rfl

theorem appendAll_fails {b : Buffer} (hw : b.vBuffer.length < b.writerIndex) (hs : b.writerIndex < 2 ^ 63)
    (v : IntVal) (vs : List IntVal) : appendAll b (v :: vs) = .error .outOfBounds := by
  have h : append b v = .error .outOfBounds := by
    cases v with
    | int8 v => exact append_fails hw hs (by simp [memoryBytes])
    | int16 v => exact append_fails hw hs (by simp [memoryBytes])
    | int32 v => exact append_fails hw hs (by simp [memoryBytes])
  rw [appendAll,List.foldlM_cons,h]
  rfl

theorem map_received_eq_iff (vs : List IntVal) : vs.map IntVal.received = vs ↔ ∀ v ∈ vs, v.Fits := by
  rw [← List.map_id' vs,List.map_map,List.map_inj_left]
  simp only [List.map_id',Function.comp_apply,received_eq_iff]

theorem roundTrips_iff {b : Buffer} (hb : Left b) (he : b.readableBytes = 0) (vs : List IntVal) :
    RoundTrips b vs ↔ (vs = [] ∨ b.writerIndex ≤ b.vBuffer.length) ∧ ∀ v ∈ vs, v.Fits := by
  cases vs with
  | nil => exact iff_of_true ⟨b,b,rfl,rfl,he⟩ ⟨.inl rfl,by simp⟩
  | cons v vs =>
    by_cases hw : b.writerIndex ≤ b.vBuffer.length
    · have hwf := hb.ordered.wf hw
      have hempty : b.readable = [] := by rw [Buffer.readable,he,List.take_zero]
      obtain ⟨b₁,h₁,hwf₁,hread₁⟩ := appendAll_ok hwf (v :: vs)
      rw [hempty,List.nil_append] at hread₁
      obtain ⟨b₂,h₂,hwf₂,hread₂⟩ := readAll_ok hwf₁ hread₁
      have hzero : b₂.readableBytes = 0 := by rw [← hwf₂.readable_length,hread₂]; rfl
      rw [← map_received_eq_iff]
      constructor
      · rintro ⟨c₁,c₂,hc₁,hc₂,-⟩
        rw [h₁] at hc₁
        cases hc₁
        rw [h₂] at hc₂
        exact ⟨.inr hw,(Prod.ext_iff.mp (Except.ok.inj hc₂)).2⟩
      · rintro ⟨-,hv⟩
        exact ⟨b₁,b₂,h₁,by rw [h₂,hv],hzero⟩
    · refine iff_of_false ?_ (by simp [hw])
      rintro ⟨b₁,b₂,h₁,-⟩
      rw [appendAll_fails (not_le.mp hw) hb.1] at h₁
      cases h₁

theorem readsAsPeeks_iff (b : Buffer) (t : IntType) : ReadsAsPeeks b t ↔ ∀ v, peek b t = .ok v → v.Fits := by
  rw [ReadsAsPeeks,read_eq]
  cases hp : peek b t with
  | error e => exact iff_of_true rfl (by simp)
  | ok v =>
    constructor
    · intro h u hu
      cases hu
      exact (received_eq_iff v).mp (Prod.ext_iff.mp (Except.ok.inj h)).2
    · intro h
      have hv := (received_eq_iff v).mpr (h v rfl)
      change Except.ok (consume b t.size,v.received) = .ok (consume b t.size,v)
      rw [hv]

/-- Typed integers survive the buffer exactly when the 32-bit ones are in the range
of int8_t (and the vector reaches to the write index, which only an unsafe Shrink
undoes), and a read returns what the peek returns under the same condition. -/
theorem ints_roundTrip_iff (b : Buffer) (vs : List IntVal) (t : IntType) :
    (Left b → b.readableBytes = 0 → (RoundTrips b vs ↔
      (vs = [] ∨ b.writerIndex ≤ b.vBuffer.length) ∧ ∀ v ∈ vs, v.Fits)) ∧
    (ReadsAsPeeks b t ↔ ∀ v, peek b t = .ok v → v.Fits) :=
  ⟨fun hb he => roundTrips_iff hb he vs,readsAsPeeks_iff b t⟩

theorem left_new : Left .new := ⟨by decide,[],fun _ => .new,0,trivial,rfl,rfl⟩

/-- The least and the greatest values that survive, and the least of them peeked and read. -/
theorem ints_roundTrip_iff_extremes :
    RoundTrips .new [.int8 0x80,.int32 (-128),.int16 0x8000,.int32 127,.int8 0x7f] ∧
      ∃ b, peek b .int32 = .ok (.int32 (-128)) ∧ ReadsAsPeeks b .int32 := by
  obtain ⟨b,-,hwf,hread⟩ := appendAll_ok Buffer.new_wf [.int32 (-128)]
  have hp : peek b .int32 = .ok (.int32 (-128)) := peek_ok (v := .int32 (-128)) hwf hread
  refine ⟨((ints_roundTrip_iff .new _ .int32).1 left_new rfl).mpr (by decide +kernel),b,hp,
    (ints_roundTrip_iff b [] .int32).2.mpr ?_⟩
  intro v hv
  rw [hp] at hv
  cases hv
  decide

/-- The number 200 comes back as -56: a four-byte read returns the low byte. -/
theorem readInt32_truncates :
    ∃ b₁ b₂, appendAll .new [.int32 200] = .ok b₁ ∧ peek b₁ .int32 = .ok (.int32 200) ∧
      readAll b₁ [.int32] = .ok (b₂,[.int32 (-56)]) ∧ ¬ RoundTrips .new [.int32 200] ∧ ¬ ReadsAsPeeks b₁ .int32 := by
  obtain ⟨b₁,h₁,hwf,hread⟩ := appendAll_ok Buffer.new_wf [.int32 200]
  obtain ⟨b₂,h₂,-⟩ := readAll_ok hwf hread
  have hp : peek b₁ .int32 = .ok (.int32 200) := peek_ok (v := .int32 200) hwf hread
  refine ⟨b₁,b₂,h₁,hp,h₂,?_,?_⟩
  · rw [roundTrips_iff left_new rfl]
    decide +kernel
  · rw [readsAsPeeks_iff]
    intro h
    exact absurd (h _ hp) (by decide)

end LinuxServer.Reactor.BufferInts
