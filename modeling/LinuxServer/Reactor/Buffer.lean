import LinuxServer.Lib.Bytes
import LinuxServer.Lib.Machine

/-! The network buffer: one vector, a read index and a write index.
Every operation runs its own asserts and checks the memory it touches. -/
namespace LinuxServer.Reactor
open LinuxServer.Lib

/-- Unsigned subtraction of the host's size_t, which wraps below zero. -/
def sizeSub (a b : Nat) : Nat := if b ≤ a then a - b else 2 ^ 64 + a - b

@[simp] theorem sizeSub_of_le {a b : Nat} (h : b ≤ a) : sizeSub a b = a - b := if_pos h

/-! The memory image of an integer is little-endian on the host; network order is big-endian. -/

def memoryBytes (k : Nat) {w : Nat} (v : BitVec w) : List UInt8 := leBytes k v.toNat
def ofMemory (w : Nat) (bs : List UInt8) : BitVec w := .ofNat w (ofLeBytes bs)

private def swapOrder (k : Nat) {w : Nat} (v : BitVec w) : BitVec w :=
  ofMemory w (memoryBytes k v).reverse
def hostToNetwork16 (v : BitVec 16) : BitVec 16 := swapOrder 2 v
def hostToNetwork32 (v : BitVec 32) : BitVec 32 := swapOrder 4 v
def networkToHost16 (v : BitVec 16) : BitVec 16 := swapOrder 2 v
def networkToHost32 (v : BitVec 32) : BitVec 32 := swapOrder 4 v

private theorem memory_swapOrder (k : Nat) {w : Nat} (hw : 256 ^ k = 2 ^ w) (v : BitVec w) :
    memoryBytes k (swapOrder k v) = beBytes k v.toNat := by
  have hlt := ofLeBytes_lt (leBytes k v.toNat).reverse
  rw [List.length_reverse,leBytes_length,hw] at hlt
  have h := leBytes_ofLeBytes (leBytes k v.toNat).reverse
  rw [List.length_reverse,leBytes_length] at h
  simp only [memoryBytes,swapOrder,ofMemory,BitVec.toNat_ofNat,Nat.mod_eq_of_lt hlt]
  exact h

/-- The wire image of a 16-bit value is its big-endian digits. -/
theorem memory_hostToNetwork16 (v : BitVec 16) :
    memoryBytes 2 (hostToNetwork16 v) = beBytes 2 v.toNat := memory_swapOrder 2 rfl v
theorem memory_hostToNetwork32 (v : BitVec 32) :
    memoryBytes 4 (hostToNetwork32 v) = beBytes 4 v.toNat := memory_swapOrder 4 rfl v

private theorem swapOrder_ofMemory {k w : Nat} (hw : 256 ^ k = 2 ^ w) {bs : List UInt8} (h : bs.length = k) :
    swapOrder k (ofMemory w bs) = .ofNat w (ofBeBytes bs) := by
  have hlt := ofLeBytes_lt bs
  rw [h,hw] at hlt
  have hbytes := leBytes_ofLeBytes bs
  rw [h] at hbytes
  simp only [swapOrder,ofMemory,memoryBytes,BitVec.toNat_ofNat,Nat.mod_eq_of_lt hlt,hbytes,ofBeBytes]

/-- Reading bytes of the wire and converting gives their big-endian value. -/
theorem networkToHost16_ofMemory (bs : List UInt8) (h : bs.length = 2) :
    networkToHost16 (ofMemory 16 bs) = .ofNat 16 (ofBeBytes bs) := swapOrder_ofMemory rfl h
theorem networkToHost32_ofMemory (bs : List UInt8) (h : bs.length = 4) :
    networkToHost32 (ofMemory 32 bs) = .ofNat 32 (ofBeBytes bs) := swapOrder_ofMemory rfl h

/-! Vector memory. -/

/-- Copy bytes over the vector from an index on. -/
def copyTo (v : List UInt8) (i : Nat) (data : List UInt8) : Except Halt (List UInt8) := do
  ensure .outOfBounds (i + data.length ≤ v.length)
  .ok (v.take i ++ data ++ v.drop (i + data.length))

def resize (v : List UInt8) (n : Nat) : List UInt8 := v.take n ++ List.replicate (n - v.length) 0

def cheapPrepend : Nat := 8
def initialSize : Nat := 1024

@[ext] structure Buffer where
  vBuffer : List UInt8
  readerIndex : Nat
  writerIndex : Nat
  deriving DecidableEq

namespace Buffer

/-- The constructor's state. -/
def new : Buffer := ⟨List.replicate (cheapPrepend + initialSize) 0,cheapPrepend,cheapPrepend⟩

def prependableBytes (b : Buffer) : Nat := b.readerIndex
def readableBytes (b : Buffer) : Nat := sizeSub b.writerIndex b.readerIndex
def writeableBytes (b : Buffer) : Nat := sizeSub b.vBuffer.length b.writerIndex

/-- The bytes from Peek() to BeginWrite(). -/
def readable (b : Buffer) : List UInt8 := (b.vBuffer.drop b.readerIndex).take b.readableBytes

/-- Read memory at Peek(). -/
def peek (b : Buffer) (n : Nat) : Except Halt (List UInt8) := do
  ensure .outOfBounds (b.readerIndex + n ≤ b.vBuffer.length)
  .ok ((b.vBuffer.drop b.readerIndex).take n)

def retrieve (b : Buffer) (n : Nat) : Except Halt Buffer := do
  ensure (.assertion "unLength <= ReadableBytes()") (n ≤ b.readableBytes)
  .ok { b with readerIndex := b.readerIndex + n }

/-- The end pointer is given as an index into the vector. -/
def retrieveUntil (b : Buffer) (strEnd : Nat) : Except Halt Buffer := do
  ensure (.assertion "Peek() <= pStrEnd") (b.readerIndex ≤ strEnd)
  ensure (.assertion "pStrEnd <= BeginWrite()") (strEnd ≤ b.writerIndex)
  b.retrieve (strEnd - b.readerIndex)

def retrieveAll (b : Buffer) : Buffer :=
  { b with readerIndex := cheapPrepend, writerIndex := cheapPrepend }

def retrieveAsString (b : Buffer) : Except Halt (Buffer × List UInt8) := do
  let strRet ← b.peek b.readableBytes
  .ok (b.retrieveAll,strRet)

/-- Grow the vector, or slide the readable bytes down to the cheap-prepend offset. -/
def makeSpace (b : Buffer) (n : Nat) : Except Halt Buffer :=
  if b.writeableBytes + b.prependableBytes < n + cheapPrepend then
    .ok { b with vBuffer := resize b.vBuffer (b.writerIndex + n) }
  else do
    ensure (.assertion "CHEAP_PREPEND < m_unReaderIndex") (cheapPrepend < b.readerIndex)
    let unReadable := b.readableBytes
    let v ← copyTo b.vBuffer cheapPrepend b.readable
    let b' : Buffer := ⟨v,cheapPrepend,cheapPrepend + unReadable⟩
    ensure (.assertion "unReadable == ReadableBytes()") (unReadable = b'.readableBytes)
    .ok b'

def ensureWritableBytes (b : Buffer) (n : Nat) : Except Halt Buffer := do
  let b' ← if b.writeableBytes < n then b.makeSpace n else .ok b
  ensure (.assertion "WriteableBytes() >= unLength") (n ≤ b'.writeableBytes)
  .ok b'

/-- Store bytes at BeginWrite() without moving the write index. -/
def store (b : Buffer) (data : List UInt8) : Except Halt Buffer := do
  let v ← copyTo b.vBuffer b.writerIndex data
  .ok { b with vBuffer := v }

def hasWritted (b : Buffer) (n : Nat) : Buffer := { b with writerIndex := b.writerIndex + n }

def append (b : Buffer) (data : List UInt8) : Except Halt Buffer := do
  let b₁ ← b.ensureWritableBytes data.length
  let b₂ ← b₁.store data
  .ok (b₂.hasWritted data.length)

def appendInt8 (b : Buffer) (v : BitVec 8) : Except Halt Buffer := b.append (memoryBytes 1 v)
def appendInt16 (b : Buffer) (v : BitVec 16) : Except Halt Buffer :=
  b.append (memoryBytes 2 (hostToNetwork16 v))
def appendInt32 (b : Buffer) (v : BitVec 32) : Except Halt Buffer :=
  b.append (memoryBytes 4 (hostToNetwork32 v))

def peekInt8 (b : Buffer) : Except Halt (BitVec 8) := do
  ensure (.assertion "ReadableBytes() >= sizeof(int8_t)") (1 ≤ b.readableBytes)
  let bytes ← b.peek 1
  .ok (ofMemory 8 bytes)
def peekInt16 (b : Buffer) : Except Halt (BitVec 16) := do
  ensure (.assertion "ReadableBytes() >= sizeof(int16_t)") (2 ≤ b.readableBytes)
  let bytes ← b.peek 2
  .ok (networkToHost16 (ofMemory 16 bytes))
def peekInt32 (b : Buffer) : Except Halt (BitVec 32) := do
  ensure (.assertion "ReadableBytes() >= sizeof(int32_t)") (4 ≤ b.readableBytes)
  let bytes ← b.peek 4
  .ok (networkToHost32 (ofMemory 32 bytes))

/-- Peek, keep the value in a local variable of some type, and retrieve its bytes. -/
def readInt {w : Nat} (peek : Buffer → Except Halt (BitVec w)) (result : BitVec w → BitVec w) (size : Nat)
    (b : Buffer) : Except Halt (Buffer × BitVec w) := do
  let v ← peek b
  let b' ← b.retrieve size
  .ok (b',result v)

def readInt8 : Buffer → Except Halt (Buffer × BitVec 8) := readInt peekInt8 id 1
def readInt16 : Buffer → Except Halt (Buffer × BitVec 16) := readInt peekInt16 id 2

/-- The local variable of ReadInt32 is an int8_t: assigned it keeps the low byte,
returned it is sign-extended. -/
def int8Variable (v : BitVec 32) : BitVec 32 := (v.setWidth 8).signExtend 32
def readInt32 : Buffer → Except Halt (Buffer × BitVec 32) := readInt peekInt32 int8Variable 4

def prepend (b : Buffer) (data : List UInt8) : Except Halt Buffer := do
  ensure (.assertion "unLength <= PrependableBytes()") (data.length ≤ b.prependableBytes)
  let v ← copyTo b.vBuffer (b.readerIndex - data.length) data
  .ok { b with vBuffer := v, readerIndex := b.readerIndex - data.length }

/-- Copy the readable bytes into a fresh vector, whose size is computed in size_t.
The indices stay as they are. -/
def shrink (b : Buffer) (reserve : Nat) : Except Halt Buffer := do
  let content ← b.peek b.readableBytes
  let v ← copyTo (List.replicate ((cheapPrepend + b.readableBytes + reserve) % 2 ^ 64) 0) cheapPrepend content
  .ok { b with vBuffer := v }

/-- Scattered read into the writable part and a stack buffer of `extraBuf` bytes.
The kernel's answer is an errno or the delivered bytes; the result carries the
returned count and the saved errno. -/
def extraBuf : Nat := 65536
def readFd (b : Buffer) (savedErrno : Int) :
    Except Int (List UInt8) → Except Halt (Buffer × Int × Int)
  | .error errno => .ok (b,-1,errno)
  | .ok data => do
    let unWritable := b.writeableBytes
    let b₁ ← b.store (data.take unWritable)
    if data.length ≤ unWritable then
      .ok (b₁.hasWritted data.length,data.length,savedErrno)
    else
      let b₂ ← append { b₁ with writerIndex := b₁.vBuffer.length } (data.drop unWritable)
      .ok (b₂,data.length,savedErrno)

/-- The index discipline: the parts do not overlap and the cheap-prepend area
always lies before the write index. -/
structure WF (b : Buffer) : Prop where
  reader_le : b.readerIndex ≤ b.writerIndex
  writer_le : b.writerIndex ≤ b.vBuffer.length
  cheap_le : cheapPrepend ≤ b.writerIndex

theorem new_wf : new.WF := ⟨le_rfl,by simp [new],le_rfl⟩
theorem readable_new : new.readable = [] := rfl

namespace WF
variable {b : Buffer} (h : b.WF)
include h

theorem readableBytes_eq : b.readableBytes = b.writerIndex - b.readerIndex :=
  sizeSub_of_le h.reader_le
theorem writeableBytes_eq : b.writeableBytes = b.vBuffer.length - b.writerIndex :=
  sizeSub_of_le h.writer_le
@[simp] theorem readable_length : b.readable.length = b.readableBytes := by
  have hr := h.reader_le
  have hw := h.writer_le
  rw [readable,List.length_take,List.length_drop,h.readableBytes_eq]
  omega

theorem empty_iff : b.readable = [] ↔ b.readerIndex = b.writerIndex := by
  rw [← List.length_eq_zero_iff,h.readable_length,h.readableBytes_eq]
  have := h.reader_le
  omega

/-- The vector is its prepend part, the readable bytes and the writable part. -/
theorem split : b.vBuffer = b.vBuffer.take b.readerIndex ++ b.readable ++ b.vBuffer.drop b.writerIndex := by
  have hw : b.readerIndex + (b.writerIndex - b.readerIndex) = b.writerIndex := by
    have := h.reader_le
    omega
  conv_lhs => rw [← List.take_append_drop b.readerIndex b.vBuffer,
    ← List.take_append_drop (b.writerIndex - b.readerIndex) (b.vBuffer.drop b.readerIndex)]
  rw [List.drop_drop,hw,readable,h.readableBytes_eq,List.append_assoc]

end WF

/-- A vector laid out as prepend part, contents and writable part has that contents. -/
theorem readable_of_layout {b : Buffer} {p c w : List UInt8} (hv : b.vBuffer = p ++ c ++ w)
    (hr : b.readerIndex = p.length) (hw : b.writerIndex = p.length + c.length) : b.readable = c := by
  have hle : b.readerIndex ≤ b.writerIndex := by omega
  rw [readable,readableBytes,sizeSub_of_le hle,hv,hr,hw,List.append_assoc,List.drop_left,
    Nat.add_sub_cancel_left,List.take_left]

theorem copyTo_ok {v : List UInt8} {i : Nat} {data : List UInt8} (h : i + data.length ≤ v.length) :
    copyTo v i data = .ok (v.take i ++ data ++ v.drop (i + data.length)) := by
  simp [copyTo,h]

theorem peek_ok {b : Buffer} (h : b.WF) {n : Nat} (hn : n ≤ b.readableBytes) :
    b.peek n = .ok (b.readable.take n) := by
  have hw := h.writer_le
  have hr := h.reader_le
  have hb := h.readableBytes_eq
  have hle : b.readerIndex + n ≤ b.vBuffer.length := by omega
  simp only [peek,ensure_of _ hle,ok_bind,readable,List.take_take,Nat.min_eq_left hn]

theorem retrieve_ok {b : Buffer} (h : b.WF) {n : Nat} (hn : n ≤ b.readableBytes) :
    ∃ b', b.retrieve n = .ok b' ∧ b'.WF ∧ b'.readable = b.readable.drop n := by
  have hb := h.readableBytes_eq
  have hr := h.reader_le
  have hwf : WF { b with readerIndex := b.readerIndex + n } :=
    ⟨by change b.readerIndex + n ≤ b.writerIndex; omega,h.writer_le,h.cheap_le⟩
  refine ⟨_,by simp only [retrieve,ensure_of _ hn,ok_bind],hwf,?_⟩
  rw [readable,hwf.readableBytes_eq,readable,hb,List.drop_take,List.drop_drop]
  congr 1
  change b.writerIndex - (b.readerIndex + n) = _
  omega

theorem retrieveAll_wf {b : Buffer} (h : b.WF) : b.retrieveAll.WF :=
  ⟨le_rfl,h.cheap_le.trans h.writer_le,le_rfl⟩
theorem readable_retrieveAll (b : Buffer) : b.retrieveAll.readable = [] := by
  simp [readable,retrieveAll,readableBytes]

theorem retrieveUntil_ok {b : Buffer} (h : b.WF) {n : Nat} (hn : n ≤ b.readableBytes) :
    ∃ b', b.retrieveUntil (b.readerIndex + n) = .ok b' ∧ b'.WF ∧ b'.readable = b.readable.drop n := by
  have hend : b.readerIndex + n ≤ b.writerIndex := by
    have hb := h.readableBytes_eq
    have hr := h.reader_le
    omega
  simpa only [retrieveUntil,ensure_of _ (Nat.le_add_right _ _),ensure_of _ hend,ok_bind,
    Nat.add_sub_cancel_left] using retrieve_ok h hn

theorem retrieveAsString_ok {b : Buffer} (h : b.WF) :
    b.retrieveAsString = .ok (b.retrieveAll,b.readable) := by
  rw [retrieveAsString,peek_ok h le_rfl,ok_bind,← h.readable_length,List.take_length]

/-- Making room keeps the contents; both branches leave the cheap-prepend area
at least as large as it was, up to its usual size. -/
theorem makeSpace_ok {b : Buffer} (h : b.WF) {n : Nat} (hn : b.writeableBytes < n) :
    ∃ b', b.makeSpace n = .ok b' ∧ b'.WF ∧ b'.readable = b.readable ∧ n ≤ b'.writeableBytes ∧
      min cheapPrepend b.readerIndex ≤ b'.readerIndex := by
  have hr := h.reader_le
  have hw := h.writer_le
  have hb := h.readableBytes_eq
  have hwr := h.writeableBytes_eq
  have hcheap := h.cheap_le
  have hlen := h.readable_length
  by_cases hgrow : b.writeableBytes + b.prependableBytes < n + cheapPrepend
  · -- growth: the vector is longer, the indices stay
    have hlong : b.vBuffer.length ≤ b.writerIndex + n := by omega
    have hv : resize b.vBuffer (b.writerIndex + n) =
        b.vBuffer ++ List.replicate (b.writerIndex + n - b.vBuffer.length) 0 := by
      rw [resize,List.take_of_length_le hlong]
    have hwf : WF { b with vBuffer := resize b.vBuffer (b.writerIndex + n) } := by
      refine ⟨hr,?_,hcheap⟩
      rw [hv,List.length_append,List.length_replicate]
      change b.writerIndex ≤ _
      omega
    refine ⟨_,by simp only [makeSpace,hgrow,if_true],hwf,?_,?_,min_le_right _ _⟩
    · apply readable_of_layout (p := b.vBuffer.take b.readerIndex)
        (w := b.vBuffer.drop b.writerIndex ++ List.replicate (b.writerIndex + n - b.vBuffer.length) 0)
      · change resize b.vBuffer (b.writerIndex + n) = _
        rw [hv,← List.append_assoc,← h.split]
      · rw [List.length_take]
        change b.readerIndex = _
        omega
      · rw [List.length_take,hlen]
        change b.writerIndex = _
        omega
    · rw [hwf.writeableBytes_eq]
      change n ≤ (resize b.vBuffer (b.writerIndex + n)).length - b.writerIndex
      rw [hv,List.length_append,List.length_replicate]
      omega
  · -- sliding: the contents move down to the cheap-prepend offset
    have hp : b.prependableBytes = b.readerIndex := rfl
    have hassert : cheapPrepend < b.readerIndex := by omega
    have hfit : cheapPrepend + b.readable.length ≤ b.vBuffer.length := by omega
    have hsame : b.readableBytes = sizeSub (cheapPrepend + b.readableBytes) cheapPrepend := by
      rw [sizeSub_of_le (Nat.le_add_right _ _),Nat.add_sub_cancel_left]
    let v := b.vBuffer.take cheapPrepend ++ b.readable ++
      b.vBuffer.drop (cheapPrepend + b.readable.length)
    have hvlen : v.length = b.vBuffer.length := by
      simp only [v,List.length_append,List.length_take,List.length_drop]
      omega
    have hwf : WF ⟨v,cheapPrepend,cheapPrepend + b.readableBytes⟩ :=
      ⟨Nat.le_add_right _ _,by change cheapPrepend + b.readableBytes ≤ v.length; omega,Nat.le_add_right _ _⟩
    refine ⟨⟨v,cheapPrepend,cheapPrepend + b.readableBytes⟩,?_,hwf,?_,?_,min_le_left _ _⟩
    · have hkeep : b.readableBytes = readableBytes ⟨v,cheapPrepend,cheapPrepend + b.readableBytes⟩ := hsame
      simp only [makeSpace,hgrow,if_false,ensure_of _ hassert,copyTo_ok hfit,ok_bind]
      exact (congrArg (· >>= _) (ensure_of _ hkeep)).trans rfl
    · apply readable_of_layout (p := b.vBuffer.take cheapPrepend) rfl
      · rw [List.length_take]
        change cheapPrepend = _
        omega
      · rw [List.length_take,hlen]
        change cheapPrepend + b.readableBytes = _
        omega
    · rw [hwf.writeableBytes_eq]
      change n ≤ v.length - (cheapPrepend + b.readableBytes)
      omega

theorem ensureWritableBytes_ok {b : Buffer} (h : b.WF) (n : Nat) :
    ∃ b', b.ensureWritableBytes n = .ok b' ∧ b'.WF ∧ b'.readable = b.readable ∧
      n ≤ b'.writeableBytes ∧ min cheapPrepend b.readerIndex ≤ b'.readerIndex := by
  by_cases hn : b.writeableBytes < n
  · obtain ⟨b',he,hwf,hread,hroom,hpre⟩ := makeSpace_ok h hn
    exact ⟨b',by simp only [ensureWritableBytes,hn,if_true,he,ok_bind,ensure_of _ hroom],
      hwf,hread,hroom,hpre⟩
  · have hroom := not_lt.mp hn
    exact ⟨b,by simp only [ensureWritableBytes,hn,if_false,ok_bind,ensure_of _ hroom],
      h,rfl,hroom,min_le_right _ _⟩

/-- Bytes stored at the write index become readable when the index passes them. -/
theorem store_ok {b : Buffer} (h : b.WF) {data : List UInt8} (hn : data.length ≤ b.writeableBytes) :
    ∃ b', b.store data = .ok b' ∧ b'.vBuffer.length = b.vBuffer.length ∧
      b'.readerIndex = b.readerIndex ∧ b'.writerIndex = b.writerIndex ∧
      (b'.hasWritted data.length).WF ∧
      (b'.hasWritted data.length).readable = b.readable ++ data := by
  have hr := h.reader_le
  have hw := h.writer_le
  have hb := h.readableBytes_eq
  have hwr := h.writeableBytes_eq
  have hcheap := h.cheap_le
  have hlen := h.readable_length
  have hfit : b.writerIndex + data.length ≤ b.vBuffer.length := by omega
  let v := b.vBuffer.take b.writerIndex ++ data ++ b.vBuffer.drop (b.writerIndex + data.length)
  have hvlen : v.length = b.vBuffer.length := by
    simp only [v,List.length_append,List.length_take,List.length_drop]
    omega
  refine ⟨{ b with vBuffer := v },?_,hvlen,rfl,rfl,⟨?_,?_,?_⟩,?_⟩
  · simp only [store,copyTo_ok hfit,ok_bind]
    rfl
  · exact Nat.le_add_right_of_le hr
  · change b.writerIndex + data.length ≤ v.length
    omega
  · exact Nat.le_add_right_of_le hcheap
  · have hfront : b.vBuffer.take b.writerIndex = b.vBuffer.take b.readerIndex ++ b.readable := by
      have hp : (b.vBuffer.take b.readerIndex ++ b.readable).length = b.writerIndex := by
        rw [List.length_append,List.length_take,hlen]
        omega
      conv_lhs => rw [h.split,← hp]
      exact List.take_left' rfl
    apply readable_of_layout (p := b.vBuffer.take b.readerIndex)
      (w := b.vBuffer.drop (b.writerIndex + data.length))
    · change v = _
      simp only [v,hfront,List.append_assoc]
    · rw [List.length_take]
      change b.readerIndex = _
      omega
    · rw [List.length_take,List.length_append,hlen]
      change b.writerIndex + data.length = _
      omega

/-- Appending is concatenation at the end. -/
theorem append_ok {b : Buffer} (h : b.WF) (data : List UInt8) :
    ∃ b', b.append data = .ok b' ∧ b'.WF ∧ b'.readable = b.readable ++ data ∧
      min cheapPrepend b.readerIndex ≤ b'.readerIndex := by
  obtain ⟨b₁,he₁,hwf₁,hread₁,hroom,hpre⟩ := ensureWritableBytes_ok h data.length
  obtain ⟨b₂,he₂,-,hri,-,hwf₂,hread₂⟩ := store_ok hwf₁ hroom
  refine ⟨_,by simp only [append,he₁,he₂,ok_bind],hwf₂,by rw [hread₂,hread₁],?_⟩
  change min cheapPrepend b.readerIndex ≤ b₂.readerIndex
  omega

/-- Prepending is concatenation at the front. -/
theorem prepend_ok {b : Buffer} (h : b.WF) {data : List UInt8} (hn : data.length ≤ b.prependableBytes) :
    ∃ b', b.prepend data = .ok b' ∧ b'.WF ∧ b'.readable = data ++ b.readable := by
  have hr := h.reader_le
  have hw := h.writer_le
  have hlen := h.readable_length
  have hb := h.readableBytes_eq
  have hd : data.length ≤ b.readerIndex := hn
  have hfit : b.readerIndex - data.length + data.length ≤ b.vBuffer.length := by omega
  let v := b.vBuffer.take (b.readerIndex - data.length) ++ data ++
    b.vBuffer.drop (b.readerIndex - data.length + data.length)
  have hvlen : v.length = b.vBuffer.length := by
    simp only [v,List.length_append,List.length_take,List.length_drop]
    omega
  refine ⟨⟨v,b.readerIndex - data.length,b.writerIndex⟩,?_,⟨?_,?_,h.cheap_le⟩,?_⟩
  · simp only [prepend,ensure_of _ hn,copyTo_ok hfit,ok_bind]
    rfl
  · exact (Nat.sub_le _ _).trans hr
  · change b.writerIndex ≤ v.length
    omega
  · have hback : b.vBuffer.drop b.readerIndex = b.readable ++ b.vBuffer.drop b.writerIndex := by
      have hp : (b.vBuffer.take b.readerIndex).length = b.readerIndex := by
        rw [List.length_take]
        omega
      conv_lhs => rw [h.split,List.append_assoc]
      exact List.drop_left' hp
    apply readable_of_layout (p := b.vBuffer.take (b.readerIndex - data.length))
      (w := b.vBuffer.drop b.writerIndex)
    · change v = _
      simp only [v,Nat.sub_add_cancel hd,hback,List.append_assoc]
    · rw [List.length_take]
      change b.readerIndex - data.length = _
      omega
    · rw [List.length_take,List.length_append,hlen]
      change b.writerIndex = _
      omega

/-- A scattered read appends what was delivered, also past the writable part. -/
theorem readFd_ok {b : Buffer} (h : b.WF) (saved : Int) (data : List UInt8) :
    ∃ b', b.readFd saved (.ok data) = .ok (b',data.length,saved) ∧ b'.WF ∧
      b'.readable = b.readable ++ data := by
  have hwr := h.writeableBytes_eq
  have hw := h.writer_le
  by_cases hn : data.length ≤ b.writeableBytes
  · obtain ⟨b₁,he,-,-,-,hwf,hread⟩ := store_ok h hn
    refine ⟨_,?_,hwf,hread⟩
    simp only [readFd,List.take_of_length_le hn,he,ok_bind,hn,if_true]
  · have htake : (data.take b.writeableBytes).length = b.writeableBytes := by
      rw [List.length_take]
      omega
    obtain ⟨b₁,he₁,hlen,hri,hwi,hwf₁,hread₁⟩ := store_ok h htake.le
    -- the first part fills the vector, so the index moves to its end
    have hfull : (b₁.hasWritted (data.take b.writeableBytes).length) =
        { b₁ with writerIndex := b₁.vBuffer.length } := by
      have hend : b₁.writerIndex + b.writeableBytes = b₁.vBuffer.length := by omega
      rw [hasWritted,htake,hend]
    rw [hfull] at hwf₁ hread₁
    obtain ⟨b₂,he₂,hwf₂,hread₂,-⟩ := append_ok hwf₁ (data.drop b.writeableBytes)
    refine ⟨b₂,?_,hwf₂,?_⟩
    · simp only [readFd,he₁,ok_bind,hn,if_false,he₂]
    · rw [hread₂,hread₁,List.append_assoc,List.take_append_drop]

end Buffer
end LinuxServer.Reactor
