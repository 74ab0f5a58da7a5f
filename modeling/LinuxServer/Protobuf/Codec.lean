import LinuxServer.Reactor.Buffer

/-! The message codec as the program runs it, on the bytes of a buffer.
Signed arithmetic and every memory access are checked where they happen. -/
namespace LinuxServer.Protobuf
open LinuxServer.Lib LinuxServer.Reactor

/-! Host integers. -/

/-- The result of an int computation, which must be an int. -/
def int32 (x : Int) : Except Halt Int := do
  ensure .overflow (-2 ^ 31 ≤ x ∧ x < 2 ^ 31)
  .ok x

def castInt32 (x : Int) : Int := x.bmod (2 ^ 32)
def castUInt (x : Int) : Nat := (x % 2 ^ 32).toNat
def castSize (x : Int) : Nat := (x % 2 ^ 64).toNat

/-- Read memory at an offset from a pointer with the given bytes behind it. -/
def readMem (buf : List UInt8) (offset : Int) (n : Nat) : Except Halt (List UInt8) := do
  ensure .outOfBounds (0 ≤ offset ∧ offset + n ≤ buf.length)
  .ok ((buf.drop offset.toNat).take n)

def asInt32 (buf : List UInt8) (offset : Int) : Except Halt Int := do
  let bytes ← readMem buf offset 4
  .ok (networkToHost32 (ofMemory 32 bytes)).toInt

/-! What the codec uses of the protobuf runtime and of zlib. -/

structure Runtime (Msg Descriptor : Type) where
  typeName : Msg → List UInt8
  isInitialized : Msg → Bool
  byteSize : Msg → BitVec 32
  serialize : Msg → List UInt8
  findMessageTypeByName : List UInt8 → Option Descriptor
  getPrototype : Descriptor → Option Msg
  new : Msg → Msg
  /-- The message as parsing leaves it, and whether parsing succeeded. -/
  parseFromArray : Msg → List UInt8 → Msg × Bool
  adler32 : Nat → List UInt8 → Nat

inductive ErrorCode where
  | noError
  | invalidLength
  | checkSumError
  | invalidNameLen
  | unknownMessageType
  | parseError
  deriving DecidableEq,Repr

def headerLength : Int := 4
def minMessageLength : Int := 2 * headerLength + 2
def maxMessageLength : Int := 64 * 1024 * 1024

section Codec
variable {Msg Descriptor : Type} (rt : Runtime Msg Descriptor)

def byteSizeConsistencyError (before after produced : Int) : Halt :=
  if before ≠ after then .fatal "Protocol message was modified concurrently during serialization."
  else if produced ≠ before then
    .fatal "Byte size calculation and serialization were inconsistent.  This may indicate a bug in protocol buffers or it may be caused by concurrent modification of the message."
  else .fatal "This shouldn't be called if all the sizes are equal."

/-- Write the frame of a message: name length, name with its NUL, payload and
checksum, and at the end the length in front of them. -/
def fillEmptyBuffer (pBuf : Option Buffer) (rMessage : Msg) : Except Halt Buffer := do
  match pBuf with
  | none => .error (.assertion "false")
  | some b₀ =>
    ensure (.assertion "0 == pBuf->ReadableBytes()") (0 = b₀.readableBytes)
    let rStrTypeName := rt.typeName rMessage
    let nNameLen : BitVec 32 := .ofNat 32 (rStrTypeName.length + 1)
    let b₁ ← b₀.appendInt32 nNameLen
    -- c_str() has the characters and a NUL behind them
    let name ← readMem (rStrTypeName ++ [0]) 0 (castSize nNameLen.toInt)
    let b₂ ← b₁.append name
    ensure (.fatal "CHECK failed: rMessage.IsInitialized(): ") (rt.isInitialized rMessage = true)
    let nByteSize := rt.byteSize rMessage
    let b₃ ← b₂.ensureWritableBytes (castSize nByteSize.toInt)
    let payload := rt.serialize rMessage
    let b₄ ← b₃.store payload
    ensure (byteSizeConsistencyError nByteSize.toInt (rt.byteSize rMessage).toInt payload.length)
      ((payload.length : Int) = nByteSize.toInt)
    let b₅ := b₄.hasWritted (castSize nByteSize.toInt)
    let covered ← b₅.peek (castUInt (castInt32 b₅.readableBytes))
    let nCheckSum : BitVec 32 := .ofNat 32 (rt.adler32 1 covered)
    let b₆ ← b₅.appendInt32 nCheckSum
    ensure (.assertion "pBuf->ReadableBytes() == sizeof(nNameLen) + nNameLen + nByteSize + sizeof(nCheckSum)")
      (b₆.readableBytes = castSize (4 + nNameLen.toInt + nByteSize.toInt + 4))
    let nLen := hostToNetwork32 (.ofNat 32 b₆.readableBytes)
    b₆.prepend (memoryBytes 4 nLen)

def createMessage (strTypeName : List UInt8) : Option Msg := do
  let pDescriptor ← rt.findMessageTypeByName strTypeName
  let pProtoType ← rt.getPrototype pDescriptor
  some (rt.new pProtoType)

/-- Take a frame body apart. The pointer is given by the bytes behind it, which
may go on past the body. -/
def parse (buf : List UInt8) (nLength : Int) : Except Halt (Option Msg × ErrorCode) := do
  let nExpectedCheckSum ← asInt32 buf (nLength - headerLength)
  let nCovered ← int32 (nLength - headerLength)
  let covered ← readMem buf 0 (castUInt nCovered)
  let nCheckSum := castInt32 (rt.adler32 1 covered)
  if nCheckSum = nExpectedCheckSum then
    let nNameLength ← asInt32 buf 0
    let nNameMax ← int32 (nLength - 2 * headerLength)
    if 2 ≤ nNameLength ∧ nNameLength ≤ nNameMax then
      let strTypeName ← readMem buf headerLength (castSize (nNameLength - 1))
      match createMessage rt strTypeName with
      | some pMessage =>
        let nRest ← int32 (nLength - nNameLength)
        let nDataLen ← int32 (nRest - 2 * headerLength)
        let data ← readMem buf (headerLength + nNameLength) (castSize nDataLen)
        let (parsed,success) := rt.parseFromArray pMessage data
        .ok (some parsed,if success then .noError else .parseError)
      | none => .ok (none,.unknownMessageType)
    else .ok (none,.invalidNameLen)
  else .ok (none,.checkSumError)

/-- A call of one of the two user callbacks. -/
inductive Event (Msg : Type) where
  | message (m : Msg)
  | error (e : ErrorCode)
  deriving DecidableEq,Repr

/-- One iteration consumes a frame or ends the loop. The error callback gets the
buffer and may change it. -/
def onMessageLoop (errorCallBack : Buffer → ErrorCode → Buffer) :
    Nat → Buffer → Except Halt (Buffer × List (Event Msg))
  | 0, _ => .error .outOfFuel
  | fuel+1, b =>
    if castSize (minMessageLength + headerLength) ≤ b.readableBytes then do
      let nLen := (← b.peekInt32).toInt
      if maxMessageLength < nLen ∨ nLen < minMessageLength then
        .ok (errorCallBack b .invalidLength,[.error .invalidLength])
      else do
        let nFrame ← int32 (nLen + headerLength)
        if castSize nFrame ≤ b.readableBytes then do
          -- the memory from Peek() + HEADER_LENGTH to the end of the vector
          let answer ← parse rt (b.vBuffer.drop (b.readerIndex + headerLength.toNat)) nLen
          match answer with
          | (some pMessage,.noError) => do
            let nConsumed ← int32 (headerLength + nLen)
            let b' ← b.retrieve (castSize nConsumed)
            let (b'',events) ← onMessageLoop errorCallBack fuel b'
            .ok (b'',.message pMessage :: events)
          | (_,eErr) => .ok (errorCallBack b eErr,[.error eErr])
        else .ok (b,[])
    else .ok (b,[])

/-- Handle what has arrived. Every iteration but the last consumes bytes. -/
def onMessage (errorCallBack : Buffer → ErrorCode → Buffer) (b : Buffer) :
    Except Halt (Buffer × List (Event Msg)) :=
  onMessageLoop rt errorCallBack (b.readableBytes + 1) b

/-- Append each chunk to the input buffer and handle it; the callbacks of each call. -/
def receive (errorCallBack : Buffer → ErrorCode → Buffer) :
    Buffer → List (List UInt8) → Except Halt (Buffer × List (List (Event Msg)))
  | b, [] => .ok (b,[])
  | b, c :: cs => do
    let b₁ ← b.append c
    let (b₂,events) ← onMessage rt errorCallBack b₁
    let (b₃,calls) ← receive errorCallBack b₂ cs
    .ok (b₃,events :: calls)

end Codec
end LinuxServer.Protobuf
