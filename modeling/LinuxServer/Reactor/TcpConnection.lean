import LinuxServer.Reactor.Buffer
import LinuxServer.Reactor.EventLoop

/-! One connection on its event loop: the socket, the output buffer, the functor
queue of the loop, and any threads in the middle of Send or ShutDown. -/
namespace LinuxServer.Reactor
open LinuxServer.Lib

inductive ConnectState where
  | connecting
  | connected
  | disconnecting
  | disconnected
  deriving DecidableEq,Repr

namespace TcpConnection

/-- The argument of the two overloads of Send. -/
inductive Message where
  | string (rStrMsg : List UInt8)
  | buffer (pBuf : Option Buffer)

/-- The bytes that Send hands on; a null buffer sends nothing. -/
def Message.payload : Message → Except Halt (Option (List UInt8))
  | .string rStrMsg => .ok (some rStrMsg)
  | .buffer none => .ok none
  | .buffer (some b) => do
    let bytes ← b.peek b.readableBytes
    .ok (some bytes)

/-- A Send that found the state Connected. The number tells equal ones apart. -/
structure Call where
  thread : Thread
  number : Nat
  payload : List UInt8
  deriving DecidableEq

inductive Functor where
  | sendInLoop (c : Call)
  | shutDownInLoop
  | writeComplete
  | connectedDestroyed
  deriving DecidableEq

/-- What a thread that is not the loop's has still to do in its call. -/
inductive Pc where
  | idle
  | sending (c : Call)
  | shuttingDown
  | shutDownQueueing
  deriving DecidableEq

/-- The user's callbacks, as far as they were set; the message callback may
change the input buffer. -/
structure CallBacks where
  connection : Bool
  message : Option (Buffer → Buffer)
  writeComplete : Bool

/-- A call of a user callback. -/
inductive Event where
  | connection (isConnected : Bool)
  | message (readable : List UInt8)
  | writeComplete
  | close
  deriving DecidableEq

structure State where
  connectState : ConnectState
  /-- The channel's interest. -/
  reading : Bool
  writing : Bool
  inputBuffer : Buffer
  outputBuffer : Buffer
  /-- The loop's queue, and what is left of the batch it runs. -/
  pendingFunctors : List Functor
  functors : List Functor
  pc : Thread → Pc
  /-- Close callbacks whose owner has not yet queued ConnectedDestroyed. -/
  closed : Nat
  /-- The bytes the kernel accepted, and whether SHUT_WR was executed. -/
  wire : List UInt8
  shutDown : Bool
  /-- Sends that found Connected; those run by sendInLoop in a state other than
  Disconnected; those it gave up; and writes attempted after SHUT_WR. -/
  calls : List Call
  accepted : List Call
  givenUp : List Call
  lateWrites : Nat
  events : List Event

inductive Label where
  /-- In the loop thread the whole call, elsewhere up to the test of the state.
  The last argument is what ::write answers if it is reached. -/
  | send (t : Thread) (m : Message) (answer : Except Int Nat)
  | shutDown (t : Thread)
  /-- The next step of a thread in Send or ShutDown. -/
  | proceed (t : Thread)
  | connectedEstablished
  | handleRead (answer : Except Int (List UInt8))
  | handleWrite (answer : Except Int Nat)
  | handleClose
  /-- The owner reacts to the close callback. -/
  | queueConnectedDestroyed
  | swapFunctors
  | runFunctor (answer : Except Int Nat)

namespace State

def queueInLoop (s : State) (f : Functor) : State := { s with pendingFunctors := s.pendingFunctors ++ [f] }

def queueWriteComplete (s : State) (cb : CallBacks) : State :=
  if cb.writeComplete then s.queueInLoop .writeComplete else s

/-- The write system call: it takes a prefix of the data, or fails. -/
def write (s : State) (data : List UInt8) (answer : Except Int Nat) : Except Halt State :=
  let s' := { s with lateWrites := if s.shutDown then s.lateWrites + 1 else s.lateWrites }
  match answer with
  | .ok n => do
    ensure .notEnabled (n ≤ data.length)
    .ok { s' with wire := s.wire ++ data.take n }
  | .error _ => .ok s'

/-- The direct attempt of sendInLoop: what was written and what remains. -/
def writeDirectly (s : State) (cb : CallBacks) (data : List UInt8) (answer : Except Int Nat) :
    Except Halt (State × Nat × Nat) :=
  if s.writing = false ∧ 0 = s.outputBuffer.readableBytes then do
    let s' ← s.write data answer
    match answer with
    | .ok nWrite =>
      let nRemaining := sizeSub data.length nWrite
      .ok (if 0 = nRemaining then s'.queueWriteComplete cb else s',nWrite,nRemaining)
    | .error _ => .ok (s',0,data.length)
  else .ok (s,0,data.length)

def sendInLoop (s : State) (cb : CallBacks) (c : Call) (answer : Except Int Nat) : Except Halt State :=
  if s.connectState = .disconnected then .ok { s with givenUp := s.givenUp ++ [c] }
  else do
    let (s₁,nWrite,nRemaining) ← s.writeDirectly cb c.payload answer
    ensure (.assertion "nRemaining <= nLength") (nRemaining ≤ c.payload.length)
    let s₂ := { s₁ with accepted := s₁.accepted ++ [c] }
    if 0 < nRemaining then
      let b ← s₂.outputBuffer.append ((c.payload.drop nWrite).take nRemaining)
      .ok { s₂ with outputBuffer := b, writing := true }
    else .ok s₂

def shutDownInLoop (s : State) : State := if s.writing = false then { s with shutDown := true } else s

def handleWrite (s : State) (cb : CallBacks) (answer : Except Int Nat) : Except Halt State :=
  if s.writing then do
    let data ← s.outputBuffer.peek s.outputBuffer.readableBytes
    let s₁ ← s.write data answer
    match answer with
    | .ok nWrite =>
      if 0 < nWrite then do
        let b ← s₁.outputBuffer.retrieve nWrite
        let s₂ := { s₁ with outputBuffer := b }
        if 0 = b.readableBytes then
          let s₃ := queueWriteComplete { s₂ with writing := false } cb
          .ok (if s₃.connectState = .disconnecting then s₃.shutDownInLoop else s₃)
        else .ok s₂
      else .error (.fatal "")
    | .error _ => .error (.fatal "")
  else .ok s

def handleClose (s : State) : Except Halt State := do
  ensure (.assertion "eTCS_Connected == m_eConnectState || eTCS_Disconnecting == m_eConnectState")
    (s.connectState = .connected ∨ s.connectState = .disconnecting)
  .ok { s with reading := false, writing := false, closed := s.closed + 1, events := s.events ++ [.close] }

/-- An error of ReadFd is logged by handleError. -/
def handleRead (s : State) (cb : CallBacks) (answer : Except Int (List UInt8)) : Except Halt State := do
  let (b,unReadSize,_) ← s.inputBuffer.readFd 0 answer
  if 0 < unReadSize then
    match cb.message with
    | some message =>
      .ok { s with inputBuffer := message b, events := s.events ++ [.message b.readable] }
    | none => .ok { s with inputBuffer := b }
  else if 0 = unReadSize then handleClose { s with inputBuffer := b }
  else .ok { s with inputBuffer := b }

def connectedEstablished (s : State) (cb : CallBacks) : Except Halt State := do
  ensure (.assertion "eTCS_Connecting == m_eConnectState") (s.connectState = .connecting)
  .ok { s with
    connectState := .connected
    reading := true
    events := if cb.connection then s.events ++ [.connection true] else s.events }

/-- The call of the connection callback is commented out here. -/
def connectedDestroyed (s : State) : Except Halt State := do
  ensure (.assertion "eTCS_Connected == m_eConnectState || eTCS_Disconnecting == m_eConnectState")
    (s.connectState = .connected ∨ s.connectState = .disconnecting)
  .ok { s with connectState := .disconnected, reading := false, writing := false }

def runFunctor (s : State) (cb : CallBacks) (answer : Except Int Nat) : Functor → Except Halt State
  | .sendInLoop c => s.sendInLoop cb c answer
  | .shutDownInLoop => .ok s.shutDownInLoop
  | .writeComplete => .ok { s with events := s.events ++ [.writeComplete] }
  | .connectedDestroyed => s.connectedDestroyed

end State

section Machine
variable (threadId : Thread) (cb : CallBacks)

/-- The loop thread's steps are atomic: other threads only move the state from
Connected to Disconnecting and append to the queue. -/
def step (s : State) : Label → Except Halt State
  | .send t m answer => do
    ensure .notEnabled (s.pc t = .idle)
    match ← m.payload with
    | none => .ok s
    | some bytes =>
      if s.connectState = .connected then
        let c : Call := ⟨t,s.calls.length,bytes⟩
        let s₁ := { s with calls := s.calls ++ [c] }
        if t = threadId then s₁.sendInLoop cb c answer
        else .ok { s₁ with pc := Function.update s₁.pc t (.sending c) }
      else .ok s
  | .shutDown t => do
    ensure .notEnabled (s.pc t = .idle)
    if s.connectState = .connected then
      if t = threadId then .ok (State.shutDownInLoop { s with connectState := .disconnecting })
      else .ok { s with pc := Function.update s.pc t .shuttingDown }
    else .ok s
  | .proceed t =>
    match s.pc t with
    | .idle => .error .notEnabled
    | .sending c => .ok (State.queueInLoop { s with pc := Function.update s.pc t .idle } (.sendInLoop c))
    | .shuttingDown => .ok { s with
        connectState := .disconnecting
        pc := Function.update s.pc t .shutDownQueueing }
    | .shutDownQueueing => .ok (State.queueInLoop { s with pc := Function.update s.pc t .idle } .shutDownInLoop)
  | .connectedEstablished => s.connectedEstablished cb
  | .handleRead answer => do
    ensure .notEnabled (s.reading = true)
    s.handleRead cb answer
  | .handleWrite answer => s.handleWrite cb answer
  | .handleClose => do
    ensure .notEnabled (s.reading = true ∨ s.writing = true)
    s.handleClose
  | .queueConnectedDestroyed => do
    ensure .notEnabled (0 < s.closed)
    .ok (State.queueInLoop { s with closed := s.closed - 1 } .connectedDestroyed)
  | .swapFunctors => do
    ensure .notEnabled (s.functors = [])
    .ok { s with functors := s.pendingFunctors, pendingFunctors := [] }
  | .runFunctor answer =>
    match s.functors with
    | [] => .error .notEnabled
    | f :: rest => State.runFunctor { s with functors := rest } cb answer f

/-- The constructor's state. -/
def initial : State := {
  connectState := .connecting
  reading := false
  writing := false
  inputBuffer := .new
  outputBuffer := .new
  pendingFunctors := []
  functors := []
  pc := fun _ => .idle
  closed := 0
  wire := []
  shutDown := false
  calls := []
  accepted := []
  givenUp := []
  lateWrites := 0
  events := [] }

def machine : Machine State Label Halt := ⟨fun s => s = initial,step threadId cb⟩

variable {threadId cb}

/-- All that a call of Send can do: nothing, or what the loop thread does at once and
another thread has to queue. -/
theorem send_cases {s t : State} {u : Thread} {m : Message} {answer : Except Int Nat}
    (hs : step threadId cb s (.send u m answer) = .ok t) : s.pc u = .idle ∧
      (t = s ∧ (m.payload = .ok none ∨ ∃ bytes, m.payload = .ok (some bytes) ∧ s.connectState ≠ .connected) ∨
        ∃ bytes, m.payload = .ok (some bytes) ∧ s.connectState = .connected ∧
          (u = threadId ∧ State.sendInLoop { s with calls := s.calls ++ [⟨u,s.calls.length,bytes⟩] } cb
              ⟨u,s.calls.length,bytes⟩ answer = .ok t ∨
            u ≠ threadId ∧ t = { s with
              calls := s.calls ++ [⟨u,s.calls.length,bytes⟩]
              pc := Function.update s.pc u (.sending ⟨u,s.calls.length,bytes⟩) })) := by
  simp only [step,bind_ok_iff,ensure_ok_iff] at hs
  obtain ⟨-,hidle,bytes,hm,hs⟩ := hs
  refine ⟨hidle,?_⟩
  cases bytes with
  | none =>
    cases hs
    exact .inl ⟨rfl,.inl hm⟩
  | some bytes =>
    simp only at hs
    split at hs
    · rename_i hconnected
      refine .inr ⟨bytes,hm,hconnected,?_⟩
      split at hs
      · rename_i hu
        exact .inl ⟨hu,hs⟩
      · rename_i hu
        cases hs
        exact .inr ⟨hu,rfl⟩
    · rename_i hconnected
      cases hs
      exact .inl ⟨rfl,.inr ⟨bytes,hm,hconnected⟩⟩

end Machine
end TcpConnection
end LinuxServer.Reactor
