import LinuxServer.Reactor.TcpConnection

/-! A server, its pool of IO loops and the life of its connections. The loop of a
new connection and the loop of a teardown come from one round-robin cursor. -/
namespace LinuxServer.Reactor.TcpServer
open LinuxServer.Lib

/-- Event loops are told apart by numbers. -/
abbrev Loop := Nat

structure EventLoopThreadPool where
  baseLoop : Loop
  loops : List Loop
  next : Nat

def EventLoopThreadPool.getNextLoop (p : EventLoopThreadPool) : Except Halt (Loop × EventLoopThreadPool) :=
  match p.loops with
  | [] => .ok (p.baseLoop,p)
  | _ :: _ =>
    match p.loops[p.next]? with
    | none => .error .outOfBounds
    | some pLoop =>
      .ok (pLoop,{ p with next := if p.loops.length ≤ p.next + 1 then 0 else p.next + 1 })

/-- A connection as the server sees it. How many calls of GetNextLoop came before
its own is recorded for the statements only. -/
structure Connection where
  name : String
  loop : Loop
  connectState : ConnectState
  /-- The channel is watched for reading. -/
  reading : Bool
  createdAt : Nat
  deriving DecidableEq

/-- A functor bound to the connection of the given number. -/
inductive Functor where
  | connectedEstablished (k : Nat)
  | removeConnectionInLoop (k : Nat)
  | connectedDestroyed (k : Nat)
  deriving DecidableEq

/-- A ConnectedDestroyed that was queued: for which connection, on which loop,
and after how many calls of GetNextLoop. -/
structure Teardown where
  connection : Nat
  loop : Loop
  calls : Nat
  deriving DecidableEq

structure State where
  pool : EventLoopThreadPool
  name : String
  nextConnId : Nat
  connection : Nat → Option Connection
  /-- The map from names to connections. -/
  mpConnection : List (String × Nat)
  queue : Loop → List Functor
  calls : Nat
  teardowns : List Teardown

inductive Label where
  /-- The acceptor has a new socket; the base loop creates its connection. -/
  | newConnection
  /-- The connection's loop sees it closed and calls the close callback. -/
  | handleClose (k : Nat)
  /-- A loop runs the functor at the head of its queue. -/
  | runFunctor (l : Loop)

namespace State

def queueInLoop (s : State) (l : Loop) (f : Functor) : State :=
  { s with queue := Function.update s.queue l (s.queue l ++ [f]) }

def getNextLoop (s : State) : Except Halt (Loop × State) := do
  let (pLoop,pool) ← s.pool.getNextLoop
  .ok (pLoop,{ s with pool := pool, calls := s.calls + 1 })

def setConnection (s : State) (k : Nat) (c : Connection) : State :=
  { s with connection := Function.update s.connection k (some c) }

/-- In the thread of the given loop. -/
def connectedEstablished (s : State) (l : Loop) (k : Nat) (c : Connection) : Except Halt State := do
  ensure (.fatal "EventLoop::abortNotInLoopThread") (c.loop = l)
  ensure (.assertion "eTCS_Connecting == m_eConnectState") (c.connectState = .connecting)
  .ok (s.setConnection k { c with connectState := .connected, reading := true })

def connectedDestroyed (s : State) (l : Loop) (k : Nat) (c : Connection) : Except Halt State := do
  ensure (.fatal "EventLoop::abortNotInLoopThread") (c.loop = l)
  ensure (.assertion "eTCS_Connected == m_eConnectState || eTCS_Disconnecting == m_eConnectState")
    (c.connectState = .connected ∨ c.connectState = .disconnecting)
  .ok (s.setConnection k { c with connectState := .disconnected, reading := false })

def newConnection (s : State) : Except Halt State := do
  ensure .overflow (s.nextConnId + 1 < 2 ^ 31)
  let k := s.nextConnId
  let strConnName := s.name ++ "#" ++ toString k
  let (pIoEventLoop,s₁) ← getNextLoop { s with nextConnId := s.nextConnId + 1 }
  let pTcpConn : Connection := ⟨strConnName,pIoEventLoop,.connecting,false,s.calls⟩
  let s₂ := { s₁.setConnection k pTcpConn with
    mpConnection := (strConnName,k) :: s₁.mpConnection.filter fun p => p.1 ≠ strConnName }
  -- RunInLoop: at once on the base loop, through the queue elsewhere
  if pIoEventLoop = s.pool.baseLoop then s₂.connectedEstablished pIoEventLoop k pTcpConn
  else .ok (s₂.queueInLoop pIoEventLoop (.connectedEstablished k))

def removeConnectionInLoop (s : State) (k : Nat) (c : Connection) : Except Halt State := do
  ensure (.assertion "1 == n") ((s.mpConnection.filter fun p => p.1 = c.name).length = 1)
  let (pIoEventLoop,s₁) ← getNextLoop { s with mpConnection := s.mpConnection.filter fun p => p.1 ≠ c.name }
  let teardown : Teardown := ⟨k,pIoEventLoop,s.calls⟩
  let s₂ := { s₁ with teardowns := s₁.teardowns ++ [teardown] }
  .ok (s₂.queueInLoop pIoEventLoop (.connectedDestroyed k))

def handleClose (s : State) (k : Nat) (c : Connection) : Except Halt State := do
  ensure (.assertion "eTCS_Connected == m_eConnectState || eTCS_Disconnecting == m_eConnectState")
    (c.connectState = .connected ∨ c.connectState = .disconnecting)
  let c' := { c with reading := false }
  let s' := s.setConnection k c'
  if c.loop = s.pool.baseLoop then s'.removeConnectionInLoop k c'
  else .ok (s'.queueInLoop s.pool.baseLoop (.removeConnectionInLoop k))

end State

def step (s : State) : Label → Except Halt State
  | .newConnection => s.newConnection
  | .handleClose k =>
    match s.connection k with
    | none => .error .notEnabled
    | some c => do
      ensure .notEnabled (c.reading = true)
      s.handleClose k c
  | .runFunctor l =>
    match s.queue l with
    | [] => .error .notEnabled
    | f :: rest =>
      let s' := { s with queue := Function.update s.queue l rest }
      match f with
      | .connectedEstablished k => (s.connection k).elim (.error .notEnabled) (s'.connectedEstablished l k)
      | .removeConnectionInLoop k => (s.connection k).elim (.error .notEnabled) (s'.removeConnectionInLoop k)
      | .connectedDestroyed k => (s.connection k).elim (.error .notEnabled) (s'.connectedDestroyed l k)

def initial (baseLoop : Loop) (loops : List Loop) (name : String) : State := {
  pool := ⟨baseLoop,loops,0⟩
  name := name
  nextConnId := 1
  connection := fun _ => none
  mpConnection := []
  queue := fun _ => []
  calls := 0
  teardowns := [] }

/-- After Start: every IO thread has a loop of its own. -/
def machine : Machine State Label Halt :=
  ⟨fun s => ∃ baseLoop loops name, (baseLoop :: loops).Nodup ∧ s = initial baseLoop loops name,step⟩

end LinuxServer.Reactor.TcpServer
