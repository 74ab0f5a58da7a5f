import LinuxServer.Reactor.TcpClose
import LinuxServer.Reactor.EPoller

/-! The life of one connection of a server or a client: who holds a TcpConnectionPtr,
the poller that knows its channel, the loop's batches, and the owner, which can be
destroyed. The loops stay. -/
namespace LinuxServer.Reactor.TcpLifetime
open LinuxServer.Lib
open TcpConnection (Message CallBacks Event Functor)
open TcpServer (Loop EventLoopThreadPool)
open TcpClose (Mask Branch)

/-- A server's connection got a loop of its pool, a client's has the client's. -/
inductive Owner where
  | server (loop : Loop) (pool : EventLoopThreadPool)
  | client

/-- The owner's loop is the connection's, so the close callback is done when it returns. -/
def Owner.SameLoop : Owner → Prop
  | .server loop pool => loop = pool.baseLoop
  | .client => True

instance : (o : Owner) → Decidable o.SameLoop
  | .server _ _ => inferInstanceAs (Decidable (_ = _))
  | .client => isTrue trivial

/-- The close callback does not need the owner any more: ~TcpClient has replaced it. -/
def Owner.Replaces : Owner → Prop
  | .server _ _ => False
  | .client => True

instance : (o : Owner) → Decidable o.Replaces
  | .server _ _ => isFalse id
  | .client => isTrue trivial

/-- A TcpConnectionPtr that is not in the queue of the connection's loop: in the server's
map or the client's member, in newConnection or the functor for ConnectedEstablished,
in handleClose or the functor for the removal (each until its call or its batch is
over), or in a thread's hands. -/
inductive Ref where
  | owner
  | newConnection
  | removal
  | user (t : Thread)
  deriving DecidableEq

/-- The functor is bound to a TcpConnectionPtr, not to the bare this. -/
def owns : Functor → Bool
  | .sendInLoop _ => false
  | .shutDownInLoop => false
  | .writeComplete => true
  | .connectedDestroyed => true

structure State where
  conn : TcpConnection.State
  owner : Owner
  ownerAlive : Bool
  refs : List Ref
  /-- The batch that doPendingFunctors has taken, kept whole until it returns. -/
  vFunctors : List Functor
  /-- ConnectedDestroyed in the queue of a loop that is not the connection's. -/
  strayed : Nat
  /-- The loop handles its active channels; otherwise it runs functors. -/
  inEvents : Bool
  handling : Option (Mask × Branch)
  poller : EPoller.State Unit
  /-- ConnectedDestroyed has run. -/
  torn : Bool

inductive Label where
  | send (t : Thread) (m : Message) (answer : Except Int Nat)
  | shutDown (t : Thread)
  | proceed (t : Thread)
  | connectedEstablished
  | newConnectionReturns
  /-- The poller returns, with or without an event of this channel. -/
  | poll (mask : Option Mask)
  | branch (readAnswer : Except Int (List UInt8)) (writeAnswer : Except Int Nat)
  | swapFunctors
  | runFunctor (answer : Except Int Nat)
  | doPendingFunctorsReturns
  | removeConnection
  | removeConnectionReturns
  | runStrayed
  /-- The server accepts or removes another connection. -/
  | otherConnection
  /-- A thread hands a copy of its pointer to another one, or drops a copy. -/
  | copy (t u : Thread)
  | release (t : Thread)
  | getTcpConnection (t : Thread)
  /-- ~TcpServer or ~TcpClient, in the owner's loop. -/
  | destroyOwner

namespace State

/-- use_count() of the connection. -/
def useCount (s : State) : Nat :=
  s.refs.length + s.strayed + (s.conn.pendingFunctors.filter owns).length + (s.vFunctors.filter owns).length

def Alive (s : State) : Prop := 0 < s.useCount

instance (s : State) : Decidable s.Alive := inferInstanceAs (Decidable (0 < _))

/-- In the connection's loop the owner's close callback has not returned. -/
def InRemoval (s : State) : Prop := s.owner.SameLoop ∧ .removal ∈ s.refs

instance (s : State) : Decidable s.InRemoval := inferInstanceAs (Decidable (_ ∧ _))

end State

section Machine
variable (threadId : Thread) (cb : CallBacks) (nSockFd : Int)

/-- The user's callbacks are given a pointer; it is the loop thread's until released. -/
def offered (c d : TcpConnection.State) : List Ref :=
  if (d.events.drop c.events.length).any (· ≠ .close) then [.user threadId] else []

/-- The calls of the channel between two states of its connection. -/
def channelCalls (c d : TcpConnection.State) : List (EPoller.Call Unit) :=
  if c.closed < d.closed then [.disableAll ()]
  else if c.writing = false ∧ d.writing = true then [.enableWriting ()]
  else if c.writing = true ∧ d.writing = false then [.disableWriting ()]
  else []

namespace State

/-- The connection's code has run in its loop, with these calls of the channel. -/
def ran (s : State) (d : TcpConnection.State) (calls : List (EPoller.Call Unit)) : Except Halt State := do
  let poller ← calls.foldlM (EPoller.step fun _ => nSockFd) s.poller
  .ok { s with
    conn := d
    poller := poller
    refs := s.refs ++ offered threadId s.conn d ++ List.replicate (d.closed - s.conn.closed) .removal }

/-- A thread calls the connection through its pointer. -/
def call (s : State) (t : Thread) (a : TcpConnection.Label) : Except Halt State := do
  ensure .notEnabled (.user t ∈ s.refs ∧ (t = threadId → ¬ s.InRemoval))
  let d ← TcpConnection.step threadId cb s.conn a
  s.ran threadId nSockFd d (channelCalls s.conn d)

/-- A branch of HandleEvent has run; a close callback bound to a dead server has not. -/
def handled (s : State) (d : TcpConnection.State) (next : Option (Mask × Branch)) : Except Halt State := do
  ensure .freed (s.conn.closed < d.closed → s.ownerAlive = true ∨ s.owner.Replaces)
  let s ← s.ran threadId nSockFd d (channelCalls s.conn d)
  .ok { s with handling := next }

def handleEvent (s : State) (mask : Mask) (readAnswer : Except Int (List UInt8)) (writeAnswer : Except Int Nat) :
    Branch → Except Halt State
  | .close => do
    let d ← mask.onClose s.conn
    s.handled threadId nSockFd d (some (mask,.error))
  | .error => .ok { s with handling := some (mask,.read) }
  | .read => do
    let d ← mask.onRead cb s.conn readAnswer
    s.handled threadId nSockFd d (some (mask,.write))
  | .write => do
    let d ← mask.onWrite cb s.conn writeAnswer
    s.handled threadId nSockFd d none

def runFunctor (s : State) (answer : Except Int Nat) (f : Functor) (rest : List Functor) : Except Halt State := do
  ensure .freed s.Alive
  let d ← TcpConnection.State.runFunctor { s.conn with functors := rest } cb answer f
  match f with
  | .connectedDestroyed =>
    let s ← s.ran threadId nSockFd d [.disableAll (),.removeChannel ()]
    .ok { s with torn := true }
  | _ => s.ran threadId nSockFd d (channelCalls s.conn d)

/-- The removal for one close has its connection; what remains is to queue ConnectedDestroyed. -/
def removed (s : State) : State :=
  { s with refs := s.refs.erase .owner, conn := { s.conn with closed := s.conn.closed - 1 } }

def queueConnectedDestroyed (s : State) : State := { s with conn := s.conn.queueInLoop .connectedDestroyed }

/-- TcpServer::removeConnectionInLoop, TcpClient::removeConnection, and behind ~TcpClient
detail::removeConnection. -/
def removeConnection (s : State) : Except Halt State :=
  match s.owner with
  | .server loop pool => do
    ensure .freed (s.ownerAlive = true)
    ensure (.assertion "1 == n") (.owner ∈ s.refs)
    let (pIoEventLoop,pool) ← pool.getNextLoop
    let s := { s.removed with owner := .server loop pool }
    .ok (if pIoEventLoop = loop then s.queueConnectedDestroyed else { s with strayed := s.strayed + 1 })
  | .client => do
    -- m_pTcpConnection is this connection or null
    ensure (.assertion "px != 0") (s.ownerAlive = true → .owner ∈ s.refs)
    .ok s.removed.queueConnectedDestroyed

/-- The events that epoll_wait can report of the channel, if it has the descriptor. -/
def Reports (s : State) (mask : Mask) : Prop :=
  s.Alive ∧ s.poller.kernel nSockFd ≠ none ∧ (mask.pollIn = true ∨ mask.pri = true → s.conn.reading = true) ∧
    (mask.out = true → s.conn.writing = true)

instance (s : State) (mask : Mask) : Decidable (s.Reports nSockFd mask) := inferInstanceAs (Decidable (_ ∧ _ ∧ _ ∧ _))

end State

def step (s : State) : Label → Except Halt State
  | .send t m answer => s.call threadId cb nSockFd t (.send t m answer)
  | .shutDown t => s.call threadId cb nSockFd t (.shutDown t)
  | .proceed t => s.call threadId cb nSockFd t (.proceed t)
  | .connectedEstablished => do
    ensure .notEnabled (.newConnection ∈ s.refs ∧ s.conn.connectState = .connecting ∧ s.handling = none)
    let d ← s.conn.connectedEstablished cb
    s.ran threadId nSockFd d [.enableReading ()]
  | .newConnectionReturns => do
    ensure .notEnabled (.newConnection ∈ s.refs ∧ s.conn.connectState ≠ .connecting)
    .ok { s with refs := s.refs.erase .newConnection }
  | .poll mask => do
    ensure .notEnabled (¬ s.InRemoval ∧ s.inEvents = false ∧ s.vFunctors = [] ∧ ∀ m ∈ mask, s.Reports nSockFd m)
    .ok { s with inEvents := true, handling := mask.map fun m => (m,.close) }
  | .branch readAnswer writeAnswer =>
    match s.handling with
    | some (mask,branch) => do
      ensure .notEnabled (¬ s.InRemoval)
      ensure .freed s.Alive
      s.handleEvent threadId cb nSockFd mask readAnswer writeAnswer branch
    | none => .error .notEnabled
  | .swapFunctors => do
    ensure .notEnabled (¬ s.InRemoval ∧ s.inEvents = true ∧ s.handling = none ∧ s.vFunctors = [])
    let d ← TcpConnection.step threadId cb s.conn .swapFunctors
    .ok { s with conn := d, vFunctors := d.functors, inEvents := false }
  | .runFunctor answer =>
    match s.conn.functors with
    | [] => .error .notEnabled
    | f :: rest => do
      ensure .notEnabled (¬ s.InRemoval ∧ s.inEvents = false)
      s.runFunctor threadId cb nSockFd answer f rest
  | .doPendingFunctorsReturns => do
    ensure .notEnabled (¬ s.InRemoval ∧ s.inEvents = false ∧ s.conn.functors = [])
    .ok { s with vFunctors := [] }
  | .removeConnection => do
    ensure .notEnabled (0 < s.conn.closed)
    s.removeConnection
  | .removeConnectionReturns => do
    ensure .notEnabled (s.conn.closed < s.refs.count .removal)
    .ok { s with refs := s.refs.erase .removal }
  | .runStrayed => do
    ensure .notEnabled (0 < s.strayed)
    .error (.fatal "EventLoop::abortNotInLoopThread")
  | .otherConnection =>
    match s.owner with
    | .server loop pool => do
      ensure .notEnabled (s.ownerAlive = true)
      let (_,pool) ← pool.getNextLoop
      .ok { s with owner := .server loop pool }
    | .client => .error .notEnabled
  | .copy t u => do
    ensure .notEnabled (.user t ∈ s.refs)
    .ok { s with refs := .user u :: s.refs }
  | .release t => do
    ensure .notEnabled (.user t ∈ s.refs ∧ s.conn.pc t = .idle)
    .ok { s with refs := s.refs.erase (.user t) }
  | .getTcpConnection t =>
    match s.owner with
    | .server _ _ => .error .notEnabled
    | .client => do
      ensure .notEnabled (s.ownerAlive = true ∧ .owner ∈ s.refs)
      .ok { s with refs := .user t :: s.refs }
  | .destroyOwner => do
    ensure .notEnabled (s.ownerAlive = true ∧ ¬ s.InRemoval)
    .ok { s with ownerAlive := false, refs := s.refs.erase .owner }

/-- newConnection has put the connection into the map or the member. -/
def initial (owner : Owner) : State := {
  conn := TcpConnection.initial
  owner := owner
  ownerAlive := true
  refs := [.owner,.newConnection]
  vFunctors := []
  strayed := 0
  inEvents := false
  handling := none
  poller := EPoller.init
  torn := false }

def machine : Machine State Label Halt := ⟨fun s => ∃ owner, s = initial owner,step threadId cb nSockFd⟩

end Machine

section Connection
variable {threadId : Thread} {cb : CallBacks} {c d : TcpConnection.State}

/-- What the connection callback was told, call by call. -/
def announcements (events : List Event) : List Bool := events.filterMap fun
  | .connection isConnected => some isConnected
  | _ => none

theorem announcements_append (events events' : List Event) :
    announcements (events ++ events') = announcements events ++ announcements events' := List.filterMap_append ..

/-- What a connection's code does to the queue of its loop and to the threads: without
a thread it is the loop's own, else that thread's call. -/
structure Frame (u : Option Thread) (c d : TcpConnection.State) : Prop where
  functors : d.functors = c.functors
  pending : ∃ fs, d.pendingFunctors = c.pendingFunctors ++ fs ∧
    ∀ f ∈ fs, f = .writeComplete ∨ owns f = false ∧ u.isSome = true
  pc : ∀ t, d.pc t = c.pc t ∨ u = some t ∧ (c.connectState = .connected ∨ c.pc t ≠ .idle)
  closed : c.closed ≤ d.closed

/-- Code that neither establishes the connection nor tears it down. -/
structure Effect (u : Option Thread) (c d : TcpConnection.State) : Prop extends Frame u c d where
  output : d.outputBuffer.WF
  state : d.connectState = c.connectState ∨
    d.connectState = .disconnecting ∧ (c.connectState = .connected ∨ ∃ t, c.pc t = .shuttingDown)
  announced : announcements d.events = announcements c.events

/-- Nothing is queued. -/
theorem Frame.quiet {u : Option Thread} (hfunctors : d.functors = c.functors)
    (hpending : d.pendingFunctors = c.pendingFunctors)
    (hpc : ∀ t, d.pc t = c.pc t ∨ u = some t ∧ (c.connectState = .connected ∨ c.pc t ≠ .idle)) (hclosed : c.closed ≤ d.closed) :
    Frame u c d :=
  ⟨hfunctors,⟨[],by rw [hpending,List.append_nil],by simp⟩,hpc,hclosed⟩

theorem Effect.refl (u : Option Thread) (h : c.outputBuffer.WF) : Effect u c c :=
  ⟨.quiet rfl rfl (fun _ => .inl rfl) (le_refl _),h,.inl rfl,rfl⟩

/-- The loop's own code may also run in a call. -/
private theorem Effect.inCall (h : Effect none c d) (t : Thread) : Effect (some t) c d := by
  obtain ⟨fs,hpending,hfs⟩ := h.pending
  refine ⟨⟨h.functors,⟨fs,hpending,fun f hf => ?_⟩,fun t' => ?_,h.closed⟩,h.output,h.state,h.announced⟩
  · rcases hfs f hf with hf | ⟨-,hnone⟩
    · exact .inl hf
    · cases hnone
  · rcases h.pc t' with hpc | ⟨hnone,-⟩
    · exact .inl hpc
    · cases hnone

/-- One thread moves. -/
private theorem pc_update {t : Thread} {pc : TcpConnection.Pc} (h : c.connectState = .connected ∨ c.pc t ≠ .idle) (t' : Thread) :
    Function.update c.pc t pc t' = c.pc t' ∨ some t = some t' ∧ (c.connectState = .connected ∨ c.pc t' ≠ .idle) := by
  by_cases ht : t' = t
  · rw [ht]
    exact .inr ⟨rfl,h⟩
  · exact .inl (Function.update_of_ne ht _ _)

private theorem completions_writeComplete (done : Prop) [Decidable done] (u : Option Thread) :
    ∀ f ∈ TcpConnection.completions cb done, f = .writeComplete ∨ owns f = false ∧ u.isSome = true := by
  intro f hf
  unfold TcpConnection.completions at hf
  split at hf
  · exact .inl (List.mem_singleton.mp hf)
  · cases hf

private theorem effect_sendInLoop {call : TcpConnection.Call} {answer : Except Int Nat} (h : c.outputBuffer.WF)
    (hs : c.sendInLoop cb call answer = .ok d) : Effect none c d := by
  rcases TcpConnection.sendInLoop_cases h hs with ⟨-,rfl⟩ | ⟨-,n,b,-,-,hb,-,rfl⟩
  · exact ⟨.quiet rfl rfl (fun _ => .inl rfl) (le_refl _),h,.inl rfl,rfl⟩
  · exact ⟨⟨rfl,⟨_,rfl,completions_writeComplete _ _⟩,fun _ => .inl rfl,le_refl _⟩,hb,.inl rfl,rfl⟩

private theorem effect_handleWrite {answer : Except Int Nat} (h : c.outputBuffer.WF) (hs : c.handleWrite cb answer = .ok d) :
    Effect none c d := by
  rcases TcpConnection.handleWrite_cases h hs with ⟨-,rfl⟩ | ⟨-,n,b,-,-,-,hb,-,rfl⟩
  · exact .refl none h
  · exact ⟨⟨rfl,⟨_,rfl,completions_writeComplete _ _⟩,fun _ => .inl rfl,le_refl _⟩,hb,.inl rfl,rfl⟩

private theorem effect_shutDownInLoop (h : c.outputBuffer.WF) : Effect none c c.shutDownInLoop := by
  unfold TcpConnection.State.shutDownInLoop
  split
  · exact ⟨.quiet rfl rfl (fun _ => .inl rfl) (le_refl _),h,.inl rfl,rfl⟩
  · exact .refl none h

private theorem effect_handleClose (h : c.outputBuffer.WF) (hs : c.handleClose = .ok d) : Effect none c d := by
  simp only [TcpConnection.State.handleClose,bind_ok_iff,Except.ok.injEq] at hs
  obtain ⟨-,-,rfl⟩ := hs
  refine ⟨.quiet rfl rfl (fun _ => .inl rfl) (Nat.le_succ _),h,.inl rfl,?_⟩
  rw [announcements_append]
  exact List.append_nil _

private theorem effect_handleRead {answer : Except Int (List UInt8)} (h : c.outputBuffer.WF)
    (hs : c.handleRead cb answer = .ok d) : Effect none c d := by
  cases TcpClose.handleRead_read hs with
  | quiet b => exact ⟨.quiet rfl rfl (fun _ => .inl rfl) (le_refl _),h,.inl rfl,rfl⟩
  | message b readable =>
    refine ⟨.quiet rfl rfl (fun _ => .inl rfl) (le_refl _),h,.inl rfl,?_⟩
    rw [announcements_append]
    exact List.append_nil _
  | close b hlive =>
    refine ⟨.quiet rfl rfl (fun _ => .inl rfl) (Nat.le_succ _),h,.inl rfl,?_⟩
    rw [announcements_append]
    exact List.append_nil _

/-! The branches of HandleEvent, each with its event or without. -/

private theorem effect_onClose {mask : Mask} (h : c.outputBuffer.WF) (hs : mask.onClose c = .ok d) : Effect none c d := by
  unfold Mask.onClose at hs
  split at hs
  · exact effect_handleClose h hs
  · cases hs
    exact .refl none h

private theorem effect_onRead {mask : Mask} {answer : Except Int (List UInt8)} (h : c.outputBuffer.WF)
    (hs : mask.onRead cb c answer = .ok d) : Effect none c d := by
  unfold Mask.onRead at hs
  split at hs
  · exact effect_handleRead h hs
  · cases hs
    exact .refl none h

private theorem effect_onWrite {mask : Mask} {answer : Except Int Nat} (h : c.outputBuffer.WF)
    (hs : mask.onWrite cb c answer = .ok d) : Effect none c d := by
  unfold Mask.onWrite at hs
  split at hs
  · exact effect_handleWrite h hs
  · cases hs
    exact .refl none h

/-- Any functor but ConnectedDestroyed. -/
private theorem effect_runFunctor {answer : Except Int Nat} {f : Functor} (h : c.outputBuffer.WF)
    (hf : f ≠ .connectedDestroyed) (hs : c.runFunctor cb answer f = .ok d) : Effect none c d := by
  cases f with
  | sendInLoop call => exact effect_sendInLoop h hs
  | shutDownInLoop =>
    cases hs
    exact effect_shutDownInLoop h
  | writeComplete =>
    cases hs
    refine ⟨.quiet rfl rfl (fun _ => .inl rfl) (le_refl _),h,.inl rfl,?_⟩
    rw [announcements_append]
    exact List.append_nil _
  | connectedDestroyed => exact absurd rfl hf

/-- A call on a connection that is not up leaves the channel alone. -/
private theorem effect_send {t : Thread} {m : Message} {answer : Except Int Nat} (h : c.outputBuffer.WF)
    (hs : TcpConnection.step threadId cb c (.send t m answer) = .ok d) :
    Effect (some t) c d ∧ (c.connectState ≠ .connected → d = c) := by
  simp only [TcpConnection.step,bind_ok_iff] at hs
  obtain ⟨-,-,payload,-,hs⟩ := hs
  cases payload with
  | none =>
    cases hs
    exact ⟨.refl _ h,fun _ => rfl⟩
  | some bytes =>
    simp only at hs
    split at hs
    · rename_i hconnected
      refine ⟨?_,fun hne => absurd hconnected hne⟩
      split at hs
      · have hcall : Effect none { c with calls := c.calls ++ [⟨t,c.calls.length,bytes⟩] } d :=
          effect_sendInLoop (c := { c with calls := c.calls ++ [⟨t,c.calls.length,bytes⟩] }) h hs
        have hsent : Effect none c d :=
          ⟨⟨hcall.functors,hcall.pending,hcall.pc,hcall.closed⟩,hcall.output,hcall.state,hcall.announced⟩
        exact hsent.inCall t
      · cases hs
        exact ⟨.quiet rfl rfl (pc_update (.inl hconnected)) (le_refl _),h,.inl rfl,rfl⟩
    · cases hs
      exact ⟨.refl _ h,fun _ => rfl⟩

private theorem effect_shutDown {t : Thread} (h : c.outputBuffer.WF)
    (hs : TcpConnection.step threadId cb c (.shutDown t) = .ok d) :
    Effect (some t) c d ∧ (c.connectState ≠ .connected → d = c) := by
  simp only [TcpConnection.step,bind_ok_iff] at hs
  obtain ⟨-,-,hs⟩ := hs
  split at hs
  · rename_i hconnected
    refine ⟨?_,fun hne => absurd hconnected hne⟩
    split at hs
    · cases hs
      unfold TcpConnection.State.shutDownInLoop
      split <;> exact ⟨.quiet rfl rfl (fun _ => .inl rfl) (le_refl _),h,.inr ⟨rfl,.inl hconnected⟩,rfl⟩
    · cases hs
      exact ⟨.quiet rfl rfl (pc_update (.inl hconnected)) (le_refl _),h,.inl rfl,rfl⟩
  · cases hs
    exact ⟨.refl _ h,fun _ => rfl⟩

private theorem effect_proceed {t : Thread} (h : c.outputBuffer.WF)
    (hs : TcpConnection.step threadId cb c (.proceed t) = .ok d) :
    Effect (some t) c d ∧ d.writing = c.writing ∧ d.closed = c.closed := by
  simp only [TcpConnection.step] at hs
  split at hs
  · cases hs
  · rename_i hpc
    cases hs
    exact ⟨⟨⟨rfl,⟨_,rfl,by simp [owns]⟩,pc_update (.inr (by simp [hpc])),le_refl _⟩,h,.inl rfl,rfl⟩,rfl,rfl⟩
  · rename_i hpc
    cases hs
    exact ⟨⟨.quiet rfl rfl (pc_update (.inr (by simp [hpc]))) (le_refl _),h,.inr ⟨rfl,.inr ⟨t,hpc⟩⟩,rfl⟩,rfl,rfl⟩
  · rename_i hpc
    cases hs
    exact ⟨⟨⟨rfl,⟨_,rfl,by simp [owns]⟩,pc_update (.inr (by simp [hpc])),le_refl _⟩,h,.inl rfl,rfl⟩,rfl,rfl⟩

end Connection

section Invariant
variable {threadId : Thread} {cb : CallBacks} {nSockFd : Int} {s t : State} {d : TcpConnection.State}

/-! What each step can do. -/

theorem channelCalls_own (c d : TcpConnection.State) : ∀ call ∈ channelCalls c d, ∀ answer, call ≠ .poll answer := by
  intro call hcall answer
  unfold channelCalls at hcall
  split at hcall
  · simp [List.mem_singleton.mp hcall]
  · split at hcall
    · simp [List.mem_singleton.mp hcall]
    · split at hcall
      · simp [List.mem_singleton.mp hcall]
      · cases hcall

/-- These calls leave a channel in the map that is in it. -/
theorem channelCalls_registered {c d : TcpConnection.State} {p q : EPoller.State Unit} (h : p.mpChannel nSockFd ≠ none)
    (hs : (channelCalls c d).foldlM (EPoller.step fun _ => nSockFd) p = .ok q) : q.mpChannel nSockFd ≠ none := by
  have hone : ∀ {call : EPoller.Call Unit}, (∀ answer, call ≠ .poll answer) → call ≠ .removeChannel () →
      [call].foldlM (EPoller.step fun _ => nSockFd) p = .ok q → q.mpChannel nSockFd ≠ none := by
    intro call hpoll hremove hcall
    simp only [List.foldlM_cons,List.foldlM_nil,bind_ok_iff] at hcall
    obtain ⟨r,hr,hrq⟩ := hcall
    cases hrq
    cases call with
    | poll answer => exact absurd rfl (hpoll answer)
    | removeChannel c => exact absurd rfl hremove
    | _ => exact @EPoller.updateChannel_registers Unit _ (fun _ => nSockFd) _ _ _ hr
  unfold channelCalls at hs
  split at hs
  · exact hone (by simp) (by simp) hs
  · split at hs
    · exact hone (by simp) (by simp) hs
    · split at hs
      · exact hone (by simp) (by simp) hs
      · cases hs
        exact h

theorem channelCalls_none {c : TcpConnection.State} (hwriting : d.writing = c.writing) (hclosed : d.closed = c.closed) :
    channelCalls c d = [] := by
  simp [channelCalls,hwriting,hclosed]

/-- Pointers are added, one of them for each close. -/
theorem ran_cases {calls : List (EPoller.Call Unit)} (hs : s.ran threadId nSockFd d calls = .ok t) : ∃ poller rs,
    calls.foldlM (EPoller.step fun _ => nSockFd) s.poller = .ok poller ∧ d.closed - s.conn.closed ≤ rs.count .removal ∧
      t = { s with conn := d, poller := poller, refs := s.refs ++ rs } := by
  simp only [State.ran,bind_ok_iff,Except.ok.injEq] at hs
  obtain ⟨poller,hpoller,rfl⟩ := hs
  refine ⟨poller,offered threadId s.conn d ++ List.replicate (d.closed - s.conn.closed) .removal,hpoller,?_,?_⟩
  · rw [List.count_append,List.count_replicate_self]
    exact Nat.le_add_left _ _
  · rw [List.append_assoc]

theorem ran_still (s : State) : s.ran threadId nSockFd s.conn (channelCalls s.conn s.conn) = .ok s := by
  rw [State.ran,channelCalls_none rfl rfl]
  simp [offered]

/-- A step with which a thread goes on in Send or ShutDown. -/
def Label.callOf : Label → Option (Thread × TcpConnection.Label)
  | .send t m answer => some (t,.send t m answer)
  | .shutDown t => some (t,.shutDown t)
  | .proceed t => some (t,.proceed t)
  | _ => none

private theorem step_call {a : Label} {u : Thread} {b : TcpConnection.Label} (ha : a.callOf = some (u,b)) :
    step threadId cb nSockFd s a = s.call threadId cb nSockFd u b := by
  cases a with
  | send v m answer =>
    cases ha
    rfl
  | shutDown v =>
    cases ha
    rfl
  | proceed v =>
    cases ha
    rfl
  | _ => cases ha

/-- On a connection that is not up a call leaves the channel alone. -/
private theorem effect_call {a : Label} {u : Thread} {b : TcpConnection.Label} {c : TcpConnection.State} (ha : a.callOf = some (u,b))
    (h : c.outputBuffer.WF) (hs : TcpConnection.step threadId cb c b = .ok d) :
    Effect (some u) c d ∧ (c.connectState ≠ .connected → channelCalls c d = []) := by
  have hsame : d = c → channelCalls c d = [] := by
    rintro rfl
    exact channelCalls_none rfl rfl
  cases a with
  | send v m answer =>
    cases ha
    obtain ⟨heffect,hquiet⟩ := effect_send h hs
    exact ⟨heffect,fun hne => hsame (hquiet hne)⟩
  | shutDown v =>
    cases ha
    obtain ⟨heffect,hquiet⟩ := effect_shutDown h hs
    exact ⟨heffect,fun hne => hsame (hquiet hne)⟩
  | proceed v =>
    cases ha
    obtain ⟨heffect,hwriting,hclosed⟩ := effect_proceed h hs
    exact ⟨heffect,fun _ => channelCalls_none hwriting hclosed⟩
  | _ => cases ha

theorem call_cases {a : Label} {u : Thread} {b : TcpConnection.Label} (h : s.conn.outputBuffer.WF) (ha : a.callOf = some (u,b))
    (hs : step threadId cb nSockFd s a = .ok t) : .user u ∈ s.refs ∧ ∃ d, Effect (some u) s.conn d ∧
      (s.conn.connectState ≠ .connected → channelCalls s.conn d = []) ∧
      s.ran threadId nSockFd d (channelCalls s.conn d) = .ok t := by
  rw [step_call ha] at hs
  simp only [State.call,bind_ok_iff,ensure_ok_iff] at hs
  obtain ⟨-,⟨huser,-⟩,d,hd,hran⟩ := hs
  obtain ⟨heffect,hquiet⟩ := effect_call ha h hd
  exact ⟨huser,d,heffect,hquiet,hran⟩

private theorem handled_cases {next : Option (Mask × Branch)} (hs : s.handled threadId nSockFd d next = .ok t) :
    ∃ t', s.ran threadId nSockFd d (channelCalls s.conn d) = .ok t' ∧ t = { t' with handling := next } := by
  simp only [State.handled,bind_ok_iff,Except.ok.injEq] at hs
  obtain ⟨-,-,t',hran,rfl⟩ := hs
  exact ⟨t',hran,rfl⟩

theorem branch_cases {readAnswer : Except Int (List UInt8)} {writeAnswer : Except Int Nat} (h : s.conn.outputBuffer.WF)
    (hs : step threadId cb nSockFd s (.branch readAnswer writeAnswer) = .ok t) : s.handling ≠ none ∧ ∃ d t' next,
      Effect none s.conn d ∧ s.ran threadId nSockFd d (channelCalls s.conn d) = .ok t' ∧ t = { t' with handling := next } := by
  simp only [step] at hs
  split at hs
  · rename_i mask branch hhandling
    simp only [bind_ok_iff] at hs
    obtain ⟨-,-,-,-,hs⟩ := hs
    refine ⟨by simp [hhandling],?_⟩
    cases branch with
    | close =>
      obtain ⟨d,hd,hs⟩ := (bind_ok_iff _ _ _).mp hs
      obtain ⟨t',hran,rfl⟩ := handled_cases hs
      exact ⟨d,t',_,effect_onClose h hd,hran,rfl⟩
    | error =>
      cases hs
      exact ⟨s.conn,s,_,.refl none h,ran_still s,rfl⟩
    | read =>
      obtain ⟨d,hd,hs⟩ := (bind_ok_iff _ _ _).mp hs
      obtain ⟨t',hran,rfl⟩ := handled_cases hs
      exact ⟨d,t',_,effect_onRead h hd,hran,rfl⟩
    | write =>
      obtain ⟨d,hd,hs⟩ := (bind_ok_iff _ _ _).mp hs
      obtain ⟨t',hran,rfl⟩ := handled_cases hs
      exact ⟨d,t',_,effect_onWrite h hd,hran,rfl⟩
  · cases hs

/-- The batch without its next functor. -/
def State.popped (s : State) (rest : List Functor) : State := { s with conn := { s.conn with functors := rest } }

theorem runFunctor_cases {answer : Except Int Nat} (h : s.conn.outputBuffer.WF)
    (hs : step threadId cb nSockFd s (.runFunctor answer) = .ok t) : s.inEvents = false ∧ ∃ f rest d,
      s.conn.functors = f :: rest ∧ (s.popped rest).conn.runFunctor cb answer f = .ok d ∧
      ((f ≠ .connectedDestroyed ∧ Effect none (s.popped rest).conn d ∧
          (s.popped rest).ran threadId nSockFd d (channelCalls (s.popped rest).conn d) = .ok t) ∨
        (f = .connectedDestroyed ∧ ∃ t', (s.popped rest).ran threadId nSockFd d [.disableAll (),.removeChannel ()] = .ok t' ∧
          t = { t' with torn := true })) := by
  simp only [step] at hs
  split at hs
  · cases hs
  · rename_i f rest hf
    simp only [State.runFunctor,bind_ok_iff,ensure_ok_iff] at hs
    obtain ⟨-,⟨-,hevents⟩,-,-,d,hd,hs⟩ := hs
    refine ⟨hevents,f,rest,d,hf,hd,?_⟩
    split at hs
    · simp only [bind_ok_iff,Except.ok.injEq] at hs
      obtain ⟨t',hran,rfl⟩ := hs
      exact .inr ⟨rfl,t',hran,rfl⟩
    · rename_i hne
      exact .inl ⟨hne,effect_runFunctor (c := (s.popped rest).conn) h hne hd,hs⟩

theorem removeConnection_cases (hs : s.removeConnection = .ok t) : ∃ owner,
    t = { s.removed.queueConnectedDestroyed with owner := owner } ∨
      t = { s.removed with owner := owner, strayed := s.strayed + 1 } := by
  unfold State.removeConnection at hs
  split at hs
  · rename_i loop _ _
    simp only [bind_ok_iff,Except.ok.injEq,Prod.exists] at hs
    obtain ⟨-,-,-,-,l,pool,-,rfl⟩ := hs
    refine ⟨.server loop pool,?_⟩
    split
    · exact .inl rfl
    · exact .inr rfl
  · simp only [bind_ok_iff,Except.ok.injEq] at hs
    obtain ⟨-,-,rfl⟩ := hs
    exact ⟨s.owner,.inl rfl⟩

/-- All that a step can do. -/
inductive Move (threadId : Thread) (cb : CallBacks) (nSockFd : Int) (s : State) : Label → State → Prop where
  /-- A thread goes on in Send or ShutDown. -/
  | call {a : Label} {t : State} {u : Thread} {d : TcpConnection.State} (huser : .user u ∈ s.refs) (hd : Effect (some u) s.conn d)
      (hquiet : s.conn.connectState ≠ .connected → channelCalls s.conn d = [])
      (hran : s.ran threadId nSockFd d (channelCalls s.conn d) = .ok t) : Move threadId cb nSockFd s a t
  | connectedEstablished {t : State} {d : TcpConnection.State} (hcon : s.conn.connectState = .connecting)
      (hd : s.conn.connectedEstablished cb = .ok d) (hran : s.ran threadId nSockFd d [.enableReading ()] = .ok t) :
      Move threadId cb nSockFd s .connectedEstablished t
  | newConnectionReturns : Move threadId cb nSockFd s .newConnectionReturns { s with refs := s.refs.erase .newConnection }
  | poll (mask : Option Mask) (hreports : ∀ m ∈ mask, s.Reports nSockFd m) :
      Move threadId cb nSockFd s (.poll mask) { s with inEvents := true, handling := mask.map fun m => (m,.close) }
  | branch {t : State} {d : TcpConnection.State} {next : Option (Mask × Branch)} (readAnswer : Except Int (List UInt8))
      (writeAnswer : Except Int Nat) (hhandling : s.handling ≠ none) (hd : Effect none s.conn d)
      (hran : s.ran threadId nSockFd d (channelCalls s.conn d) = .ok t) :
      Move threadId cb nSockFd s (.branch readAnswer writeAnswer) { t with handling := next }
  | swapFunctors (hhandling : s.handling = none) (hbatch : s.vFunctors = []) (hempty : s.conn.functors = []) :
      Move threadId cb nSockFd s .swapFunctors { s with
        conn := { s.conn with functors := s.conn.pendingFunctors, pendingFunctors := [] }
        vFunctors := s.conn.pendingFunctors
        inEvents := false }
  | runFunctor {t : State} {d : TcpConnection.State} {f : Functor} {rest : List Functor} (answer : Except Int Nat)
      (hf : s.conn.functors = f :: rest) (hne : f ≠ .connectedDestroyed) (hd : (s.popped rest).conn.runFunctor cb answer f = .ok d)
      (heffect : Effect none (s.popped rest).conn d)
      (hran : (s.popped rest).ran threadId nSockFd d (channelCalls (s.popped rest).conn d) = .ok t) :
      Move threadId cb nSockFd s (.runFunctor answer) t
  | connectedDestroyed {t : State} {d : TcpConnection.State} {rest : List Functor} (answer : Except Int Nat) (hevents : s.inEvents = false)
      (hf : s.conn.functors = .connectedDestroyed :: rest) (hd : (s.popped rest).conn.connectedDestroyed = .ok d)
      (hran : (s.popped rest).ran threadId nSockFd d [.disableAll (),.removeChannel ()] = .ok t) :
      Move threadId cb nSockFd s (.runFunctor answer) { t with torn := true }
  | doPendingFunctorsReturns (hempty : s.conn.functors = []) :
      Move threadId cb nSockFd s .doPendingFunctorsReturns { s with vFunctors := [] }
  | removeConnection {t : State} (h : s.removeConnection = .ok t) : Move threadId cb nSockFd s .removeConnection t
  | removeConnectionReturns (hlt : s.conn.closed < s.refs.count .removal) :
      Move threadId cb nSockFd s .removeConnectionReturns { s with refs := s.refs.erase .removal }
  | otherConnection (owner : Owner) : Move threadId cb nSockFd s .otherConnection { s with owner := owner }
  /-- A thread gets a pointer, from another or from a client. -/
  | gives {a : Label} (u : Thread) : Move threadId cb nSockFd s a { s with refs := .user u :: s.refs }
  | release (u : Thread) (huser : .user u ∈ s.refs) (hidle : s.conn.pc u = .idle) :
      Move threadId cb nSockFd s (.release u) { s with refs := s.refs.erase (.user u) }
  | destroyOwner : Move threadId cb nSockFd s .destroyOwner { s with ownerAlive := false, refs := s.refs.erase .owner }

private theorem move_call {a : Label} {u : Thread} {b : TcpConnection.Label} (h : s.conn.outputBuffer.WF) (ha : a.callOf = some (u,b))
    (hs : step threadId cb nSockFd s a = .ok t) : Move threadId cb nSockFd s a t := by
  obtain ⟨huser,d,hd,hquiet,hran⟩ := call_cases h ha hs
  exact .call huser hd hquiet hran

theorem move_of_step {a : Label} (h : s.conn.outputBuffer.WF) (hs : step threadId cb nSockFd s a = .ok t) :
    Move threadId cb nSockFd s a t := by
  cases a with
  | send u m answer => exact move_call h rfl hs
  | shutDown u => exact move_call h rfl hs
  | proceed u => exact move_call h rfl hs
  | connectedEstablished =>
    simp only [step,bind_ok_iff,ensure_ok_iff] at hs
    obtain ⟨-,⟨-,hcon,-⟩,d,hd,hran⟩ := hs
    exact .connectedEstablished hcon hd hran
  | newConnectionReturns =>
    simp only [step,bind_ok_iff,Except.ok.injEq] at hs
    obtain ⟨-,-,rfl⟩ := hs
    exact .newConnectionReturns
  | poll mask =>
    simp only [step,bind_ok_iff,ensure_ok_iff,Except.ok.injEq] at hs
    obtain ⟨-,⟨-,-,-,hreports⟩,rfl⟩ := hs
    exact .poll mask hreports
  | branch readAnswer writeAnswer =>
    obtain ⟨hhandling,d,t',next,hd,hran,rfl⟩ := branch_cases h hs
    exact .branch readAnswer writeAnswer hhandling hd hran
  | swapFunctors =>
    simp only [step,TcpConnection.step,bind_ok_iff,ensure_ok_iff,Except.ok.injEq] at hs
    obtain ⟨-,⟨-,-,hhandling,hbatch⟩,d,⟨-,hempty,rfl⟩,rfl⟩ := hs
    exact .swapFunctors hhandling hbatch hempty
  | runFunctor answer =>
    obtain ⟨hevents,f,rest,d,hf,hd,⟨hne,heffect,hran⟩ | ⟨rfl,t',hran,rfl⟩⟩ := runFunctor_cases h hs
    · exact .runFunctor answer hf hne hd heffect hran
    · exact .connectedDestroyed answer hevents hf hd hran
  | doPendingFunctorsReturns =>
    simp only [step,bind_ok_iff,ensure_ok_iff,Except.ok.injEq] at hs
    obtain ⟨-,⟨-,-,hempty⟩,rfl⟩ := hs
    exact .doPendingFunctorsReturns hempty
  | removeConnection =>
    simp only [step,bind_ok_iff] at hs
    obtain ⟨-,-,hs⟩ := hs
    exact .removeConnection hs
  | removeConnectionReturns =>
    simp only [step,bind_ok_iff,ensure_ok_iff,Except.ok.injEq] at hs
    obtain ⟨-,hlt,rfl⟩ := hs
    exact .removeConnectionReturns hlt
  | runStrayed =>
    simp only [step,bind_ok_iff] at hs
    obtain ⟨-,-,hs⟩ := hs
    cases hs
  | otherConnection =>
    simp only [step] at hs
    split at hs
    · simp only [bind_ok_iff,Except.ok.injEq,Prod.exists] at hs
      obtain ⟨-,-,l,pool,-,rfl⟩ := hs
      exact .otherConnection _
    · cases hs
  | copy u v =>
    simp only [step,bind_ok_iff,Except.ok.injEq] at hs
    obtain ⟨-,-,rfl⟩ := hs
    exact .gives v
  | release u =>
    simp only [step,bind_ok_iff,ensure_ok_iff,Except.ok.injEq] at hs
    obtain ⟨-,⟨huser,hidle⟩,rfl⟩ := hs
    exact .release u huser hidle
  | getTcpConnection u =>
    simp only [step] at hs
    split at hs
    · cases hs
    · simp only [bind_ok_iff,Except.ok.injEq] at hs
      obtain ⟨-,-,rfl⟩ := hs
      exact .gives u
  | destroyOwner =>
    simp only [step,bind_ok_iff,Except.ok.injEq] at hs
    obtain ⟨-,-,rfl⟩ := hs
    exact .destroyOwner

/-! What holds in every run. -/

structure Inv (cb : CallBacks) (nSockFd : Int) (s : State) : Prop where
  output : s.conn.outputBuffer.WF
  fresh : s.conn.connectState = .connecting → ∀ u, s.conn.pc u = .idle
  past : s.torn = true → s.conn.connectState = .disconnected ∨ s.conn.connectState = .disconnecting
  removals : s.conn.closed ≤ s.refs.count .removal
  batch : ∀ f ∈ s.conn.functors, f ∈ s.vFunctors
  events : s.handling ≠ none → s.inEvents = true
  /-- A thread in a call has its pointer. -/
  calling : ∀ u, s.conn.pc u ≠ .idle → .user u ∈ s.refs
  poller : EPoller.Inv (fun _ : Unit => nSockFd) s.poller
  registered : s.conn.connectState ≠ .connecting → s.torn = false → s.poller.mpChannel nSockFd ≠ none
  announced : announcements s.conn.events =
    if s.conn.connectState = .connecting ∨ cb.connection = false then [] else [true]

theorem inv_initial (owner : Owner) : Inv cb nSockFd (initial owner) := by
  refine ⟨Buffer.new_wf,fun _ _ => rfl,?_,Nat.zero_le _,?_,?_,?_,EPoller.inv_init,?_,rfl⟩ <;>
    simp [initial,TcpConnection.initial]

private theorem oneChannel (nSockFd : Int) : Function.Injective fun _ : Unit => nSockFd := fun _ _ _ => rfl

private theorem inv_ran {u : Option Thread} (h : Inv cb nSockFd s) (hd : Effect u s.conn d)
    (hu : ∀ v, u = some v → .user v ∈ s.refs) (hs : s.ran threadId nSockFd d (channelCalls s.conn d) = .ok t) :
    Inv cb nSockFd t := by
  obtain ⟨poller,rs,hpoller,hrs,rfl⟩ := ran_cases hs
  have hfresh : d.connectState = .connecting → s.conn.connectState = .connecting := by
    intro hcon
    rcases hd.state with hstate | ⟨hstate,-⟩
    · exact hstate.symm.trans hcon
    · cases hstate.symm.trans hcon
  refine ⟨hd.output,fun hcon v => ?_,fun htorn => ?_,?_,?_,h.events,fun v hv => List.mem_append_left _ ?_,
    EPoller.inv_calls (oneChannel nSockFd) h.poller (channelCalls_own _ _) hpoller,fun hne hup => ?_,?_⟩
  · have hidle := h.fresh (hfresh hcon)
    rcases hd.pc v with hpc | ⟨-,hup | hbusy⟩
    · exact hpc.trans (hidle v)
    · cases hup.symm.trans (hfresh hcon)
    · exact absurd (hidle v) hbusy
  · rcases hd.state with hstate | ⟨hstate,-⟩
    · rw [hstate]
      exact h.past htorn
    · exact .inr hstate
  · rw [List.count_append]
    have hremovals := h.removals
    have hclosed := hd.closed
    show d.closed ≤ s.refs.count .removal + rs.count .removal
    omega
  · rw [hd.functors]
    exact h.batch
  · rcases hd.pc v with hpc | ⟨hcaller,-⟩
    · exact h.calling v (by rwa [← hpc])
    · exact hu v hcaller
  · refine channelCalls_registered (h.registered (fun hcon => ?_) hup) hpoller
    rcases hd.state with hstate | ⟨-,hlive | ⟨v,hv⟩⟩
    · exact hne (hstate.trans hcon)
    · cases hlive.symm.trans hcon
    · cases hv.symm.trans (h.fresh hcon v)
  · rw [hd.announced,h.announced]
    rcases hd.state with hstate | ⟨hstate,hup | ⟨v,hv⟩⟩
    · rw [hstate]
    · rw [hstate,hup]
      simp
    · -- a thread that shuts down has seen the connection up
      have hne : s.conn.connectState ≠ .connecting := fun hcon => by cases hv.symm.trans (h.fresh hcon v)
      rw [hstate]
      simp [hne]

/-- Pointers come and go, but not those of the removals and of the threads in a call. -/
private theorem Inv.refs {refs : List Ref} (ownerAlive : Bool) (h : Inv cb nSockFd s) (hremovals : s.conn.closed ≤ refs.count .removal)
    (hcalling : ∀ u, s.conn.pc u ≠ .idle → .user u ∈ s.refs → .user u ∈ refs) :
    Inv cb nSockFd { s with ownerAlive := ownerAlive, refs := refs } :=
  ⟨h.output,h.fresh,h.past,hremovals,h.batch,h.events,fun u hu => hcalling u hu (h.calling u hu),h.poller,h.registered,
    h.announced⟩

private theorem Inv.erase {r : Ref} (ownerAlive : Bool) (h : Inv cb nSockFd s) (hremoval : r ≠ .removal)
    (huser : ∀ u, r = .user u → s.conn.pc u = .idle) : Inv cb nSockFd { s with ownerAlive := ownerAlive, refs := s.refs.erase r } := by
  refine h.refs ownerAlive ?_ fun u hu hmem => ?_
  · rw [List.count_erase_of_ne hremoval.symm]
    exact h.removals
  · have hne : Ref.user u ≠ r := fun he => hu (huser u he.symm)
    exact (List.mem_erase_of_ne hne).mpr hmem

private theorem Inv.cons (h : Inv cb nSockFd s) (u : Thread) : Inv cb nSockFd { s with refs := .user u :: s.refs } :=
  h.refs s.ownerAlive (h.removals.trans List.count_le_count_cons) fun _ _ hmem => List.mem_cons_of_mem _ hmem

private theorem inv_popped {f : Functor} {rest : List Functor} (h : Inv cb nSockFd s) (hf : s.conn.functors = f :: rest) :
    Inv cb nSockFd (s.popped rest) :=
  ⟨h.output,h.fresh,h.past,h.removals,fun g hg => h.batch g (by rw [hf]; exact List.mem_cons_of_mem _ hg),h.events,h.calling,
    h.poller,h.registered,h.announced⟩

private theorem inv_connectedEstablished (h : Inv cb nSockFd s) (hcon : s.conn.connectState = .connecting)
    (hd : s.conn.connectedEstablished cb = .ok d) (hs : s.ran threadId nSockFd d [.enableReading ()] = .ok t) : Inv cb nSockFd t := by
  simp only [TcpConnection.State.connectedEstablished,bind_ok_iff,ensure_ok_iff,Except.ok.injEq] at hd
  obtain ⟨-,-,rfl⟩ := hd
  obtain ⟨poller,rs,hpoller,-,rfl⟩ := ran_cases hs
  have hannounced := h.announced
  rw [if_pos (.inl hcon)] at hannounced
  refine ⟨h.output,fun hcon' => (by cases hcon'),fun htorn => ?_,?_,h.batch,h.events,fun u hu => ?_,
    EPoller.inv_calls (oneChannel nSockFd) h.poller (by simp) hpoller,fun _ _ => ?_,?_⟩
  · rcases h.past htorn with hstate | hstate <;> cases hstate.symm.trans hcon
  · rw [List.count_append]
    exact h.removals.trans (Nat.le_add_right _ _)
  · exact List.mem_append_left _ (h.calling u hu)
  · simp only [List.foldlM_cons,List.foldlM_nil,bind_ok_iff] at hpoller
    obtain ⟨p,hp,hpoller⟩ := hpoller
    cases hpoller
    exact @EPoller.updateChannel_registers Unit _ (fun _ => nSockFd) _ _ _ hp
  · cases hcb : cb.connection with
    | true =>
      simp only [if_true,announcements_append,hannounced]
      rfl
    | false => simpa using hannounced

private theorem inv_connectedDestroyed (h : Inv cb nSockFd s) (hd : s.conn.connectedDestroyed = .ok d)
    (hs : s.ran threadId nSockFd d [.disableAll (),.removeChannel ()] = .ok t) : Inv cb nSockFd { t with torn := true } := by
  simp only [TcpConnection.State.connectedDestroyed,bind_ok_iff,ensure_ok_iff,Except.ok.injEq] at hd
  obtain ⟨-,hlive,rfl⟩ := hd
  obtain ⟨poller,rs,hpoller,-,rfl⟩ := ran_cases hs
  have hannounced := h.announced
  have hne : s.conn.connectState ≠ .connecting := by
    rcases hlive with hstate | hstate <;> simp [hstate]
  refine ⟨h.output,fun hcon => (by cases hcon),fun _ => .inl rfl,?_,h.batch,h.events,fun u hu => ?_,
    EPoller.inv_calls (oneChannel nSockFd) h.poller (by simp) hpoller,fun _ hup => (by cases hup),?_⟩
  · rw [List.count_append]
    exact h.removals.trans (Nat.le_add_right _ _)
  · exact List.mem_append_left _ (h.calling u hu)
  · simpa [hne] using hannounced

private theorem inv_removeConnection (h : Inv cb nSockFd s) (hs : s.removeConnection = .ok t) : Inv cb nSockFd t := by
  have hremovals : s.conn.closed - 1 ≤ (s.refs.erase .owner).count .removal := by
    rw [List.count_erase_of_ne (by decide)]
    exact (Nat.sub_le _ _).trans h.removals
  have hcalling : ∀ u, s.conn.pc u ≠ .idle → .user u ∈ s.refs.erase .owner :=
    fun u hu => (List.mem_erase_of_ne (by simp)).mpr (h.calling u hu)
  obtain ⟨owner,rfl | rfl⟩ := removeConnection_cases hs
  · exact ⟨h.output,h.fresh,h.past,hremovals,h.batch,h.events,hcalling,h.poller,h.registered,h.announced⟩
  · exact ⟨h.output,h.fresh,h.past,hremovals,h.batch,h.events,hcalling,h.poller,h.registered,h.announced⟩

theorem inv_move {a : Label} (h : Inv cb nSockFd s) (hm : Move threadId cb nSockFd s a t) : Inv cb nSockFd t := by
  cases hm with
  | call huser hd hquiet hran => exact inv_ran h hd (fun v hv => by cases hv; exact huser) hran
  | connectedEstablished hcon hd hran => exact inv_connectedEstablished h hcon hd hran
  | newConnectionReturns => exact h.erase s.ownerAlive (by simp) (by simp)
  | poll mask hreports =>
    exact ⟨h.output,h.fresh,h.past,h.removals,h.batch,fun _ => rfl,h.calling,h.poller,h.registered,h.announced⟩
  | branch readAnswer writeAnswer hhandling hd hran =>
    have hi := inv_ran h hd (by simp) hran
    obtain ⟨poller,rs,-,-,rfl⟩ := ran_cases hran
    exact ⟨hi.output,hi.fresh,hi.past,hi.removals,hi.batch,fun _ => h.events hhandling,hi.calling,hi.poller,hi.registered,hi.announced⟩
  | swapFunctors hhandling hbatch hempty =>
    exact ⟨h.output,h.fresh,h.past,h.removals,fun f hf => hf,fun hne => absurd hhandling hne,h.calling,h.poller,h.registered,h.announced⟩
  | runFunctor answer hf hne hd heffect hran => exact inv_ran (inv_popped h hf) heffect (by simp) hran
  | connectedDestroyed answer hevents hf hd hran => exact inv_connectedDestroyed (inv_popped h hf) hd hran
  | doPendingFunctorsReturns hempty =>
    exact ⟨h.output,h.fresh,h.past,h.removals,by simp [hempty],h.events,h.calling,h.poller,h.registered,h.announced⟩
  | removeConnection hremove => exact inv_removeConnection h hremove
  | removeConnectionReturns hlt =>
    refine h.refs s.ownerAlive ?_ fun u _ hmem => (List.mem_erase_of_ne (by simp)).mpr hmem
    rw [List.count_erase_self]
    omega
  | otherConnection owner =>
    exact ⟨h.output,h.fresh,h.past,h.removals,h.batch,h.events,h.calling,h.poller,h.registered,h.announced⟩
  | gives u => exact h.cons u
  | release u huser hidle => exact h.erase s.ownerAlive (by simp) (fun v hv => by cases hv; exact hidle)
  | destroyOwner => exact h.erase false (by simp) (by simp)

theorem inv_step {a : Label} (h : Inv cb nSockFd s) (hs : step threadId cb nSockFd s a = .ok t) : Inv cb nSockFd t :=
  inv_move h (move_of_step h.output hs)

theorem inv_reachable (h : (machine threadId cb nSockFd).Reachable s) : Inv cb nSockFd s := by
  refine h.invariant (P := Inv cb nSockFd) (fun s hs => ?_) fun s a t hi hs => inv_step hi hs
  obtain ⟨owner,rfl⟩ := hs
  exact inv_initial owner

/-- The connection callback was called twice, first for the connection up, then for it down. -/
def AnnouncedUpAndDown (s : State) : Prop := announcements s.conn.events = [true,false]

/-- In every run of a server's or a client's connection with a connection callback, behind
ConnectedDestroyed the callback has been called once, with the connection up. -/
theorem announced_up_only (hcb : cb.connection = true) (h : (machine threadId cb nSockFd).Reachable s) (htorn : s.torn = true) :
    announcements s.conn.events = [true] ∧ ¬ AnnouncedUpAndDown s := by
  have hi := inv_reachable h
  have hne : s.conn.connectState ≠ .connecting := by
    rcases hi.past htorn with hstate | hstate <;> simp [hstate]
  have hup : announcements s.conn.events = [true] := by
    rw [hi.announced,if_neg]
    simp [hne,hcb]
  refine ⟨hup,?_⟩
  rw [AnnouncedUpAndDown,hup]
  decide

/-- The peer's end of stream closes the connection and ConnectedDestroyed runs. -/
def closedByPeer : List Label := [.connectedEstablished,.copy 1 8,.release 1,.newConnectionReturns,.shutDown 8,
  .poll (some ⟨false,false,true,false,false⟩),.branch (.ok []) (.ok 0),.branch (.ok []) (.ok 0),.branch (.ok []) (.ok 0),
  .removeConnection,.removeConnectionReturns,.branch (.ok []) (.ok 0),.swapFunctors,.runFunctor (.ok 0)]

theorem announced_up_only_client : ∃ s, (machine 1 ⟨true,none,false⟩ 9).run (initial .client) closedByPeer = .ok s ∧
    s.torn = true ∧ announcements s.conn.events = [true] ∧ ¬ AnnouncedUpAndDown s := by
  obtain ⟨s,hr,htorn⟩ := (machine 1 ⟨true,none,false⟩ 9).exists_run_eq (s := initial .client) closedByPeer (fun s => s.torn)
    (b := true) (by decide +kernel)
  have hreach : (machine 1 ⟨true,none,false⟩ 9).Reachable s := ⟨initial .client,closedByPeer,⟨.client,rfl⟩,hr⟩
  exact ⟨s,hr,htorn,announced_up_only rfl hreach htorn⟩

/-- A server's connection is torn down and not announced down; a ShutDown that another
thread has begun then takes the state from Disconnected back to Disconnecting. -/
theorem down_not_announced : ∃ s t, (machine 1 ⟨true,none,false⟩ 9).Reachable s ∧ s.torn = true ∧
    s.conn.connectState = .disconnected ∧ s.conn.events = [.connection true,.close] ∧ ¬ AnnouncedUpAndDown s ∧
    step 1 ⟨true,none,false⟩ 9 s (.proceed 8) = .ok t ∧ t.conn.connectState = .disconnecting := by
  obtain ⟨s,hr,hv⟩ := (machine 1 ⟨true,none,false⟩ 9).exists_reachable ⟨.server 0 ⟨0,[],0⟩,rfl⟩ closedByPeer
    (fun s => (s.torn,s.conn.connectState,s.conn.events,
      (step 1 ⟨true,none,false⟩ 9 s (.proceed 8)).toOption.map fun t => t.conn.connectState))
    (b := (true,.disconnected,[.connection true,.close],some .disconnecting)) (by decide +kernel)
  simp only [Prod.mk.injEq] at hv
  obtain ⟨htorn,hstate,hevents,hback⟩ := hv
  have hstep : ∃ t, step 1 ⟨true,none,false⟩ 9 s (.proceed 8) = .ok t ∧ t.conn.connectState = .disconnecting := by
    cases hs : step 1 ⟨true,none,false⟩ 9 s (.proceed 8) with
    | ok t =>
      rw [hs] at hback
      exact ⟨t,rfl,Option.some.inj hback⟩
    | error e =>
      rw [hs] at hback
      cases hback
  obtain ⟨t,hs,ht⟩ := hstep
  refine ⟨s,t,hr,htorn,hstate,hevents,?_,hs,ht⟩
  rw [AnnouncedUpAndDown,hevents]
  decide

end Invariant

end LinuxServer.Reactor.TcpLifetime
