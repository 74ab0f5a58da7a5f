import LinuxServer.Reactor.TcpServer
import LinuxServer.Reactor.TcpSend

/-! The close of one connection of a server: poll results that Channel::HandleEvent
takes branch by branch, the loop's functors, sends from any threads, and the removal
in the base loop, with what the other connections do to the map and the cursor. -/
namespace LinuxServer.Reactor.TcpClose
open LinuxServer.Lib
open TcpConnection (Message CallBacks Event)
open TcpServer (Loop EventLoopThreadPool)

/-- What poll reports; the rest is never reported for a channel of a connection. -/
structure Mask where
  hup : Bool
  err : Bool
  pollIn : Bool
  pri : Bool
  out : Bool
  deriving DecidableEq

/-- Only events that the channel requests, and the two that poll adds for a channel
that requests any. -/
def Mask.Requested (m : Mask) (conn : TcpConnection.State) : Prop :=
  (m.pollIn = true ∨ m.pri = true → conn.reading = true) ∧ (m.out = true → conn.writing = true) ∧
    (m.hup = true ∨ m.err = true → conn.reading = true ∨ conn.writing = true)

instance (m : Mask) (conn : TcpConnection.State) : Decidable (m.Requested conn) := inferInstanceAs (Decidable (_ ∧ _ ∧ _))

/-- POLLHUP without POLLIN. -/
def Mask.Closes (m : Mask) : Prop := m.hup = true ∧ m.pollIn = false

instance (m : Mask) : Decidable m.Closes := inferInstanceAs (Decidable (_ ∧ _))

/-- The branch of HandleEvent that comes next. -/
inductive Branch where
  | close
  | error
  | read
  | write
  deriving DecidableEq

structure State where
  conn : TcpConnection.State
  loop : Loop
  pool : EventLoopThreadPool
  name : String
  /-- The names in the map. -/
  mpConnection : List String
  /-- ConnectedDestroyed in the queue of a loop that is not the connection's. -/
  strayed : Nat
  /-- The loop handles its active channels; otherwise it runs functors. -/
  inEvents : Bool
  handling : Option (Mask × Branch)

inductive Label where
  | send (t : Thread) (m : Message) (answer : Except Int Nat)
  | shutDown (t : Thread)
  | proceed (t : Thread)
  | connectedEstablished
  | poll (mask : Mask)
  | branch (readAnswer : Except Int (List UInt8)) (writeAnswer : Except Int Nat)
  | swapFunctors
  | runFunctor (answer : Except Int Nat)
  | removeConnectionInLoop
  | runStrayed
  /-- The server accepts or removes another connection. -/
  | otherConnection (name : String)
  | otherRemoval (name : String)

/-- TcpServer::removeConnection called RunInLoop in the base loop's thread, which is
also the connection's: it goes on when the removal is done. -/
def State.InRemoval (s : State) : Prop := s.loop = s.pool.baseLoop ∧ 0 < s.conn.closed

instance (s : State) : Decidable s.InRemoval := inferInstanceAs (Decidable (_ ∧ _))

section Machine
variable (threadId : Thread) (cb : CallBacks)

/-- The branches of Channel::HandleEvent. The error callback of a connection only logs. -/
def Mask.onClose (m : Mask) (conn : TcpConnection.State) : Except Halt TcpConnection.State :=
  if m.Closes then conn.handleClose else .ok conn

def Mask.onRead (m : Mask) (conn : TcpConnection.State) (answer : Except Int (List UInt8)) : Except Halt TcpConnection.State :=
  if m.pollIn || m.pri then conn.handleRead cb answer else .ok conn

def Mask.onWrite (m : Mask) (conn : TcpConnection.State) (answer : Except Int Nat) : Except Halt TcpConnection.State :=
  if m.out then conn.handleWrite cb answer else .ok conn

def State.handleEvent (s : State) (mask : Mask) (readAnswer : Except Int (List UInt8)) (writeAnswer : Except Int Nat) :
    Branch → Except Halt State
  | .close => do
    let conn ← mask.onClose s.conn
    .ok { s with conn := conn, handling := some (mask,.error) }
  | .error => .ok { s with handling := some (mask,.read) }
  | .read => do
    let conn ← mask.onRead cb s.conn readAnswer
    .ok { s with conn := conn, handling := some (mask,.write) }
  | .write => do
    let conn ← mask.onWrite cb s.conn writeAnswer
    .ok { s with conn := conn, handling := none }

def State.removeConnectionInLoop (s : State) : Except Halt State := do
  ensure (.assertion "1 == n") (s.mpConnection.count s.name = 1)
  let (pIoEventLoop,pool) ← s.pool.getNextLoop
  let s := { s with
    mpConnection := s.mpConnection.filter (· ≠ s.name)
    pool := pool
    conn := { s.conn with closed := s.conn.closed - 1 } }
  if pIoEventLoop = s.loop then .ok { s with conn := s.conn.queueInLoop .connectedDestroyed }
  else .ok { s with strayed := s.strayed + 1 }

/-- The connection's own steps that any thread may do, those of the loop's thread only
outside the close callback. -/
def State.call (s : State) (t : Thread) (a : TcpConnection.Label) : Except Halt State := do
  ensure .notEnabled (t = threadId → ¬ s.InRemoval)
  let conn ← TcpConnection.step threadId cb s.conn a
  .ok { s with conn := conn }

def step (s : State) : Label → Except Halt State
  | .send t m answer => s.call threadId cb t (.send t m answer)
  | .shutDown t => s.call threadId cb t (.shutDown t)
  | .proceed t => s.call threadId cb t (.proceed t)
  | .connectedEstablished => do
    ensure .notEnabled (s.conn.connectState = .connecting ∧ s.handling = none)
    let conn ← s.conn.connectedEstablished cb
    .ok { s with conn := conn }
  | .poll mask => do
    ensure .notEnabled (¬ s.InRemoval ∧ s.inEvents = false ∧ s.conn.functors = [] ∧ mask.Requested s.conn)
    .ok { s with inEvents := true, handling := some (mask,.close) }
  | .branch readAnswer writeAnswer =>
    match s.handling with
    | none => .error .notEnabled
    | some (mask,branch) => do
      ensure .notEnabled (¬ s.InRemoval)
      s.handleEvent cb mask readAnswer writeAnswer branch
  | .swapFunctors => do
    ensure .notEnabled (¬ s.InRemoval ∧ s.inEvents = true ∧ s.handling = none)
    let conn ← TcpConnection.step threadId cb s.conn .swapFunctors
    .ok { s with conn := conn, inEvents := false }
  | .runFunctor answer => do
    ensure .notEnabled (¬ s.InRemoval ∧ s.inEvents = false)
    let conn ← TcpConnection.step threadId cb s.conn (.runFunctor answer)
    .ok { s with conn := conn }
  | .removeConnectionInLoop => do
    ensure .notEnabled (0 < s.conn.closed)
    s.removeConnectionInLoop
  | .runStrayed => do
    ensure .notEnabled (0 < s.strayed)
    .error (.fatal "EventLoop::abortNotInLoopThread")
  | .otherConnection name => do
    ensure .notEnabled (name ≠ s.name)
    let (_,pool) ← s.pool.getNextLoop
    .ok { s with pool := pool, mpConnection := name :: s.mpConnection.filter (· ≠ name) }
  | .otherRemoval name => do
    ensure .notEnabled (name ≠ s.name)
    let (_,pool) ← s.pool.getNextLoop
    .ok { s with pool := pool, mpConnection := s.mpConnection.filter (· ≠ name) }

/-- After TcpServer::newConnection put the connection into the map. -/
def initial (loop : Loop) (pool : EventLoopThreadPool) (name : String) : State := {
  conn := TcpConnection.initial
  loop := loop
  pool := pool
  name := name
  mpConnection := [name]
  strayed := 0
  inEvents := false
  handling := none }

def machine : Machine State Label Halt := ⟨fun s => ∃ loop pool name, s = initial loop pool name,step threadId cb⟩

end Machine

section Connection
variable {threadId : Thread} {cb : CallBacks} {c d : TcpConnection.State}

/-- Behind the close callback comes neither another one nor a message callback. -/
def ClosesOnce (events : List Event) : Prop :=
  events.Pairwise fun e e' => e = .close → e' ≠ .close ∧ ∀ readable, e' ≠ .message readable

theorem closesOnce_snoc {events : List Event} {e : Event} : ClosesOnce (events ++ [e]) ↔
    ClosesOnce events ∧ (.close ∈ events → e ≠ .close ∧ ∀ readable, e ≠ .message readable) := by
  rw [ClosesOnce,List.pairwise_append,ClosesOnce]
  simp only [List.pairwise_singleton,List.mem_singleton,forall_eq,true_and]
  refine and_congr_right fun _ => ⟨fun h hm => h .close hm rfl,fun h e' hm heq => h (heq ▸ hm)⟩

theorem closesOnce_count {events : List Event} (h : ClosesOnce events) : events.count .close ≤ 1 := by
  induction events with
  | nil => exact Nat.zero_le _
  | cons e events ih =>
    obtain ⟨hhead,htail⟩ := List.pairwise_cons.mp h
    by_cases he : e = .close
    · have hnone : .close ∉ events := fun hm => (hhead .close hm he).1 rfl
      rw [he,List.count_cons_self,List.count_eq_zero.mpr hnone]
    · rw [List.count_cons_of_ne he]
      exact ih htail

def Live (c : TcpConnection.State) : Prop := c.connectState = .connected ∨ c.connectState = .disconnecting

/-- A channel that is watched belongs to a connection that is up; before it was
established nothing has happened; a closed one is never read again. -/
structure ConnInv (c : TcpConnection.State) : Prop where
  output : c.outputBuffer.WF
  watched : c.reading = true ∨ c.writing = true → Live c
  fresh : c.connectState = .connecting → c.functors = [] ∧ c.pendingFunctors = [] ∧ (∀ t, c.pc t = .idle) ∧ .close ∉ c.events
  closed : .close ∈ c.events → c.reading = false

/-- Neither the close nor the message callback is called. -/
structure Quiet (c d : TcpConnection.State) : Prop where
  events : d.events = c.events ∨ ∃ e, d.events = c.events ++ [e] ∧ e ≠ .close ∧ ∀ readable, e ≠ .message readable
  closed : d.closed = c.closed

private theorem live_of_ne {c : TcpConnection.State} (hc : c.connectState ≠ .connecting) (hd : c.connectState ≠ .disconnected) :
    Live c := by
  cases hs : c.connectState with
  | connecting => exact absurd hs hc
  | disconnected => exact absurd hs hd
  | connected => exact .inl hs
  | disconnecting => exact .inr hs

private theorem Live.ne_connecting (h : Live c) : c.connectState ≠ .connecting := by
  rcases h with h | h <;> simp [h]

private theorem conn_sendInLoop {call : TcpConnection.Call} {answer : Except Int Nat} (h : ConnInv c)
    (hc : c.connectState ≠ .connecting) (hs : c.sendInLoop cb call answer = .ok d) :
    ConnInv d ∧ Quiet c d ∧ (Live c → Live d) := by
  rcases TcpConnection.sendInLoop_cases h.output hs with ⟨-,rfl⟩ | ⟨hd,n,b,-,-,hb,-,rfl⟩
  · exact ⟨⟨h.output,h.watched,h.fresh,h.closed⟩,⟨.inl rfl,rfl⟩,id⟩
  · exact ⟨⟨hb,fun _ => live_of_ne hc hd,fun hcon => absurd hcon hc,h.closed⟩,⟨.inl rfl,rfl⟩,id⟩

private theorem conn_handleWrite {answer : Except Int Nat} (h : ConnInv c) (hs : c.handleWrite cb answer = .ok d) :
    ConnInv d ∧ Quiet c d ∧ (Live c → Live d) := by
  rcases TcpConnection.handleWrite_cases h.output hs with ⟨-,rfl⟩ | ⟨hw,n,b,-,-,-,hb,-,rfl⟩
  · exact ⟨h,⟨.inl rfl,rfl⟩,id⟩
  · have hlive : Live c := h.watched (.inr hw)
    exact ⟨⟨hb,fun _ => hlive,fun hcon => absurd hcon hlive.ne_connecting,h.closed⟩,⟨.inl rfl,rfl⟩,id⟩

private theorem conn_shutDownInLoop (h : ConnInv c) :
    ConnInv c.shutDownInLoop ∧ Quiet c c.shutDownInLoop ∧ (Live c → Live c.shutDownInLoop) := by
  unfold TcpConnection.State.shutDownInLoop
  split
  · exact ⟨⟨h.output,h.watched,h.fresh,h.closed⟩,⟨.inl rfl,rfl⟩,id⟩
  · exact ⟨h,⟨.inl rfl,rfl⟩,id⟩

private theorem conn_queue {f : TcpConnection.Functor} (h : ConnInv c) (hc : c.connectState ≠ .connecting) :
    ConnInv (c.queueInLoop f) :=
  ⟨h.output,h.watched,fun hcon => absurd hcon hc,h.closed⟩

private theorem conn_send {t : Thread} {m : Message} {answer : Except Int Nat} (h : ConnInv c)
    (hs : TcpConnection.step threadId cb c (.send t m answer) = .ok d) : ConnInv d ∧ Quiet c d ∧ (Live c → Live d) := by
  simp only [TcpConnection.step,bind_ok_iff] at hs
  obtain ⟨-,-,payload,-,hs⟩ := hs
  cases payload with
  | none =>
    cases hs
    exact ⟨h,⟨.inl rfl,rfl⟩,id⟩
  | some bytes =>
    simp only at hs
    split at hs
    · rename_i hc
      split at hs
      · have hcall : ConnInv { c with calls := c.calls ++ [⟨t,c.calls.length,bytes⟩] } := ⟨h.output,h.watched,h.fresh,h.closed⟩
        obtain ⟨hi,hq,hl⟩ := conn_sendInLoop hcall (by simp [hc]) hs
        exact ⟨hi,⟨hq.events,hq.closed⟩,hl⟩
      · cases hs
        exact ⟨⟨h.output,h.watched,fun hcon => (by cases hc.symm.trans hcon),h.closed⟩,⟨.inl rfl,rfl⟩,id⟩
    · cases hs
      exact ⟨h,⟨.inl rfl,rfl⟩,id⟩

private theorem conn_shutDown {t : Thread} (h : ConnInv c) (hs : TcpConnection.step threadId cb c (.shutDown t) = .ok d) :
    ConnInv d ∧ Quiet c d ∧ (Live c → Live d) := by
  simp only [TcpConnection.step,bind_ok_iff] at hs
  obtain ⟨-,-,hs⟩ := hs
  split at hs
  · rename_i hc
    split at hs
    · cases hs
      have hdown : ConnInv { c with connectState := .disconnecting } := ⟨h.output,fun _ => .inr rfl,by simp,h.closed⟩
      obtain ⟨hi,hq,hl⟩ := conn_shutDownInLoop hdown
      exact ⟨hi,⟨hq.events,hq.closed⟩,fun _ => hl (.inr rfl)⟩
    · cases hs
      exact ⟨⟨h.output,h.watched,fun hcon => (by cases hc.symm.trans hcon),h.closed⟩,⟨.inl rfl,rfl⟩,id⟩
  · cases hs
    exact ⟨h,⟨.inl rfl,rfl⟩,id⟩

private theorem conn_proceed {t : Thread} (h : ConnInv c) (hs : TcpConnection.step threadId cb c (.proceed t) = .ok d) :
    ConnInv d ∧ Quiet c d ∧ (Live c → Live d) := by
  have hpc : c.pc t ≠ .idle → c.connectState ≠ .connecting := fun hne hcon => hne ((h.fresh hcon).2.2.1 t)
  simp only [TcpConnection.step] at hs
  split at hs
  · cases hs
  · rename_i hp
    cases hs
    have hc := hpc (by simp [hp])
    exact ⟨⟨h.output,h.watched,fun hcon => absurd hcon hc,h.closed⟩,⟨.inl rfl,rfl⟩,id⟩
  · cases hs
    exact ⟨⟨h.output,fun _ => .inr rfl,by simp,h.closed⟩,⟨.inl rfl,rfl⟩,fun _ => .inr rfl⟩
  · rename_i hp
    cases hs
    have hc := hpc (by simp [hp])
    exact ⟨⟨h.output,h.watched,fun hcon => absurd hcon hc,h.closed⟩,⟨.inl rfl,rfl⟩,id⟩

private theorem conn_swapFunctors (h : ConnInv c) (hs : TcpConnection.step threadId cb c .swapFunctors = .ok d) :
    ConnInv d ∧ Quiet c d := by
  simp only [TcpConnection.step,bind_ok_iff,ensure_ok_iff,Except.ok.injEq] at hs
  obtain ⟨-,-,rfl⟩ := hs
  refine ⟨⟨h.output,h.watched,fun hcon => ?_,h.closed⟩,⟨.inl rfl,rfl⟩⟩
  obtain ⟨-,hpending,hrest⟩ := h.fresh hcon
  exact ⟨hpending,rfl,hrest⟩

private theorem conn_runFunctor {answer : Except Int Nat} (h : ConnInv c)
    (hs : TcpConnection.step threadId cb c (.runFunctor answer) = .ok d) : ConnInv d ∧ Quiet c d := by
  simp only [TcpConnection.step] at hs
  split at hs
  · cases hs
  · rename_i f rest hf
    have hc : c.connectState ≠ .connecting := by
      intro hcon
      cases hf.symm.trans (h.fresh hcon).1
    have hpop : ConnInv { c with functors := rest } := ⟨h.output,h.watched,fun hcon => absurd hcon hc,h.closed⟩
    cases f with
    | sendInLoop call =>
      obtain ⟨hi,hq,-⟩ := conn_sendInLoop hpop hc hs
      exact ⟨hi,hq.events,hq.closed⟩
    | shutDownInLoop =>
      cases hs
      obtain ⟨hi,hq,-⟩ := conn_shutDownInLoop hpop
      exact ⟨hi,hq.events,hq.closed⟩
    | writeComplete =>
      cases hs
      refine ⟨⟨h.output,h.watched,fun hcon => absurd hcon hc,fun hm => ?_⟩,.inr ⟨.writeComplete,rfl,by simp,by simp⟩,rfl⟩
      exact h.closed (by simpa using hm)
    | connectedDestroyed =>
      simp only [TcpConnection.State.runFunctor,TcpConnection.State.connectedDestroyed,bind_ok_iff,ensure_ok_iff,
        Except.ok.injEq] at hs
      obtain ⟨-,-,rfl⟩ := hs
      exact ⟨⟨h.output,by simp,by simp,fun _ => rfl⟩,.inl rfl,rfl⟩

private theorem conn_established (h : ConnInv c) (hs : c.connectedEstablished cb = .ok d) : ConnInv d ∧ Quiet c d := by
  simp only [TcpConnection.State.connectedEstablished,bind_ok_iff,ensure_ok_iff,Except.ok.injEq] at hs
  obtain ⟨-,hcon,rfl⟩ := hs
  have hnone := (h.fresh hcon).2.2.2
  have hevents : ∀ e : Event, e ≠ .close →
      .close ∉ (if cb.connection then c.events ++ [e] else c.events) := by
    intro e he
    split
    · simp [hnone,he.symm]
    · exact hnone
  refine ⟨⟨h.output,fun _ => .inl rfl,by simp,fun hm => absurd hm (hevents _ (by simp))⟩,?_,rfl⟩
  simp only
  split
  · exact .inr ⟨_,rfl,by simp,by simp⟩
  · exact .inl rfl

/-- The close callback is called, and the channel is disabled. -/
theorem handleClose_eq (h : Live c) : c.handleClose =
    .ok { c with reading := false, writing := false, closed := c.closed + 1, events := c.events ++ [.close] } := by
  have hstate : c.connectState = .connected ∨ c.connectState = .disconnecting := h
  rw [TcpConnection.State.handleClose,ensure_of _ hstate]
  rfl

private theorem live_of_handleClose (hs : c.handleClose = .ok d) : Live c := by
  simp only [TcpConnection.State.handleClose,bind_ok_iff,ensure_ok_iff] at hs
  obtain ⟨-,hlive,-⟩ := hs
  exact hlive

private theorem conn_handleClose (h : ConnInv c) (hlive : Live c) :
    ConnInv { c with reading := false, writing := false, closed := c.closed + 1, events := c.events ++ [.close] } :=
  ⟨h.output,by simp,fun hcon => absurd hcon hlive.ne_connecting,fun _ => rfl⟩

/-- ReadFd returned a count that leads to a callback: 0, or more with a message callback. -/
def CallsBack (cb : CallBacks) (c : TcpConnection.State) (answer : Except Int (List UInt8)) : Prop :=
  ∃ b n errno, c.inputBuffer.readFd 0 answer = .ok (b,n,errno) ∧ (n = 0 ∨ 0 < n ∧ cb.message.isSome = true)

inductive Read (c : TcpConnection.State) : TcpConnection.State → Prop where
  | quiet (b : Buffer) : Read c { c with inputBuffer := b }
  | message (b : Buffer) (readable : List UInt8) :
      Read c { c with inputBuffer := b, events := c.events ++ [.message readable] }
  | close (b : Buffer) (hlive : Live c) : Read c { c with
      inputBuffer := b, reading := false, writing := false, closed := c.closed + 1, events := c.events ++ [.close] }

theorem handleRead_read {answer : Except Int (List UInt8)} (hs : c.handleRead cb answer = .ok d) : Read c d := by
  simp only [TcpConnection.State.handleRead,bind_ok_iff,Prod.exists] at hs
  obtain ⟨b,n,errno,-,hs⟩ := hs
  split at hs
  · split at hs
    · cases hs
      exact .message _ _
    · cases hs
      exact .quiet b
  · split at hs
    · have hlive : Live { c with inputBuffer := b } := live_of_handleClose hs
      rw [handleClose_eq hlive] at hs
      cases hs
      exact .close b hlive
    · cases hs
      exact .quiet b

/-- A read without a callback, and one with it. -/
theorem handleRead_quiet {answer : Except Int (List UInt8)} (hn : ¬ CallsBack cb c answer) (hs : c.handleRead cb answer = .ok d) :
    ∃ b, d = { c with inputBuffer := b } := by
  simp only [TcpConnection.State.handleRead,bind_ok_iff,Prod.exists] at hs
  obtain ⟨b,n,errno,hread,hs⟩ := hs
  split at hs
  · rename_i hpos
    split at hs
    · rename_i hm
      exact absurd ⟨b,n,errno,hread,.inr ⟨hpos,by rw [hm]; rfl⟩⟩ hn
    · cases hs
      exact ⟨b,rfl⟩
  · split at hs
    · rename_i hzero
      exact absurd ⟨b,n,errno,hread,.inl hzero.symm⟩ hn
    · cases hs
      exact ⟨b,rfl⟩

theorem handleRead_callsBack {answer : Except Int (List UInt8)} (hlive : Live c) (h : CallsBack cb c answer) :
    ∃ d e, c.handleRead cb answer = .ok d ∧ d.events = c.events ++ [e] ∧ (e = .close ∨ ∃ readable, e = .message readable) := by
  obtain ⟨b,n,errno,hread,h⟩ := h
  simp only [TcpConnection.State.handleRead,hread,ok_bind]
  rcases h with rfl | ⟨hpos,hsome⟩
  · have hlive' : Live { c with inputBuffer := b } := hlive
    rw [if_neg (lt_irrefl _),if_pos rfl,handleClose_eq hlive']
    exact ⟨_,_,rfl,rfl,.inl rfl⟩
  · obtain ⟨message,hm⟩ := Option.isSome_iff_exists.mp hsome
    rw [if_pos hpos,hm]
    exact ⟨_,_,rfl,rfl,.inr ⟨_,rfl⟩⟩

end Connection

section Invariant
variable {threadId : Thread} {cb : CallBacks} {s t : State}

structure Inv (s : State) : Prop where
  conn : ConnInv s.conn
  handled : ∀ mask b, s.handling = some (mask,b) → s.inEvents = true ∧ (mask.hup = true → Live s.conn)
  /-- A connection that was closed before this poll is not read. -/
  beforeClose : ∀ mask, s.handling = some (mask,.close) → .close ∈ s.conn.events → mask.pollIn = false ∧ mask.pri = false
  afterClose : ∀ mask b, s.handling = some (mask,b) → b = .error ∨ b = .read →
    (mask.Closes → .close ∈ s.conn.events) ∧
      (.close ∈ s.conn.events → mask.Closes ∨ mask.pollIn = false ∧ mask.pri = false)
  /-- The map has the connection until the removal for its close. -/
  entry : s.conn.closed ≤ s.conn.events.count .close ∧
    s.mpConnection.count s.name + s.conn.events.count .close = s.conn.closed + 1

theorem inv_initial (loop : Loop) (pool : EventLoopThreadPool) (name : String) : Inv (initial loop pool name) := by
  refine ⟨⟨Buffer.new_wf,?_,?_,?_⟩,?_,?_,?_,?_⟩ <;> simp [initial,TcpConnection.initial]

private theorem Quiet.mem_iff {c d : TcpConnection.State} (h : Quiet c d) : .close ∈ d.events ↔ .close ∈ c.events := by
  rcases h.events with he | ⟨e,he,hne,-⟩
  · rw [he]
  · simp [he,hne.symm]

private theorem Quiet.count_eq {c d : TcpConnection.State} (h : Quiet c d) : d.events.count .close = c.events.count .close := by
  rcases h.events with he | ⟨e,he,hne,-⟩
  · rw [he]
  · rw [he,List.count_append,List.count_singleton,if_neg (by simp [hne]),Nat.add_zero]

private theorem Quiet.closesOnce {c d : TcpConnection.State} (h : Quiet c d) (hc : ClosesOnce c.events) : ClosesOnce d.events := by
  rcases h.events with he | ⟨e,he,hne,hm⟩
  · rwa [he]
  · rw [he]
    exact closesOnce_snoc.mpr ⟨hc,fun _ => ⟨hne,hm⟩⟩

/-- A step of the connection without a close or a message. -/
private theorem inv_quiet {d : TcpConnection.State} (inEvents : Bool) (h : Inv s) (hd : ConnInv d) (hq : Quiet s.conn d)
    (hl : s.handling = none ∨ inEvents = s.inEvents ∧ (Live s.conn → Live d)) :
    Inv { s with conn := d, inEvents := inEvents } := by
  refine ⟨hd,fun mask b hm => ?_,fun mask hm hc => ?_,fun mask b hm hb => ?_,?_⟩
  · rcases hl with hnone | ⟨rfl,hl⟩
    · cases hnone.symm.trans hm
    · obtain ⟨hin,hlive⟩ := h.handled mask b hm
      exact ⟨hin,fun hup => hl (hlive hup)⟩
  · exact h.beforeClose mask hm (hq.mem_iff.mp hc)
  · simp only [hq.mem_iff]
    exact h.afterClose mask b hm hb
  · simp only [hq.closed,hq.count_eq]
    exact h.entry

private theorem inv_call {u : Thread} {a : TcpConnection.Label} (h : Inv s) (hc : ClosesOnce s.conn.events)
    (hconn : ∀ d, TcpConnection.step threadId cb s.conn a = .ok d → ConnInv d ∧ Quiet s.conn d ∧ (Live s.conn → Live d))
    (hs : s.call threadId cb u a = .ok t) : Inv t ∧ ClosesOnce t.conn.events := by
  simp only [State.call,bind_ok_iff,Except.ok.injEq] at hs
  obtain ⟨-,-,d,hd,rfl⟩ := hs
  obtain ⟨hi,hq,hl⟩ := hconn d hd
  exact ⟨inv_quiet s.inEvents h hi hq (.inr ⟨rfl,hl⟩),hq.closesOnce hc⟩

private theorem inv_poll {mask : Mask} (h : Inv s) (hm : mask.Requested s.conn) :
    Inv { s with inEvents := true, handling := some (mask,.close) } := by
  refine ⟨h.conn,fun mask' b heq => ?_,fun mask' heq hc => ?_,fun mask' b heq hb => ?_,h.entry⟩
  · cases heq
    exact ⟨rfl,fun hup => h.conn.watched (hm.2.2 (.inl hup))⟩
  · cases heq
    have hnot := h.conn.closed hc
    constructor
    · by_contra hin
      cases hnot.symm.trans (hm.1 (.inl (Bool.eq_true_of_not_eq_false hin)))
    · by_contra hpri
      cases hnot.symm.trans (hm.1 (.inr (Bool.eq_true_of_not_eq_false hpri)))
  · cases heq
    rcases hb with hb | hb <;> cases hb

/-- The close callback for the first time, from the close or from the read branch. -/
private theorem inv_close {d : TcpConnection.State} {mask : Mask} {b b' : Branch} (h : Inv s) (hc : ClosesOnce s.conn.events)
    (hfirst : .close ∉ s.conn.events) (hhandling : s.handling = some (mask,b')) (hb : b = .error ∧ mask.Closes ∨ b = .write)
    (hd : ConnInv d) (hlive : Live d) (hevents : d.events = s.conn.events ++ [.close]) (hclosed : d.closed = s.conn.closed + 1) :
    Inv { s with conn := d, handling := some (mask,b) } ∧ ClosesOnce d.events := by
  have hmem : .close ∈ d.events := by rw [hevents]; simp
  have hcount : d.events.count .close = s.conn.events.count .close + 1 := by
    rw [hevents,List.count_append,List.count_singleton_self]
  refine ⟨⟨hd,fun mask' b'' heq => ?_,fun mask' heq => ?_,fun mask' b'' heq hor => ?_,?_⟩,?_⟩
  · cases heq
    exact ⟨(h.handled mask b' hhandling).1,fun _ => hlive⟩
  · cases heq
    rcases hb with ⟨hb,-⟩ | hb <;> cases hb
  · cases heq
    rcases hb with ⟨-,hcloses⟩ | rfl
    · exact ⟨fun _ => hmem,fun _ => .inl hcloses⟩
    · rcases hor with hor | hor <;> cases hor
  · have hentry := h.entry
    simp only [hclosed,hcount]
    exact ⟨by omega,by omega⟩
  · rw [hevents]
    exact closesOnce_snoc.mpr ⟨hc,fun hm => absurd hm hfirst⟩

/-- HandleEvent runs the close callback of a closed connection, or a read callback
behind the close branch of the same event. -/
def Repeats (cb : CallBacks) (s : State) : Label → Prop
  | .branch readAnswer _ => ¬ s.InRemoval ∧ ∃ mask : Mask, mask.Closes ∧
      (s.handling = some (mask,.close) ∧ .close ∈ s.conn.events ∨
        s.handling = some (mask,.read) ∧ mask.pri = true ∧ CallsBack cb s.conn readAnswer)
  | _ => False

private theorem inv_closeBranch {mask : Mask} {readAnswer : Except Int (List UInt8)} {writeAnswer : Except Int Nat} (h : Inv s)
    (hc : ClosesOnce s.conn.events) (hhandling : s.handling = some (mask,.close)) (hfirst : mask.Closes → .close ∉ s.conn.events)
    (hs : s.handleEvent cb mask readAnswer writeAnswer .close = .ok t) : Inv t ∧ ClosesOnce t.conn.events := by
  simp only [State.handleEvent,bind_ok_iff,Except.ok.injEq] at hs
  obtain ⟨d,hd,rfl⟩ := hs
  unfold Mask.onClose at hd
  split at hd
  · rename_i hcloses
    have hlive := (h.handled mask .close hhandling).2 hcloses.1
    rw [handleClose_eq hlive] at hd
    cases hd
    exact inv_close h hc (hfirst hcloses) hhandling (.inl ⟨rfl,hcloses⟩) (conn_handleClose h.conn hlive) hlive rfl rfl
  · rename_i hcloses
    cases hd
    refine ⟨⟨h.conn,fun mask' b heq => ?_,fun mask' heq => ?_,fun mask' b heq _ => ?_,h.entry⟩,hc⟩
    · cases heq
      exact h.handled mask .close hhandling
    · cases heq
    · cases heq
      exact ⟨fun hm => absurd hm hcloses,fun hm => .inr (h.beforeClose mask hhandling hm)⟩

private theorem inv_errorBranch {mask : Mask} (h : Inv s) (hhandling : s.handling = some (mask,.error)) :
    Inv { s with handling := some (mask,.read) } := by
  refine ⟨h.conn,fun mask' b heq => ?_,fun mask' heq => ?_,fun mask' b heq _ => ?_,h.entry⟩
  · cases heq
    exact h.handled mask .error hhandling
  · cases heq
  · cases heq
    exact h.afterClose mask .error hhandling (.inl rfl)

/-- Behind the read branch nothing of what was closed matters any more. -/
private theorem inv_afterRead {mask : Mask} {b : Branch} (h : Inv s) (hhandling : s.handling = some (mask,b)) :
    Inv { s with handling := some (mask,.write) } := by
  refine ⟨h.conn,fun mask' b' heq => ?_,fun mask' heq => ?_,fun mask' b' heq hor => ?_,h.entry⟩
  · cases heq
    exact h.handled mask b hhandling
  · cases heq
  · cases heq
    rcases hor with hor | hor <;> cases hor

private theorem inv_readBranch {mask : Mask} {readAnswer : Except Int (List UInt8)} {writeAnswer : Except Int Nat} (h : Inv s)
    (hc : ClosesOnce s.conn.events) (hhandling : s.handling = some (mask,.read))
    (hquiet : mask.Closes → mask.pri = true → ¬ CallsBack cb s.conn readAnswer)
    (hs : s.handleEvent cb mask readAnswer writeAnswer .read = .ok t) : Inv t ∧ ClosesOnce t.conn.events := by
  simp only [State.handleEvent,bind_ok_iff,Except.ok.injEq] at hs
  obtain ⟨d,hd,rfl⟩ := hs
  have hinput : ∀ b : Buffer, Inv { s with conn := { s.conn with inputBuffer := b }, handling := some (mask,.write) } := by
    intro b
    have hconn : ConnInv { s.conn with inputBuffer := b } := ⟨h.conn.output,h.conn.watched,h.conn.fresh,h.conn.closed⟩
    exact inv_afterRead (inv_quiet s.inEvents h hconn ⟨.inl rfl,rfl⟩ (.inr ⟨rfl,id⟩)) hhandling
  unfold Mask.onRead at hd
  split at hd
  · rename_i hread
    by_cases hclosed : .close ∈ s.conn.events
    · -- the close branch of this event ran, and only urgent data can be read now
      obtain ⟨hcloses,hpri⟩ : mask.Closes ∧ mask.pri = true := by
        have hafter := (h.afterClose mask .read hhandling (.inr rfl)).2 hclosed
        rcases hafter with hcloses | ⟨hin,hpri⟩
        · exact ⟨hcloses,by simpa [hcloses.2] using hread⟩
        · simp [hin,hpri] at hread
      obtain ⟨b,rfl⟩ := handleRead_quiet (hquiet hcloses hpri) hd
      exact ⟨hinput b,hc⟩
    · cases handleRead_read hd with
      | quiet b => exact ⟨hinput b,hc⟩
      | message b readable =>
        have hconn : ConnInv { s.conn with inputBuffer := b, events := s.conn.events ++ [.message readable] } :=
          ⟨h.conn.output,h.conn.watched,fun hcon => ⟨(h.conn.fresh hcon).1,(h.conn.fresh hcon).2.1,(h.conn.fresh hcon).2.2.1,
            by simp [hclosed]⟩,by simp [hclosed]⟩
        have hi := hinput b
        refine ⟨⟨hconn,hi.handled,by simp,by simp,?_⟩,closesOnce_snoc.mpr ⟨hc,fun hm => absurd hm hclosed⟩⟩
        simpa [List.count_append] using h.entry
      | close b hlive =>
        have hconn : ConnInv { s.conn with inputBuffer := b } := ⟨h.conn.output,h.conn.watched,h.conn.fresh,h.conn.closed⟩
        exact inv_close h hc hclosed hhandling (.inr rfl) (conn_handleClose hconn hlive) hlive rfl rfl
  · cases hd
    exact ⟨hinput _,hc⟩

private theorem inv_writeBranch {mask : Mask} {readAnswer : Except Int (List UInt8)} {writeAnswer : Except Int Nat} (h : Inv s)
    (hc : ClosesOnce s.conn.events) (hs : s.handleEvent cb mask readAnswer writeAnswer .write = .ok t) :
    Inv t ∧ ClosesOnce t.conn.events := by
  simp only [State.handleEvent,bind_ok_iff,Except.ok.injEq] at hs
  obtain ⟨d,hd,rfl⟩ := hs
  have hidle : Inv { s with handling := none } := ⟨h.conn,by simp,by simp,by simp,h.entry⟩
  unfold Mask.onWrite at hd
  split at hd
  · obtain ⟨hi,hq,-⟩ := conn_handleWrite h.conn hd
    exact ⟨inv_quiet s.inEvents hidle hi hq (.inl rfl),hq.closesOnce hc⟩
  · cases hd
    exact ⟨hidle,hc⟩

private theorem inv_branch {readAnswer : Except Int (List UInt8)} {writeAnswer : Except Int Nat} (h : Inv s)
    (hc : ClosesOnce s.conn.events) (hn : ¬ Repeats cb s (.branch readAnswer writeAnswer))
    (hs : step threadId cb s (.branch readAnswer writeAnswer) = .ok t) : Inv t ∧ ClosesOnce t.conn.events := by
  simp only [step] at hs
  split at hs
  · cases hs
  · rename_i mask branch hhandling
    simp only [bind_ok_iff,ensure_ok_iff] at hs
    obtain ⟨-,hout,hs⟩ := hs
    cases branch with
    | close => exact inv_closeBranch h hc hhandling (fun hm hmem => hn ⟨hout,mask,hm,.inl ⟨hhandling,hmem⟩⟩) hs
    | error =>
      cases hs
      exact ⟨inv_errorBranch h hhandling,hc⟩
    | read => exact inv_readBranch h hc hhandling (fun hm hpri hcb => hn ⟨hout,mask,hm,.inr ⟨hhandling,hpri,hcb⟩⟩) hs
    | write => exact inv_writeBranch h hc hs

/-- The entry goes with the removal for the one close. -/
private theorem inv_removeConnectionInLoop (h : Inv s) (hc : ClosesOnce s.conn.events) (hpos : 0 < s.conn.closed)
    (hs : s.removeConnectionInLoop = .ok t) : Inv t ∧ ClosesOnce t.conn.events := by
  obtain ⟨hle,hentry⟩ := h.entry
  have hone := closesOnce_count hc
  have hmem : .close ∈ s.conn.events := List.count_pos_iff.mp (by omega)
  have hne : s.conn.connectState ≠ .connecting := fun hcon => (h.conn.fresh hcon).2.2.2 hmem
  simp only [State.removeConnectionInLoop,bind_ok_iff,ensure_ok_iff,Prod.exists] at hs
  obtain ⟨-,-,l,pool,-,hs⟩ := hs
  have hnone : (s.mpConnection.filter (· ≠ s.name)).count s.name = 0 := by
    rw [List.count_eq_zero]
    simp
  have hconn : ConnInv { s.conn with closed := s.conn.closed - 1 } := ⟨h.conn.output,h.conn.watched,h.conn.fresh,h.conn.closed⟩
  split at hs
  · cases hs
    exact ⟨⟨conn_queue hconn hne,h.handled,h.beforeClose,h.afterClose,by
      simp only [TcpConnection.State.queueInLoop,hnone]
      omega⟩,hc⟩
  · cases hs
    exact ⟨⟨hconn,h.handled,h.beforeClose,h.afterClose,by
      simp only [hnone]
      omega⟩,hc⟩

private theorem inv_other {pool : EventLoopThreadPool} {names : List String} (h : Inv s)
    (hcount : names.count s.name = s.mpConnection.count s.name) : Inv { s with pool := pool, mpConnection := names } := by
  refine ⟨h.conn,h.handled,h.beforeClose,h.afterClose,?_⟩
  simp only [hcount]
  exact h.entry

private theorem count_filter_other {names : List String} {name other : String} (hne : other ≠ name) :
    (names.filter (· ≠ other)).count name = names.count name := by
  rw [List.count_filter]
  simp [hne.symm]

theorem inv_step {a : Label} (h : Inv s) (hc : ClosesOnce s.conn.events) (hn : ¬ Repeats cb s a)
    (hs : step threadId cb s a = .ok t) : Inv t ∧ ClosesOnce t.conn.events := by
  cases a with
  | send u m answer => exact inv_call h hc (fun _ hd => conn_send h.conn hd) hs
  | shutDown u => exact inv_call h hc (fun _ hd => conn_shutDown h.conn hd) hs
  | proceed u => exact inv_call h hc (fun _ hd => conn_proceed h.conn hd) hs
  | connectedEstablished =>
    simp only [step,bind_ok_iff,ensure_ok_iff,Except.ok.injEq] at hs
    obtain ⟨-,⟨-,hnone⟩,d,hd,rfl⟩ := hs
    obtain ⟨hi,hq⟩ := conn_established h.conn hd
    exact ⟨inv_quiet s.inEvents h hi hq (.inl hnone),hq.closesOnce hc⟩
  | poll mask =>
    simp only [step,bind_ok_iff,ensure_ok_iff,Except.ok.injEq] at hs
    obtain ⟨-,⟨-,-,-,hm⟩,rfl⟩ := hs
    exact ⟨inv_poll h hm,hc⟩
  | branch readAnswer writeAnswer => exact inv_branch h hc hn hs
  | swapFunctors =>
    simp only [step,bind_ok_iff,ensure_ok_iff,Except.ok.injEq] at hs
    obtain ⟨-,⟨-,-,hnone⟩,d,hd,rfl⟩ := hs
    have hstep : TcpConnection.step threadId cb s.conn .swapFunctors = .ok d := by
      simpa only [TcpConnection.step,bind_ok_iff,ensure_ok_iff,Except.ok.injEq] using hd
    obtain ⟨hi,hq⟩ := conn_swapFunctors h.conn hstep
    exact ⟨inv_quiet false h hi hq (.inl hnone),hq.closesOnce hc⟩
  | runFunctor answer =>
    simp only [step,bind_ok_iff,ensure_ok_iff,Except.ok.injEq] at hs
    obtain ⟨-,⟨-,hin⟩,d,hd,rfl⟩ := hs
    have hnone : s.handling = none := by
      cases hh : s.handling with
      | none => rfl
      | some p => cases hin.symm.trans (h.handled p.1 p.2 hh).1
    obtain ⟨hi,hq⟩ := conn_runFunctor h.conn hd
    exact ⟨inv_quiet s.inEvents h hi hq (.inl hnone),hq.closesOnce hc⟩
  | removeConnectionInLoop =>
    simp only [step,bind_ok_iff,ensure_ok_iff] at hs
    obtain ⟨-,hpos,hs⟩ := hs
    exact inv_removeConnectionInLoop h hc hpos hs
  | runStrayed =>
    simp only [step,bind_ok_iff] at hs
    obtain ⟨-,-,hs⟩ := hs
    cases hs
  | otherConnection name =>
    simp only [step,bind_ok_iff,ensure_ok_iff,Except.ok.injEq,Prod.exists] at hs
    obtain ⟨-,hne,l,pool,-,rfl⟩ := hs
    refine ⟨inv_other h ?_,hc⟩
    rw [List.count_cons_of_ne hne,count_filter_other hne]
  | otherRemoval name =>
    simp only [step,bind_ok_iff,ensure_ok_iff,Except.ok.injEq,Prod.exists] at hs
    obtain ⟨-,hne,l,pool,-,rfl⟩ := hs
    exact ⟨inv_other h (count_filter_other hne),hc⟩

/-- Behind the step, the close callback was called once at most and no message callback
after it; and if the step is a removal, it finds one entry. -/
structure Fine (threadId : Thread) (cb : CallBacks) (s : State) (a : Label) : Prop where
  once : ∀ t, step threadId cb s a = .ok t → ClosesOnce t.conn.events
  entry : a = .removeConnectionInLoop → step threadId cb s a ≠ .error (.assertion "1 == n")

private theorem removal_finds_entry (h : Inv s) (hc : ClosesOnce s.conn.events) :
    step threadId cb s .removeConnectionInLoop ≠ .error (.assertion "1 == n") := by
  intro he
  have hone := closesOnce_count hc
  obtain ⟨hle,hentry⟩ := h.entry
  simp only [step,State.removeConnectionInLoop,bind_error_iff,ensure_error_iff] at he
  rcases he with ⟨-,he⟩ | ⟨_,hpos,⟨hcount,-⟩ | ⟨-,-,he | ⟨_,-,he⟩⟩⟩
  · cases he
  · rw [ensure_ok_iff] at hpos
    exact hcount (by omega)
  · unfold EventLoopThreadPool.getNextLoop at he
    split at he
    · cases he
    · split at he <;> cases he
  · split at he <;> cases he

private theorem not_fine_of_repeats {a : Label} (h : Inv s) (hr : Repeats cb s a) : ¬ Fine threadId cb s a := by
  cases a with
  | branch readAnswer writeAnswer =>
    obtain ⟨hout,mask,hcloses,⟨hhandling,hmem⟩ | ⟨hhandling,hpri,hcb⟩⟩ := hr
    · -- the close branch goes through once more
      intro hf
      have hlive := (h.handled mask .close hhandling).2 hcloses.1
      have hs : ∃ t, step threadId cb s (.branch readAnswer writeAnswer) = .ok t ∧ t.conn.events = s.conn.events ++ [.close] := by
        simp only [step,hhandling,ensure_of _ hout,ok_bind,State.handleEvent,Mask.onClose,if_pos hcloses,handleClose_eq hlive]
        exact ⟨_,rfl,rfl⟩
      obtain ⟨t,ht,hevents⟩ := hs
      have honce := hf.once t ht
      rw [hevents] at honce
      exact ((closesOnce_snoc.mp honce).2 hmem).1 rfl
    · -- the read branch follows the close branch
      intro hf
      have hlive := (h.handled mask .read hhandling).2 hcloses.1
      have hmem := (h.afterClose mask .read hhandling (.inr rfl)).1 hcloses
      obtain ⟨d,e,hd,hevents,he⟩ := handleRead_callsBack hlive hcb
      have hs : ∃ t, step threadId cb s (.branch readAnswer writeAnswer) = .ok t ∧ t.conn.events = s.conn.events ++ [e] := by
        simp only [step,hhandling,ensure_of _ hout,ok_bind,State.handleEvent,Mask.onRead,hpri,Bool.or_true,if_true,hd]
        exact ⟨_,rfl,hevents⟩
      obtain ⟨t,ht,hevents⟩ := hs
      have honce := hf.once t ht
      rw [hevents] at honce
      have hnot := (closesOnce_snoc.mp honce).2 hmem
      rcases he with rfl | ⟨readable,rfl⟩
      · exact hnot.1 rfl
      · exact hnot.2 readable rfl
  | _ => exact absurd hr id

theorem fine_iff {a : Label} (h : Inv s) (hc : ClosesOnce s.conn.events) : Fine threadId cb s a ↔ ¬ Repeats cb s a := by
  constructor
  · intro hf hr
    exact not_fine_of_repeats h hr hf
  · intro hn
    refine ⟨fun t hs => (inv_step h hc hn hs).2,?_⟩
    rintro rfl
    exact removal_finds_entry h hc

/-- For every connection and every run, at every step: the close callback was called
once at most, no message callback came behind it, and a removal finds one entry in the
map; exactly if HandleEvent finds POLLHUP without POLLIN neither on a closed
connection, nor along with POLLPRI before a read that leads to a callback. -/
theorem closes_once_iff (threadId : Thread) (cb : CallBacks) (loop : Loop) (pool : EventLoopThreadPool) (name : String)
    (labels : List Label) : (machine threadId cb).Along (Fine threadId cb) (initial loop pool name) labels ↔
      (machine threadId cb).Along (fun s a => ¬ Repeats cb s a) (initial loop pool name) labels := by
  apply (machine threadId cb).along_iff (P := fun s => Inv s ∧ ClosesOnce s.conn.events)
  · intro s a h
    exact fine_iff h.1 h.2
  · intro s a t h hn hs
    exact inv_step h.1 h.2 hn hs
  · exact ⟨inv_initial loop pool name,List.Pairwise.nil⟩

/-- A server with an IO loop beside its base loop: the peer's end of stream closes the
connection, a send that was queued makes the channel writable again, and POLLHUP closes
it a second time. The second removal finds no entry. -/
theorem hangup_closes_twice : ∃ s, (machine 1 ⟨true,some id,false⟩).Reachable s ∧
    s.conn.events = [.connection true,.close,.close] ∧ s.conn.closed = 1 ∧ ¬ ClosesOnce s.conn.events ∧
    step 1 ⟨true,some id,false⟩ s .removeConnectionInLoop = .error (.assertion "1 == n") := by
  let labels : List Label := [.connectedEstablished,.send 7 (.string [120]) (.ok 0),.proceed 7,
    .poll ⟨false,false,true,false,false⟩,.branch (.ok []) (.ok 0),.branch (.ok []) (.ok 0),.branch (.ok []) (.ok 0),
    .branch (.ok []) (.ok 0),.swapFunctors,.runFunctor (.ok 0),.poll ⟨true,false,false,false,false⟩,.branch (.ok []) (.ok 0),
    .removeConnectionInLoop]
  obtain ⟨s,hr,hv⟩ := (machine 1 ⟨true,some id,false⟩).exists_reachable ⟨1,⟨0,[1],0⟩,"server#1",rfl⟩ labels
    (fun s => (s.conn.events,s.conn.closed,(step 1 ⟨true,some id,false⟩ s .removeConnectionInLoop).map fun _ => ()))
    (b := ([.connection true,.close,.close],1,.error (.assertion "1 == n"))) (by decide +kernel)
  simp only [Prod.mk.injEq] at hv
  obtain ⟨hevents,hclosed,hstep⟩ := hv
  refine ⟨s,hr,hevents,hclosed,?_,(map_error_iff _ _ _).mp hstep⟩
  rw [hevents]
  intro honce
  exact absurd (closesOnce_count honce) (by decide)

end Invariant

end LinuxServer.Reactor.TcpClose
