import LinuxServer.Reactor.Connector
import LinuxServer.Reactor.TcpWriting

/-! The callbacks of a server without IO threads and of a client with its connector, from
their registration to the calls that each connection makes of them. -/
namespace LinuxServer.Reactor.TcpOwners
open LinuxServer.Lib
open TcpConnection (CallBacks Event Functor Message)

/-- A connection and the callbacks set on it. What happened to it is recorded for the
statements only. -/
structure Connection where
  callBacks : CallBacks
  state : TcpConnection.State
  history : List TcpConnection.Label

namespace Connection

def new : Connection := ⟨⟨false,none,false⟩,TcpConnection.initial,[]⟩

def setConnectionCallBack (c : Connection) (connCallBack : Bool) : Connection :=
  { c with callBacks := { c.callBacks with connection := connCallBack } }
def setMessageCallBack (c : Connection) (msgCallBack : Option (Buffer → Buffer)) : Connection :=
  { c with callBacks := { c.callBacks with message := msgCallBack } }
def setWriteCompleteCallBack (c : Connection) (writeCompleteCallBack : Bool) : Connection :=
  { c with callBacks := { c.callBacks with writeComplete := writeCompleteCallBack } }

def step (threadId : Thread) (c : Connection) (a : TcpConnection.Label) : Except Halt Connection := do
  let state ← TcpConnection.step threadId c.callBacks c.state a
  .ok { c with state := state, history := c.history ++ [a] }

end Connection

/-- What can happen to an owner's connection; ConnectedEstablished and the owner's part of
a close are the owner's own steps. -/
inductive Label (β : Type) where
  | owner (a : β)
  | connection (k : Nat) (a : TcpConnection.Label)

namespace Server

structure State where
  callBacks : CallBacks
  name : String
  nextConnId : Nat
  /-- The map from names to connections, which are numbered. -/
  mpConnection : List (String × Nat)
  connection : Nat → Option Connection

namespace State

/-- The constructor's state. The default connection callback only logs, the default
message callback empties the buffer. -/
def new (name : String) : State := {
  callBacks := ⟨false,some Buffer.retrieveAll,false⟩
  name := name
  nextConnId := 1
  mpConnection := []
  connection := fun _ => none }

def setConnectionCallBack (s : State) (connCallBack : Bool) : State :=
  { s with callBacks := { s.callBacks with connection := connCallBack } }
def setMessageCallBack (s : State) (msgCallBack : Option (Buffer → Buffer)) : State :=
  { s with callBacks := { s.callBacks with message := msgCallBack } }
def setWriteCompleteCallBack (s : State) (writeCompleteCallBack : Bool) : State :=
  { s with callBacks := { s.callBacks with writeComplete := writeCompleteCallBack } }

def register (s : State) (cb : CallBacks) : State :=
  ((s.setConnectionCallBack cb.connection).setMessageCallBack cb.message).setWriteCompleteCallBack cb.writeComplete

def connName (s : State) (k : Nat) : String := s.name ++ "#" ++ toString k

def newConnection (threadId : Thread) (s : State) : Except Halt State := do
  ensure .overflow (s.nextConnId + 1 < 2 ^ 31)
  let k := s.nextConnId
  let strConnName := s.connName k
  let pTcpConn := ((Connection.new.setConnectionCallBack s.callBacks.connection).setMessageCallBack
    s.callBacks.message).setWriteCompleteCallBack s.callBacks.writeComplete
  let pTcpConn ← pTcpConn.step threadId .connectedEstablished
  .ok { s with
    nextConnId := k + 1
    mpConnection := (strConnName,k) :: s.mpConnection.filter fun p => p.1 ≠ strConnName
    connection := Function.update s.connection k (some pTcpConn) }

/-- The close callback: removeConnection and removeConnectionInLoop in the one loop. -/
def removeConnection (threadId : Thread) (s : State) (k : Nat) (c : Connection) : Except Halt State := do
  ensure (.assertion "1 == n") ((s.mpConnection.filter fun p => p.1 = s.connName k).length = 1)
  let c ← c.step threadId .queueConnectedDestroyed
  .ok { s with
    mpConnection := s.mpConnection.filter fun p => p.1 ≠ s.connName k
    connection := Function.update s.connection k (some c) }

end State

def step (threadId : Thread) (s : State) : Label Unit → Except Halt State
  | .owner () => s.newConnection threadId
  | .connection k a =>
    match s.connection k with
    | some c => do
      let c ← c.step threadId a
      if 0 < c.state.closed then s.removeConnection threadId k c
      else .ok { s with connection := Function.update s.connection k (some c) }
    | none => .error .notEnabled

/-- The callbacks are registered before Start. -/
def machine (threadId : Thread) (cb : CallBacks) : Machine State (Label Unit) Halt :=
  ⟨fun s => ∃ name, s = (State.new name).register cb,step threadId⟩

end Server

namespace Client

def loses : Connector.Label → Bool
  | .lost _ => true
  | _ => false

/-- Connections are told apart by the descriptors that the connector passes on. -/
structure State where
  callBacks : CallBacks
  nextConnId : Nat
  connector : Connector.State
  connection : Nat → Option Connection

namespace State

def new : State := ⟨⟨false,none,false⟩,1,Connector.initial,fun _ => none⟩

def setConnectionCallBack (s : State) (connCallBack : Bool) : State :=
  { s with callBacks := { s.callBacks with connection := connCallBack } }
def setMessageCallBack (s : State) (msgCallBack : Option (Buffer → Buffer)) : State :=
  { s with callBacks := { s.callBacks with message := msgCallBack } }
/-- The member is assigned to itself; the argument goes nowhere. -/
def setWriteCompleteCallBack (s : State) (_ : Bool) : State :=
  { s with callBacks := { s.callBacks with writeComplete := s.callBacks.writeComplete } }

def register (s : State) (cb : CallBacks) : State :=
  ((s.setConnectionCallBack cb.connection).setMessageCallBack cb.message).setWriteCompleteCallBack cb.writeComplete

def newConnection (threadId : Thread) (s : State) (fd : Nat) : Except Halt State := do
  ensure .overflow (s.nextConnId + 1 < 2 ^ 31)
  let pTcpConn := ((Connection.new.setConnectionCallBack s.callBacks.connection).setMessageCallBack
    s.callBacks.message).setWriteCompleteCallBack s.callBacks.writeComplete
  let pTcpConn ← pTcpConn.step threadId .connectedEstablished
  .ok { s with
    nextConnId := s.nextConnId + 1
    connection := Function.update s.connection fd (some pTcpConn) }

/-- The close callback; with a retry the connector starts again. -/
def removeConnection (threadId : Thread) (s : State) (fd : Nat) (c : Connection) : Except Halt State := do
  let connector ← s.connector.removeConnection fd
  let c ← c.step threadId .queueConnectedDestroyed
  .ok { s with connector := connector, connection := Function.update s.connection fd (some c) }

/-- A step of the connector, with the call of newConnection if it passes a socket on. A
connection is lost, and shut down by DisConnect, in its own steps. -/
def connectorStep (threadId : Thread) (s : State) (a : Connector.Label) : Except Halt State := do
  ensure .notEnabled (loses a = false)
  let connector ← Connector.step s.connector a
  let s' := { s with connector := connector }
  match connector.passed.drop s.connector.passed.length with
  | fd :: _ => s'.newConnection threadId fd
  | [] => .ok s'

end State

def step (threadId : Thread) (s : State) : Label Connector.Label → Except Halt State
  | .owner a => s.connectorStep threadId a
  | .connection fd a =>
    match s.connection fd with
    | some c => do
      let c ← c.step threadId a
      if 0 < c.state.closed then s.removeConnection threadId fd c
      else .ok { s with connection := Function.update s.connection fd (some c) }
    | none => .error .notEnabled

/-- The callbacks are registered before Connect. -/
def machine (threadId : Thread) (cb : CallBacks) : Machine State (Label Connector.Label) Halt :=
  ⟨fun s => s = State.new.register cb,step threadId⟩

end Client

section Mute
open TcpConnection (State notified)
variable {threadId : Thread} {cb : CallBacks} {s t : State} {answer : Except Int Nat}

/-- The callbacks without the write-complete callback. -/
def muted (cb : CallBacks) : CallBacks := { cb with writeComplete := false }

/-- The connection without its notifications. -/
def mute (s : State) : State := { s with
  functors := s.functors.filter (· ≠ .writeComplete)
  pendingFunctors := s.pendingFunctors.filter (· ≠ .writeComplete)
  events := s.events.filter (· ≠ .writeComplete) }

/-- The step runs a notification. -/
def notifies (s : State) : TcpConnection.Label → Bool
  | .runFunctor _ => decide (s.functors.head? = some .writeComplete)
  | _ => false

theorem mute_queueInLoop {f : Functor} (hf : f ≠ .writeComplete) : mute (s.queueInLoop f) = (mute s).queueInLoop f := by
  simp [mute,State.queueInLoop,List.filter_append,hf]

theorem mute_queueWriteComplete : mute (s.queueWriteComplete cb) = mute s := by
  unfold State.queueWriteComplete
  split
  · simp [mute,State.queueInLoop,List.filter_append]
  · rfl

theorem queueWriteComplete_connectState : (s.queueWriteComplete cb).connectState = s.connectState := by
  unfold State.queueWriteComplete
  split <;> rfl

theorem queueWriteComplete_muted : s.queueWriteComplete (muted cb) = s := if_neg Bool.false_ne_true

theorem mute_write {data : List UInt8} (hs : s.write data answer = .ok t) : (mute s).write data answer = .ok (mute t) := by
  cases answer with
  | ok n =>
    simp only [State.write,bind_ok_iff,Except.ok.injEq] at hs ⊢
    obtain ⟨u,hn,rfl⟩ := hs
    exact ⟨u,hn,rfl⟩
  | error errno =>
    cases hs
    rfl

theorem mute_writeDirectly {data : List UInt8} {r : State × Nat × Nat} (hs : s.writeDirectly cb data answer = .ok r) :
    (mute s).writeDirectly (muted cb) data answer = .ok (mute r.1,r.2) := by
  unfold State.writeDirectly at hs ⊢
  by_cases hd : s.writing = false ∧ 0 = s.outputBuffer.readableBytes
  · rw [if_pos hd] at hs
    rw [if_pos (show (mute s).writing = false ∧ 0 = (mute s).outputBuffer.readableBytes from hd)]
    obtain ⟨s',hw,hs⟩ := (bind_ok_iff _ _ _).mp hs
    rw [mute_write hw,ok_bind]
    cases answer with
    | ok n =>
      cases hs
      simp only [queueWriteComplete_muted,ite_self]
      split
      · rw [mute_queueWriteComplete]
      · rfl
    | error errno =>
      cases hs
      rfl
  · rw [if_neg hd] at hs
    rw [if_neg (show ¬ ((mute s).writing = false ∧ 0 = (mute s).outputBuffer.readableBytes) from hd)]
    cases hs
    rfl

theorem mute_sendInLoop {c : TcpConnection.Call} (hs : s.sendInLoop cb c answer = .ok t) :
    (mute s).sendInLoop (muted cb) c answer = .ok (mute t) := by
  unfold State.sendInLoop at hs ⊢
  by_cases hd : s.connectState = .disconnected
  · rw [if_pos hd] at hs
    rw [if_pos (show (mute s).connectState = .disconnected from hd)]
    cases hs
    rfl
  · rw [if_neg hd] at hs
    rw [if_neg (show ¬ (mute s).connectState = .disconnected from hd)]
    obtain ⟨r,hw,hs⟩ := (bind_ok_iff _ _ _).mp hs
    rw [mute_writeDirectly hw,ok_bind]
    simp only [bind_ok_iff] at hs ⊢
    obtain ⟨u,hle,hs⟩ := hs
    refine ⟨u,hle,?_⟩
    split at hs
    · rename_i hrest
      obtain ⟨b,hb,hs⟩ := (bind_ok_iff _ _ _).mp hs
      cases hs
      rw [if_pos hrest]
      exact (bind_ok_iff _ _ _).mpr ⟨b,hb,rfl⟩
    · rename_i hrest
      cases hs
      rw [if_neg hrest]
      rfl

theorem mute_shutDownInLoop : mute s.shutDownInLoop = (mute s).shutDownInLoop := by
  unfold State.shutDownInLoop
  by_cases hw : s.writing = false
  · rw [if_pos hw,if_pos (show (mute s).writing = false from hw)]
    rfl
  · rw [if_neg hw,if_neg (show ¬ (mute s).writing = false from hw)]

theorem mute_handleWrite (hs : s.handleWrite cb answer = .ok t) :
    (mute s).handleWrite (muted cb) answer = .ok (mute t) := by
  unfold State.handleWrite at hs ⊢
  cases hw : s.writing with
  | false =>
    rw [hw,if_neg Bool.false_ne_true] at hs
    rw [show (mute s).writing = false from hw,if_neg Bool.false_ne_true]
    cases hs
    rfl
  | true =>
    rw [hw,if_pos rfl] at hs
    rw [show (mute s).writing = true from hw,if_pos rfl]
    obtain ⟨data,hpeek,hs⟩ := (bind_ok_iff _ _ _).mp hs
    obtain ⟨s₁,hwrite,hs⟩ := (bind_ok_iff _ _ _).mp hs
    rw [show (mute s).outputBuffer = s.outputBuffer from rfl,hpeek,ok_bind,mute_write hwrite,ok_bind]
    cases answer with
    | ok n =>
      simp only at hs ⊢
      split at hs
      · rename_i hpos
        obtain ⟨b,hb,hs⟩ := (bind_ok_iff _ _ _).mp hs
        rw [if_pos hpos,show (mute s₁).outputBuffer = s₁.outputBuffer from rfl,hb,ok_bind]
        split at hs
        · rename_i hempty
          cases hs
          rw [if_pos hempty,queueWriteComplete_muted,apply_ite mute,mute_shutDownInLoop,mute_queueWriteComplete,
            queueWriteComplete_connectState]
          rfl
        · rename_i hmore
          cases hs
          rw [if_neg hmore]
          rfl
      · cases hs
    | error errno => cases hs

theorem mute_handleClose (hs : s.handleClose = .ok t) : (mute s).handleClose = .ok (mute t) := by
  simp only [State.handleClose,bind_ok_iff,Except.ok.injEq] at hs ⊢
  obtain ⟨u,hup,rfl⟩ := hs
  exact ⟨u,hup,by simp [mute,List.filter_append]⟩

theorem mute_handleRead {answer : Except Int (List UInt8)} (hs : s.handleRead cb answer = .ok t) :
    (mute s).handleRead (muted cb) answer = .ok (mute t) := by
  simp only [State.handleRead,bind_ok_iff] at hs ⊢
  obtain ⟨⟨b,n,e⟩,hread,hs⟩ := hs
  refine ⟨⟨b,n,e⟩,hread,?_⟩
  simp only at hs ⊢
  split at hs
  · rename_i hpos
    rw [if_pos hpos,show (muted cb).message = cb.message from rfl]
    split at hs <;> cases hs <;> simp [mute,List.filter_append]
  · rename_i hpos
    rw [if_neg hpos]
    split at hs
    · rename_i hzero
      rw [if_pos hzero]
      exact mute_handleClose (s := { s with inputBuffer := b }) hs
    · rename_i hzero
      rw [if_neg hzero]
      cases hs
      rfl

theorem mute_runFunctor {f : Functor} (hf : f ≠ .writeComplete) (hs : s.runFunctor cb answer f = .ok t) :
    (mute s).runFunctor (muted cb) answer f = .ok (mute t) := by
  cases f with
  | sendInLoop c => exact mute_sendInLoop hs
  | shutDownInLoop =>
    cases hs
    exact congrArg Except.ok mute_shutDownInLoop.symm
  | writeComplete => exact absurd rfl hf
  | connectedDestroyed =>
    simp only [State.runFunctor,State.connectedDestroyed,bind_ok_iff,Except.ok.injEq] at hs ⊢
    obtain ⟨u,hup,rfl⟩ := hs
    exact ⟨u,hup,rfl⟩

/-- A notification shows in nothing but the calls of its callback. -/
theorem mute_of_notifies {a : TcpConnection.Label} (hs : TcpConnection.step threadId cb s a = .ok t)
    (hn : notifies s a = true) : mute t = mute s := by
  cases a with
  | runFunctor answer =>
    obtain ⟨rest,hf⟩ := List.head?_eq_some_iff.mp (of_decide_eq_true hn)
    simp only [TcpConnection.step,hf] at hs
    cases hs
    simp [mute,hf,List.filter_append]
  | _ => cases hn

/-- Every other step is one of the connection without notifications. -/
theorem step_mute {a : TcpConnection.Label} (hs : TcpConnection.step threadId cb s a = .ok t)
    (hn : notifies s a = false) : TcpConnection.step threadId (muted cb) (mute s) a = .ok (mute t) := by
  cases a with
  | send u m answer =>
    simp only [TcpConnection.step,bind_ok_iff] at hs ⊢
    obtain ⟨w,hidle,bytes,hm,hs⟩ := hs
    refine ⟨w,hidle,bytes,hm,?_⟩
    cases bytes with
    | none => cases hs; rfl
    | some bytes =>
      simp only at hs ⊢
      split at hs
      · rename_i hconnected
        rw [if_pos (show (mute s).connectState = .connected from hconnected)]
        split at hs
        · rename_i hu
          rw [if_pos hu]
          exact mute_sendInLoop (s := { s with calls := s.calls ++ [⟨u,s.calls.length,bytes⟩] }) hs
        · rename_i hu
          rw [if_neg hu]
          cases hs
          rfl
      · rename_i hconnected
        rw [if_neg (show ¬ (mute s).connectState = .connected from hconnected)]
        cases hs
        rfl
  | shutDown u =>
    simp only [TcpConnection.step,bind_ok_iff] at hs ⊢
    obtain ⟨w,hidle,hs⟩ := hs
    refine ⟨w,hidle,?_⟩
    split at hs
    · rename_i hconnected
      rw [if_pos (show (mute s).connectState = .connected from hconnected)]
      split at hs
      · rename_i hu
        rw [if_pos hu]
        cases hs
        exact congrArg Except.ok (mute_shutDownInLoop (s := { s with connectState := .disconnecting })).symm
      · rename_i hu
        rw [if_neg hu]
        cases hs
        rfl
    · rename_i hconnected
      rw [if_neg (show ¬ (mute s).connectState = .connected from hconnected)]
      cases hs
      rfl
  | proceed u =>
    simp only [TcpConnection.step,show (mute s).pc = s.pc from rfl] at hs ⊢
    split at hs
    · cases hs
    · cases hs
      exact congrArg Except.ok (mute_queueInLoop (s := { s with pc := Function.update s.pc u .idle }) (by simp)).symm
    · cases hs
      rfl
    · cases hs
      exact congrArg Except.ok (mute_queueInLoop (s := { s with pc := Function.update s.pc u .idle }) (by simp)).symm
  | connectedEstablished =>
    simp only [TcpConnection.step,State.connectedEstablished,bind_ok_iff,Except.ok.injEq] at hs ⊢
    obtain ⟨w,hconnecting,rfl⟩ := hs
    refine ⟨w,hconnecting,?_⟩
    cases hcb : cb.connection <;> simp [mute,muted,hcb,List.filter_append]
  | handleRead answer =>
    simp only [TcpConnection.step,bind_ok_iff] at hs ⊢
    obtain ⟨w,hreading,hs⟩ := hs
    exact ⟨w,hreading,mute_handleRead hs⟩
  | handleWrite answer => exact mute_handleWrite hs
  | handleClose =>
    simp only [TcpConnection.step,bind_ok_iff] at hs ⊢
    obtain ⟨w,hwatched,hs⟩ := hs
    exact ⟨w,hwatched,mute_handleClose hs⟩
  | queueConnectedDestroyed =>
    simp only [TcpConnection.step,bind_ok_iff,Except.ok.injEq] at hs ⊢
    obtain ⟨w,hclosed,rfl⟩ := hs
    exact ⟨w,hclosed,(mute_queueInLoop (s := { s with closed := s.closed - 1 }) (by simp)).symm⟩
  | swapFunctors =>
    simp only [TcpConnection.step,bind_ok_iff,ensure_ok_iff,Except.ok.injEq] at hs ⊢
    obtain ⟨w,hempty,rfl⟩ := hs
    exact ⟨w,by simp [mute,hempty],rfl⟩
  | runFunctor answer =>
    simp only [TcpConnection.step] at hs ⊢
    split at hs
    · cases hs
    · rename_i f rest hf
      have hne : f ≠ .writeComplete := fun he => by
        rw [he] at hf
        simp [notifies,hf] at hn
      have hhead : (mute s).functors = f :: rest.filter (· ≠ .writeComplete) := by
        simp [mute,hf,hne]
      rw [hhead]
      exact mute_runFunctor (s := { s with functors := rest }) hne hs

theorem notified_append {fs : List Functor} (he : t.events = s.events) (hf : t.functors = s.functors)
    (hp : t.pendingFunctors = s.pendingFunctors ++ fs) : notified t = notified s + TcpConnection.completed s t := by
  rw [TcpConnection.completed_append fs hp,notified,notified,he,hf,hp,← List.append_assoc,List.count_append,Nat.add_assoc]

theorem notified_still (hp : t.pendingFunctors = s.pendingFunctors) (hn : notified t = notified s) :
    notified t = notified s + TcpConnection.completed s t := by
  rw [TcpConnection.completed_append [] (by rw [hp,List.append_nil]),hn]
  rfl

private theorem notified_sendInLoop {c : TcpConnection.Call} (hb : s.outputBuffer.WF)
    (hs : s.sendInLoop cb c answer = .ok t) : notified t = notified s + TcpConnection.completed s t := by
  rcases TcpConnection.sendInLoop_cases hb hs with ⟨-,rfl⟩ | ⟨-,n,b,-,-,-,-,rfl⟩
  · exact notified_still rfl rfl
  · exact notified_append rfl rfl rfl

/-- No notification is lost, and none comes from elsewhere. -/
theorem notified_step {a : TcpConnection.Label} (hb : s.outputBuffer.WF)
    (hs : TcpConnection.step threadId cb s a = .ok t) : notified t = notified s + TcpConnection.completed s t := by
  rcases TcpConnection.move_of_step hs with ⟨hq,-,-⟩ | ⟨r,c,answer,hq,hp,-,-,hrun⟩ | ⟨answer,-,hrun⟩ | ⟨-,-,hc,hn,-,-⟩
  · rw [hq.notified,hq.completed,Nat.add_zero]
  · have hsend := notified_sendInLoop (by rw [hq.outputBuffer]; exact hb) hrun
    rwa [hq.notified,TcpConnection.completed,hp] at hsend
  · rcases TcpConnection.handleWrite_cases hb hrun with ⟨-,rfl⟩ | ⟨-,n,b,-,-,-,-,-,rfl⟩
    · exact notified_still rfl rfl
    · exact notified_append rfl rfl rfl
  · rw [hn,hc,Nat.add_zero]

/-- The step writes all that there is to write: a whole message directly, or the rest of
the output. -/
def Completes (threadId : Thread) (s : State) : TcpConnection.Label → Prop
  | .send t m answer => t = threadId ∧ s.connectState = .connected ∧
    ∃ bytes, m.payload = .ok (some bytes) ∧ s.Direct ∧ answer = .ok bytes.length
  | .runFunctor answer => s.connectState ≠ .disconnected ∧
    ∃ c, s.functors.head? = some (.sendInLoop c) ∧ s.Direct ∧ answer = .ok c.payload.length
  | .handleWrite answer => s.writing = true ∧ answer = .ok s.outputBuffer.readable.length
  | _ => False

private theorem completes_sendInLoop {c : TcpConnection.Call} (hb : s.outputBuffer.WF)
    (hs : s.sendInLoop cb c answer = .ok t) : 0 < TcpConnection.completed s t ↔
      cb.writeComplete = true ∧ s.connectState ≠ .disconnected ∧ s.Direct ∧ answer = .ok c.payload.length := by
  rcases TcpConnection.sendInLoop_cases hb hs with ⟨hdown,rfl⟩ | ⟨hup,n,b,-,-,-,-,rfl⟩
  · exact iff_of_false (by simp [TcpConnection.completed]) fun h => h.2.1 hdown
  · rw [@TcpConnection.completed_pos_iff cb s _ (s.Direct ∧ answer = .ok c.payload.length) _ rfl]
    exact and_congr_right fun _ => (and_iff_right hup).symm

/-- A notification is queued exactly by these steps, if there is a callback. -/
theorem completes_iff {a : TcpConnection.Label} (hb : s.outputBuffer.WF)
    (hs : TcpConnection.step threadId cb s a = .ok t) :
    0 < TcpConnection.completed s t ↔ cb.writeComplete = true ∧ Completes threadId s a := by
  cases a with
  | handleWrite answer =>
    rcases TcpConnection.handleWrite_cases hb hs with ⟨hidle,rfl⟩ | ⟨hw,n,b,rfl,-,-,-,-,rfl⟩
    · refine iff_of_false (by simp [TcpConnection.completed]) ?_
      rintro ⟨-,hw,-⟩
      cases hidle.symm.trans hw
    · rw [@TcpConnection.completed_pos_iff cb s _ (n = s.outputBuffer.readable.length) _ rfl]
      simp [Completes,hw]
  | send u m answer =>
    obtain ⟨-,⟨rfl,hm | ⟨bytes,hm,hconnected⟩⟩ | ⟨bytes,hm,hconnected,⟨hu,hs⟩ | ⟨hu,rfl⟩⟩⟩ := TcpConnection.send_cases hs
    · refine iff_of_false (by simp [TcpConnection.completed]) ?_
      rintro ⟨-,-,-,bytes,hbytes,-⟩
      cases hm.symm.trans hbytes
    · exact iff_of_false (by simp [TcpConnection.completed]) fun h => hconnected h.2.2.1
    · have hsend := completes_sendInLoop (s := { s with calls := s.calls ++ [⟨u,s.calls.length,bytes⟩] }) hb hs
      refine hsend.trans (and_congr_right fun _ => ?_)
      constructor
      · rintro ⟨-,hd,ha⟩
        exact ⟨hu,hconnected,bytes,hm,hd,ha⟩
      · rintro ⟨-,-,bytes',hbytes,hd,ha⟩
        cases hm.symm.trans hbytes
        exact ⟨by simp [hconnected],hd,ha⟩
    · exact iff_of_false (by simp [TcpConnection.completed]) fun h => hu h.2.1
  | runFunctor answer =>
    have hmove := TcpConnection.move_of_step hs
    simp only [TcpConnection.step] at hs
    split at hs
    · cases hs
    · rename_i f rest hf
      by_cases hc : ∃ c, f = .sendInLoop c
      · obtain ⟨c,rfl⟩ := hc
        have hsend := completes_sendInLoop (s := { s with functors := rest }) hb hs
        refine hsend.trans (and_congr_right fun _ => and_congr_right fun _ => ?_)
        simp [hf,State.Direct]
      · have hnone : ∀ c, s.functors.head? ≠ some (.sendInLoop c) := fun c he => hc ⟨c,by simpa [hf] using he⟩
        have hzero : TcpConnection.completed s t = 0 := by
          rcases hmove with ⟨hq,-,-⟩ | ⟨r,c,answer',-,-,-,ha,-⟩ | ⟨answer',ha,-⟩ | ⟨-,-,hn,-,-,-⟩
          · exact hq.completed
          · cases f with
            | sendInLoop c => exact absurd ⟨c,rfl⟩ hc
            | _ => simp [TcpConnection.sendsInLoop,hf] at ha
          · cases ha
          · exact hn
        refine iff_of_false (by rw [hzero]; exact lt_irrefl 0) ?_
        rintro ⟨-,-,c,he,-⟩
        exact hnone c he
  | _ =>
    refine iff_of_false ?_ fun h => h.2
    rcases TcpConnection.move_of_step hs with ⟨hq,-,-⟩ | ⟨r,c,answer',-,-,-,ha,-⟩ | ⟨answer',ha,-⟩ | ⟨-,-,hn,-,-,-⟩
    · rw [hq.completed]
      exact lt_irrefl 0
    · cases ha
    · cases ha
    · rw [hn]
      exact lt_irrefl 0

theorem notified_zero_iff : notified s = 0 ↔ .writeComplete ∉ s.events ∧ .writeComplete ∉ s.functors ++ s.pendingFunctors := by
  rw [notified,Nat.add_eq_zero_iff,List.count_eq_zero,List.count_eq_zero]

/-- No notification is queued or called in a run exactly if none of its steps completes a
write while there is a callback. -/
theorem notified_run_iff {labels : List TcpConnection.Label}
    (hr : (TcpConnection.machine threadId cb).run TcpConnection.initial labels = .ok t) :
    notified t = 0 ↔ (TcpConnection.machine threadId cb).Along
      (fun s a => cb.writeComplete = true → ¬ Completes threadId s a) TcpConnection.initial labels := by
  have hkeeps := (TcpConnection.machine threadId cb).run_keeps_iff (P := TcpConnection.StreamInv threadId)
    (Q := fun s => notified s = 0) (C := fun s a => cb.writeComplete = true → ¬ Completes threadId s a)
    (fun s a t h hs => TcpConnection.streamInv_step h hs) (fun s a t h hs => ?_)
    TcpConnection.streamInv_initial hr
  · rw [hkeeps]
    exact and_iff_right rfl
  · rw [notified_step h.buffer hs,Nat.add_eq_zero_iff]
    refine and_congr_right fun _ => ?_
    have hpos := (completes_iff h.buffer hs).not
    rw [Nat.pos_iff_ne_zero,not_not,not_and] at hpos
    exact hpos

theorem notified_muted {labels : List TcpConnection.Label}
    (hr : (TcpConnection.machine threadId (muted cb)).run TcpConnection.initial labels = .ok t) : notified t = 0 := by
  have hboth := (TcpConnection.machine threadId (muted cb)).run_invariant
    (P := fun s => TcpConnection.StreamInv threadId s ∧ notified s = 0) (fun s a t h hs => ?_)
    ⟨TcpConnection.streamInv_initial,rfl⟩ hr
  · exact hboth.2
  · refine ⟨TcpConnection.streamInv_step h.1 hs,?_⟩
    have hnone : ¬ 0 < TcpConnection.completed s t := fun hn => by
      cases ((completes_iff h.1.buffer hs).mp hn).1
    rw [notified_step h.1.buffer hs,h.2]
    omega

end Mute

section Notifications
variable {threadId : Thread} {cb : CallBacks}

namespace Connection

/-- The calls of the user's callbacks. The close callback is the owner's. -/
def userCalls (x : Connection) : List Event := x.state.events.filter (· ≠ .close)

/-- The socket events, the user's calls and the loop's steps, except for those that only
call the write-complete callback. -/
def sequence (threadId : Thread) (x : Connection) : List TcpConnection.Label :=
  (TcpConnection.machine threadId x.callBacks).visible notifies TcpConnection.initial x.history

/-- The notifications that were queued have been called. -/
def Settled (x : Connection) : Prop := .writeComplete ∉ x.state.functors ++ x.state.pendingFunctors

/-- The callbacks are set, and the record is a run with them. -/
structure Recorded (threadId : Thread) (cb : CallBacks) (x : Connection) : Prop where
  callBacks : x.callBacks = cb
  run : (TcpConnection.machine threadId cb).run TcpConnection.initial x.history = .ok x.state

theorem Recorded.step {x y : Connection} {a : TcpConnection.Label} (h : x.Recorded threadId cb)
    (hs : x.step threadId a = .ok y) : y.Recorded threadId cb := by
  simp only [Connection.step,bind_ok_iff,Except.ok.injEq] at hs
  obtain ⟨t,ht,rfl⟩ := hs
  refine ⟨h.callBacks,?_⟩
  rw [h.callBacks] at ht
  rw [Machine.run_append,h.run,ok_bind]
  exact (bind_ok_iff _ _ _).mpr ⟨t,ht,rfl⟩

/-- Whatever the callbacks, the rest of a connection's life is one without notifications. -/
theorem Recorded.mute {x : Connection} (h : x.Recorded threadId cb) :
    (TcpConnection.machine threadId (muted cb)).run TcpConnection.initial (x.sequence threadId) =
      .ok (TcpOwners.mute x.state) := by
  rw [sequence,h.callBacks]
  exact Machine.run_visible (n := TcpConnection.machine threadId (muted cb)) (f := TcpOwners.mute)
    (fun s a t hs hn => mute_of_notifies hs hn) (fun s a t hs hn => step_mute hs hn) h.run

theorem recorded_new (cb : CallBacks) : (((new.setConnectionCallBack cb.connection).setMessageCallBack
    cb.message).setWriteCompleteCallBack cb.writeComplete).Recorded threadId cb := ⟨rfl,rfl⟩

end Connection

def AllRecorded (threadId : Thread) (cb : CallBacks) (connection : Nat → Option Connection) : Prop :=
  ∀ k x, connection k = some x → x.Recorded threadId cb

theorem AllRecorded.update {connection : Nat → Option Connection} (h : AllRecorded threadId cb connection) (k : Nat)
    {x : Connection} (hx : x.Recorded threadId cb) : AllRecorded threadId cb (Function.update connection k (some x)) := by
  intro j y hy
  rw [Function.update_apply] at hy
  split at hy
  · cases hy
    exact hx
  · exact h j y hy

/-- A server sets the callbacks that were registered on every connection. -/
theorem Server.recorded {s : Server.State} (h : (Server.machine threadId cb).Reachable s) :
    s.callBacks = cb ∧ AllRecorded threadId cb s.connection := by
  refine h.invariant (P := fun s => s.callBacks = cb ∧ AllRecorded threadId cb s.connection) (fun s hs => ?_)
    (fun s a t hi hs => ?_)
  · obtain ⟨name,rfl⟩ := hs
    exact ⟨rfl,fun k x hx => (by cases hx)⟩
  · obtain ⟨hcb,hall⟩ := hi
    cases a with
    | owner =>
      simp only [Server.machine,Server.step,Server.State.newConnection,bind_ok_iff,Except.ok.injEq] at hs
      obtain ⟨-,-,x,hx,rfl⟩ := hs
      rw [hcb] at hx
      exact ⟨hcb,hall.update _ ((Connection.recorded_new cb).step hx)⟩
    | connection k a =>
      simp only [Server.machine,Server.step] at hs
      split at hs
      · rename_i c hc
        obtain ⟨d,hd,hs⟩ := (bind_ok_iff _ _ _).mp hs
        have hrecorded := (hall k c hc).step hd
        split at hs
        · simp only [Server.State.removeConnection,bind_ok_iff,Except.ok.injEq] at hs
          obtain ⟨-,-,x,hx,rfl⟩ := hs
          exact ⟨hcb,hall.update k (hrecorded.step hx)⟩
        · cases hs
          exact ⟨hcb,hall.update k hrecorded⟩
      · cases hs

/-- A client sets them too, except for the write-complete callback. -/
theorem Client.recorded {s : Client.State} (h : (Client.machine threadId cb).Reachable s) :
    s.callBacks = muted cb ∧ AllRecorded threadId (muted cb) s.connection := by
  refine h.invariant (P := fun s => s.callBacks = muted cb ∧ AllRecorded threadId (muted cb) s.connection)
    (fun s hs => ?_) (fun s a t hi hs => ?_)
  · rw [show s = Client.State.new.register cb from hs]
    exact ⟨rfl,fun k x hx => (by cases hx)⟩
  · obtain ⟨hcb,hall⟩ := hi
    cases a with
    | owner a =>
      simp only [Client.machine,Client.step,Client.State.connectorStep,bind_ok_iff] at hs
      obtain ⟨-,-,connector,-,hs⟩ := hs
      split at hs
      · simp only [Client.State.newConnection,bind_ok_iff,Except.ok.injEq] at hs
        obtain ⟨-,-,x,hx,rfl⟩ := hs
        rw [hcb] at hx
        exact ⟨hcb,hall.update _ ((Connection.recorded_new (muted cb)).step hx)⟩
      · cases hs
        exact ⟨hcb,hall⟩
    | connection k a =>
      simp only [Client.machine,Client.step] at hs
      split at hs
      · rename_i c hc
        obtain ⟨d,hd,hs⟩ := (bind_ok_iff _ _ _).mp hs
        have hrecorded := (hall k c hc).step hd
        split at hs
        · simp only [Client.State.removeConnection,bind_ok_iff,Except.ok.injEq] at hs
          obtain ⟨connector,-,x,hx,rfl⟩ := hs
          exact ⟨hcb,hall.update k (hrecorded.step hx)⟩
        · cases hs
          exact ⟨hcb,hall.update k hrecorded⟩
      · cases hs

private theorem filter_ne_self {events : List Event} (h : .writeComplete ∉ events) :
    events.filter (· ≠ .writeComplete) = events := by
  refine List.filter_eq_self.mpr fun e he => decide_eq_true fun heq => h ?_
  rwa [← heq]

/-- For every run of a server and of a client with the same callbacks registered, and for a
connection of each, the client's first or one after a retry, that go through the same
sequence: they call the user's callbacks alike if no step completes a write or there is no
write-complete callback; and once the queued notifications are called, only then. -/
theorem notify_alike_iff {s : Server.State} {c : Client.State} (hs : (Server.machine threadId cb).Reachable s)
    (hc : (Client.machine threadId cb).Reachable c) {k fd : Nat} {x y : Connection} (hx : s.connection k = some x)
    (hy : c.connection fd = some y) (hsame : x.sequence threadId = y.sequence threadId) :
    ((TcpConnection.machine threadId cb).Along (fun s a => cb.writeComplete = true → ¬ Completes threadId s a)
      TcpConnection.initial x.history → x.userCalls = y.userCalls) ∧
    (x.Settled → (x.userCalls = y.userCalls ↔ (TcpConnection.machine threadId cb).Along
      (fun s a => cb.writeComplete = true → ¬ Completes threadId s a) TcpConnection.initial x.history)) := by
  have hrx := (Server.recorded hs).2 k x hx
  have hry := (Client.recorded hc).2 fd y hy
  have hmute : mute x.state = mute y.state := by
    have hrun := hrx.mute
    rw [hsame] at hrun
    exact Except.ok.inj (hrun.symm.trans hry.mute)
  have hevents : x.state.events.filter (· ≠ .writeComplete) = y.state.events.filter (· ≠ .writeComplete) :=
    congrArg TcpConnection.State.events hmute
  -- the client has no callback, so no notification
  have hsilent : .writeComplete ∉ y.state.events := (notified_zero_iff.mp (notified_muted hry.run)).1
  have halike : x.userCalls = y.userCalls ↔ .writeComplete ∉ x.state.events := by
    constructor
    · intro he hmem
      have hcall : .writeComplete ∈ x.userCalls := List.mem_filter.mpr ⟨hmem,by simp⟩
      rw [he] at hcall
      exact hsilent (List.mem_of_mem_filter hcall)
    · intro hnone
      have hsame : x.state.events = y.state.events := by
        calc x.state.events
          _ = x.state.events.filter (· ≠ .writeComplete) := (filter_ne_self hnone).symm
          _ = y.state.events.filter (· ≠ .writeComplete) := hevents
          _ = y.state.events := filter_ne_self hsilent
      rw [Connection.userCalls,hsame,Connection.userCalls]
  rw [← notified_run_iff hrx.run,notified_zero_iff,halike]
  exact ⟨fun h => h.1,fun hset => (and_iff_left hset).symm⟩

private def cbAll : CallBacks := ⟨true,some id,true⟩

/-- One message is read, and one goes out in part before the peer closes. -/
private def halfSent : List TcpConnection.Label := [.handleRead (.ok [5]),.send 0 (.string [1,2]) (.ok 1),.handleClose]

/-- One message goes out at once, and the loop runs what is queued. -/
private def sent : List TcpConnection.Label := [.send 0 (.string [1]) (.ok 1),.swapFunctors]

private def connecting : List (Label Connector.Label) := [.owner .connectCall,.owner .start,.owner .queueStart,
  .owner .enableRetry,.owner .poll,.owner .doPendingFunctors,.owner .functor,.owner (.connect .EINPROGRESS),
  .owner .poll,.owner (.handleEvent false true 0 false),.owner .doPendingFunctors,.owner .functor]

/-- The first connection is lost and the connector makes a second one. -/
private def reconnecting : List (Label Connector.Label) := connecting ++ [.owner .poll,.connection 0 .handleClose,
  .owner .loop,.owner .loop,.owner (.connect .EINPROGRESS),.owner .doPendingFunctors,.owner .poll,
  .owner (.handleEvent false true 0 false)]

deriving instance DecidableEq for TcpConnection.Message,TcpConnection.Label

/-- The second connection of a client that retries. -/
theorem notify_alike_iff_retry : ∃ s c x y, (Server.machine 0 cbAll).Reachable s ∧ (Client.machine 0 cbAll).Reachable c ∧
    s.connection 1 = some x ∧ c.connection 1 = some y ∧ y.userCalls = [.connection true,.message [5]] ∧
    x.userCalls = y.userCalls := by
  obtain ⟨s,hs,hx⟩ := (Server.machine 0 cbAll).exists_reachable ⟨"srv",rfl⟩
    (.owner () :: halfSent.map fun a => .connection 1 a)
    (fun s => (s.connection 1).map fun x => (x.sequence 0,TcpConnection.notified x.state))
    (b := some (.connectedEstablished :: halfSent ++ [.queueConnectedDestroyed],0)) (by decide +kernel)
  obtain ⟨c,hc,hy⟩ := (Client.machine 0 cbAll).exists_reachable rfl
    (reconnecting ++ halfSent.map fun a => .connection 1 a)
    (fun c => (c.connection 1).map fun y => (y.sequence 0,y.userCalls))
    (b := some (.connectedEstablished :: halfSent ++ [.queueConnectedDestroyed],[.connection true,.message [5]]))
    (by decide +kernel)
  obtain ⟨x,hx,hxv⟩ := Option.map_eq_some_iff.mp hx
  obtain ⟨y,hy,hyv⟩ := Option.map_eq_some_iff.mp hy
  simp only [Prod.mk.injEq] at hxv hyv
  refine ⟨s,c,x,y,hs,hc,hx,hy,hyv.2,(notify_alike_iff hs hc hx hy (hxv.1.trans hyv.1.symm)).1 ?_⟩
  exact (notified_run_iff ((Server.recorded hs).2 1 x hx).run).mp hxv.2

/-- A message goes out at once. The server's user is told, the client's never is. -/
theorem client_never_notifies : ∃ s c x y, (Server.machine 0 cbAll).Reachable s ∧ (Client.machine 0 cbAll).Reachable c ∧
    s.connection 1 = some x ∧ c.connection 0 = some y ∧ x.sequence 0 = y.sequence 0 ∧
    x.userCalls = [.connection true,.writeComplete] ∧ y.userCalls = [.connection true] := by
  obtain ⟨s,hs,hx⟩ := (Server.machine 0 cbAll).exists_reachable ⟨"srv",rfl⟩
    (.owner () :: (sent ++ [TcpConnection.Label.runFunctor (.ok 0)]).map fun a => .connection 1 a)
    (fun s => (s.connection 1).map fun x => (x.sequence 0,x.userCalls))
    (b := some (.connectedEstablished :: sent,[.connection true,.writeComplete])) (by decide +kernel)
  obtain ⟨c,hc,hy⟩ := (Client.machine 0 cbAll).exists_reachable rfl (connecting ++ sent.map fun a => .connection 0 a)
    (fun c => (c.connection 0).map fun y => (y.sequence 0,y.userCalls))
    (b := some (.connectedEstablished :: sent,[.connection true])) (by decide +kernel)
  obtain ⟨x,hx,hxv⟩ := Option.map_eq_some_iff.mp hx
  obtain ⟨y,hy,hyv⟩ := Option.map_eq_some_iff.mp hy
  simp only [Prod.mk.injEq] at hxv hyv
  exact ⟨s,c,x,y,hs,hc,hx,hy,hxv.1.trans hyv.1.symm,hxv.2,hyv.2⟩

end Notifications

end LinuxServer.Reactor.TcpOwners
