import LinuxServer.Reactor.TimerQueue

/-! The connector of a client: calls from any threads, and the callbacks of the loop
thread, from events, expired timers and queued functors. What holds in between. -/
namespace LinuxServer.Reactor.Connector
open LinuxServer.Lib

inductive ConnectState where
  | disconnected
  | connecting
  | connected
  deriving DecidableEq

def maxRetryDelayMs : Nat := 30 * 1000
def initRetryDelayMs : Nat := 500

/-- What ::connect leaves, success as 0. -/
inductive Errno where
  | success
  | EINPROGRESS
  | EINTR
  | EISCONN
  | EAGAIN
  | EADDRINUSE
  | EADDRNOTAVAIL
  | ECONNREFUSED
  | ENETUNREACH
  | EACCES
  | EPERM
  | EAFNOSUPPORT
  | EALREADY
  | EBADF
  | EFAULT
  | ENOTSOCK
  | other (n : Nat)
  deriving DecidableEq

structure Channel where
  fd : Nat
  registered : Bool
  deriving DecidableEq

inductive Functor where
  | startInLoop
  | resetChannel
  | cancelInLoop (timerId : TimerId)
  deriving DecidableEq

/-- Where the loop thread is in a callback that reads what other threads write. -/
inductive Loop where
  | idle
  /-- Connector::Start and Stop called by the loop thread itself. -/
  | start
  | stop
  | restart
  | startInLoop
  | connect
  deriving DecidableEq

inductive Phase where
  | events
  | functors
  deriving DecidableEq

/-- Descriptors are numbered in the order of their creation, and timers as Timer::s_NumCreated
counts them, from 1: the number of a timer is its sequence, and stands for its address. -/
structure State where
  bConnect : Bool
  state : ConnectState
  channel : Option Channel
  retryDelayMs : Nat
  timerId : TimerId
  /-- TcpClient. -/
  clientRetry : Bool
  clientConnect : Bool
  tcpConnection : Option Nat
  /-- Calls in other threads, by the place they are at. -/
  starting : Nat
  queueing : Nat
  stopping : Nat
  cancelling : Nat
  loop : Loop
  phase : Phase
  /-- The active channels that had no turn yet. -/
  active : List Nat
  functors : List Functor
  pendingFunctors : List Functor
  timers : List (Nat × Nat)
  expired : List Nat
  nextTimer : Nat
  nextFd : Nat
  closed : List Nat
  passed : List Nat
  /-- Connections that were not lost yet. -/
  live : List Nat
  /-- For the statements only: since Restart, ::connect went beyond the hard errors. -/
  attempted : Bool

inductive Label where
  | enableRetry
  /-- TcpClient::Connect in another thread. -/
  | connectCall
  | start
  | queueStart
  | disConnect
  /-- TcpClient::Stop in another thread. -/
  | stopCall
  | stopConnector
  | queueCancel
  | loopConnect
  | loopStop
  /-- The loop thread goes on in its callback. -/
  | loop
  | connect (errno : Errno)
  | poll
  | handleEvent (error write : Bool) (soError : Nat) (selfConnect : Bool)
  | lost (fd : Nat)
  | expire (timerId : Nat)
  | fire
  | doPendingFunctors
  | functor
  deriving DecidableEq

namespace State

def startInLoop (s : State) : Except Halt State := do
  ensure (.assertion "eCS_Disconnected == m_eConnectState") (s.state = .disconnected)
  .ok { s with loop := if s.bConnect then .connect else .idle }

def connecting (s : State) (fd : Nat) : Except Halt State := do
  ensure (.assertion "NULL == m_pChannel") (s.channel = none)
  .ok { s with state := .connecting, channel := some ⟨fd,true⟩, attempted := true }

/-- The socket is closed and the state is Connected, not Disconnected. The id that RunAfter
returns has no sequence. -/
def retry (s : State) (fd : Nat) : State :=
  let s := { s with closed := s.closed ++ [fd], state := .connected, attempted := true }
  if s.bConnect then { s with
    timerId := ⟨s.nextTimer,0⟩
    timers := s.timers ++ [(s.nextTimer,s.retryDelayMs)]
    nextTimer := s.nextTimer + 1
    retryDelayMs := min (s.retryDelayMs * 2) maxRetryDelayMs }
  else s

def connect (s : State) (errno : Errno) : Except Halt State :=
  let fd := s.nextFd
  let s := { s with nextFd := fd + 1, loop := .idle }
  match errno with
  | .success | .EINPROGRESS | .EINTR | .EISCONN => s.connecting fd
  | .EAGAIN | .EADDRINUSE | .EADDRNOTAVAIL | .ECONNREFUSED | .ENETUNREACH => .ok (s.retry fd)
  | .EACCES | .EPERM | .EAFNOSUPPORT | .EALREADY | .EBADF | .EFAULT | .ENOTSOCK =>
    .ok { s with closed := s.closed ++ [fd] }
  | .other _ => .ok { s with closed := s.closed ++ [fd] }

def removeAndResetChannel (s : State) : Except Halt (Nat × State) :=
  match s.channel with
  | none => .error (.assertion "px != 0")
  | some c => .ok (c.fd,{ s with
      channel := some { c with registered := false }
      pendingFunctors := s.pendingFunctors ++ [.resetChannel] })

/-- TcpClient::newConnection. -/
def newConnection (s : State) (fd : Nat) : State :=
  { s with passed := s.passed ++ [fd], live := s.live ++ [fd], tcpConnection := some fd }

def handleWrite (s : State) (soError : Nat) (selfConnect : Bool) : Except Halt State :=
  if s.state = .connecting then do
    let (fd,s) ← s.removeAndResetChannel
    if soError ≠ 0 then .ok s
    else if selfConnect then .ok (s.retry fd)
    else
      let s := { s with state := .connected }
      if s.bConnect then .ok (s.newConnection fd) else .ok { s with closed := s.closed ++ [fd] }
  else do
    ensure (.assertion "eCS_Connected == m_eConnectState") (s.state = .connected)
    .ok s

def handleError (s : State) : Except Halt State := do
  ensure (.assertion "eCS_Connecting == m_eConnectState") (s.state = .connecting)
  let (fd,s) ← s.removeAndResetChannel
  .ok (s.retry fd)

/-- Channel::HandleEvent: the connector has a write and an error callback only. -/
def handleEvent (s : State) (error write : Bool) (soError : Nat) (selfConnect : Bool) : Except Halt State := do
  let s ← if error then s.handleError else .ok s
  if write then s.handleWrite soError selfConnect else .ok s

def restart (s : State) : State :=
  { s with state := .disconnected, retryDelayMs := initRetryDelayMs, bConnect := true, loop := .startInLoop, attempted := false }

/-- TcpClient::removeConnection, the close callback of a connection. -/
def removeConnection (s : State) (fd : Nat) : Except Halt State :=
  match s.tcpConnection with
  | some c => do
    ensure (.assertion "pTcpConn == m_pTcpConnection") (fd = c)
    .ok { s with
      tcpConnection := none
      live := s.live.erase fd
      loop := if s.clientRetry && s.clientConnect then .restart else .idle }
  | none => .error (.assertion "px != 0")

/-- A timer is found by its address and its sequence. -/
def cancelInLoop (s : State) (timerId : TimerId) : State :=
  { s with timers := s.timers.filter fun timer => ¬ (timer.1 = timerId.pTimer ∧ (timer.1 : Int) = timerId.seq) }

def runFunctor (s : State) : Functor → Except Halt State
  | .startInLoop => s.startInLoop
  | .resetChannel => .ok { s with channel := none }
  | .cancelInLoop timerId => .ok (s.cancelInLoop timerId)

end State

/-- Connect is called only while m_bConnect of the client is false, as it asserts. -/
def step (s : State) : Label → Except Halt State
  | .enableRetry => .ok { s with clientRetry := true }
  | .connectCall => do
    ensure .notEnabled (s.clientConnect = false)
    .ok { s with clientConnect := true, starting := s.starting + 1 }
  | .start => do
    ensure .notEnabled (0 < s.starting)
    .ok { s with bConnect := true, starting := s.starting - 1, queueing := s.queueing + 1 }
  | .queueStart => do
    ensure .notEnabled (0 < s.queueing)
    .ok { s with queueing := s.queueing - 1, pendingFunctors := s.pendingFunctors ++ [.startInLoop] }
  | .disConnect => .ok { s with clientConnect := false }
  | .stopCall => .ok { s with clientConnect := false, stopping := s.stopping + 1 }
  | .stopConnector => do
    ensure .notEnabled (0 < s.stopping)
    .ok { s with bConnect := false, stopping := s.stopping - 1, cancelling := s.cancelling + 1 }
  | .queueCancel => do
    ensure .notEnabled (0 < s.cancelling)
    .ok { s with cancelling := s.cancelling - 1, pendingFunctors := s.pendingFunctors ++ [.cancelInLoop s.timerId] }
  | .loopConnect => do
    ensure .notEnabled (s.loop = .idle ∧ s.clientConnect = false)
    .ok { s with clientConnect := true, loop := .start }
  | .loopStop => do
    ensure .notEnabled (s.loop = .idle)
    .ok { s with clientConnect := false, loop := .stop }
  | .loop =>
    match s.loop with
    | .start => .ok { s with bConnect := true, loop := .startInLoop }
    | .stop => .ok (State.cancelInLoop { s with bConnect := false, loop := .idle } s.timerId)
    | .restart => .ok s.restart
    | .startInLoop => s.startInLoop
    | .idle | .connect => .error .notEnabled
  | .connect errno => do
    ensure .notEnabled (s.loop = .connect)
    s.connect errno
  | .poll => do
    ensure .notEnabled (s.loop = .idle ∧ s.phase = .functors ∧ s.functors = [])
    let channels := (s.channel.filter Channel.registered).toList.map Channel.fd
    .ok { s with phase := .events, active := channels ++ s.live }
  | .handleEvent error write soError selfConnect =>
    match s.channel with
    | none => .error .notEnabled
    | some c => do
      ensure .notEnabled (s.loop = .idle ∧ s.phase = .events ∧ c.registered = true ∧ c.fd ∈ s.active)
      State.handleEvent { s with active := s.active.filter (· ≠ c.fd) } error write soError selfConnect
  | .lost fd => do
    ensure .notEnabled (s.loop = .idle ∧ s.phase = .events ∧ fd ∈ s.active ∧ fd ∈ s.live)
    s.removeConnection fd
  | .expire timerId => do
    ensure .notEnabled (s.loop = .idle ∧ s.phase = .events ∧ timerId ∈ s.timers.map Prod.fst)
    .ok { s with timers := s.timers.filter (·.1 ≠ timerId), expired := s.expired ++ [timerId] }
  | .fire =>
    match s.expired with
    | [] => .error .notEnabled
    | _ :: rest => do
      ensure .notEnabled (s.loop = .idle ∧ s.phase = .events)
      State.startInLoop { s with expired := rest }
  | .doPendingFunctors => do
    ensure .notEnabled (s.loop = .idle ∧ s.phase = .events ∧ s.expired = [])
    .ok { s with phase := .functors, functors := s.pendingFunctors, pendingFunctors := [] }
  | .functor =>
    match s.functors with
    | [] => .error .notEnabled
    | f :: rest => do
      ensure .notEnabled (s.loop = .idle ∧ s.phase = .functors)
      State.runFunctor { s with functors := rest } f

def initial : State := {
  bConnect := false
  state := .disconnected
  channel := none
  retryDelayMs := initRetryDelayMs
  timerId := ⟨0,0⟩
  clientRetry := false
  clientConnect := false
  tcpConnection := none
  starting := 0
  queueing := 0
  stopping := 0
  cancelling := 0
  loop := .idle
  phase := .functors
  active := []
  functors := []
  pendingFunctors := []
  timers := []
  expired := []
  nextTimer := 1
  nextFd := 0
  closed := []
  passed := []
  live := []
  attempted := false }

def machine : Machine State Label Halt := ⟨fun s => s = initial,step⟩

section Invariant
variable {s t : State}

def NoTimers (s : State) : Prop := s.timers = [] ∧ s.expired = []

/-- How often the channel will be reset. -/
def resets (s : State) : Nat := (s.functors ++ s.pendingFunctors).count .resetChannel

inductive ChannelInv (channel : Option Channel) (resets : Nat) (state : ConnectState) (quiet : Prop) : Prop where
  | none (hc : channel = .none) (hr : resets = 0)
  | registered (fd : Nat) (hc : channel = some ⟨fd,true⟩) (hr : resets = 0) (hs : state = .connecting) (hq : quiet)
  | removed (fd : Nat) (hc : channel = some ⟨fd,false⟩) (hr : resets = 1)

/-- A connection that was not lost yet: the connector is at rest, and when its loss is
among the events of this poll, the channel is gone. -/
structure Up (s : State) (fd : Nat) : Prop where
  tcpConnection : s.tcpConnection = some fd
  state : s.state = .connected
  timers : NoTimers s
  channel : s.phase = .events → fd ∈ s.active → s.channel = none

structure Inv (s : State) : Prop where
  channel : ChannelInv s.channel (resets s) s.state (NoTimers s ∧ s.live = [])
  attempted : s.attempted = false ↔ s.state = .disconnected
  fresh : s.state = .disconnected → s.channel = none ∧ NoTimers s ∧ s.live = []
  connect : s.loop = .connect → s.state = .disconnected
  restart : s.loop = .restart → s.channel = none ∧ NoTimers s ∧ s.live = []
  live : s.live = [] ∨ ∃ fd, s.live = [fd] ∧ Up s fd
  events : s.phase = .events → s.functors = []
  functors : s.phase = .functors → .resetChannel ∉ s.pendingFunctors

theorem startInLoop_ok_iff : s.startInLoop = .ok t ↔
    s.state = .disconnected ∧ t = { s with loop := if s.bConnect then .connect else .idle } := by
  simp only [State.startInLoop,bind_ok_iff,ensure_ok_iff,Except.ok.injEq]
  constructor
  · rintro ⟨-,hs,rfl⟩
    exact ⟨hs,rfl⟩
  · rintro ⟨hs,rfl⟩
    exact ⟨(),hs,rfl⟩

/-- A retry closes the socket; the timer is for a connector that is still wanted. -/
theorem retry_eq (s : State) (fd : Nat) : ∃ timerId timers nextTimer retryDelayMs, s.retry fd = { s with
    closed := s.closed ++ [fd], state := .connected, attempted := true,
    timerId := timerId, timers := timers, nextTimer := nextTimer, retryDelayMs := retryDelayMs } := by
  by_cases hc : s.bConnect = true
  · exact ⟨⟨s.nextTimer,0⟩,s.timers ++ [(s.nextTimer,s.retryDelayMs)],s.nextTimer + 1,min (s.retryDelayMs * 2) maxRetryDelayMs,
      by simp only [State.retry,hc,if_true]⟩
  · exact ⟨s.timerId,s.timers,s.nextTimer,s.retryDelayMs,by simp only [State.retry,if_neg hc]⟩

/-- The three classes of errnos. -/
theorem connect_cases {errno : Errno} (h : s.connect errno = .ok t) :
    (s.channel = none ∧ t = { s with
      nextFd := s.nextFd + 1, loop := .idle, state := .connecting, channel := some ⟨s.nextFd,true⟩, attempted := true }) ∨
    t = State.retry { s with nextFd := s.nextFd + 1, loop := .idle } s.nextFd ∨
    t = { s with nextFd := s.nextFd + 1, loop := .idle, closed := s.closed ++ [s.nextFd] } := by
  cases errno with
  | success | EINPROGRESS | EINTR | EISCONN =>
    simp only [State.connect,State.connecting,bind_ok_iff,ensure_ok_iff,Except.ok.injEq] at h
    obtain ⟨-,hc,rfl⟩ := h
    exact .inl ⟨hc,rfl⟩
  | EAGAIN | EADDRINUSE | EADDRNOTAVAIL | ECONNREFUSED | ENETUNREACH =>
    cases h
    exact .inr (.inl rfl)
  | EACCES | EPERM | EAFNOSUPPORT | EALREADY | EBADF | EFAULT | ENOTSOCK | other =>
    cases h
    exact .inr (.inr rfl)

/-- The state behind removeAndResetChannel. -/
def State.removed (s : State) (fd : Nat) : State :=
  { s with channel := some ⟨fd,false⟩, pendingFunctors := s.pendingFunctors ++ [.resetChannel] }

private theorem removeAndResetChannel_eq {fd : Nat} (hc : s.channel = some ⟨fd,true⟩) :
    s.removeAndResetChannel = .ok (fd,s.removed fd) := by
  rw [State.removeAndResetChannel,hc]
  rfl

/-- What an event makes of a registered socket. -/
inductive Event (s : State) (fd : Nat) (error write : Bool) (soError : Nat) : State → Prop where
  | nothing (hr : error = false) (hw : write = false) : Event s fd error write soError s
  | retried (hok : error = true ∨ soError = 0) : Event s fd error write soError ((s.removed fd).retry fd)
  | kept (hr : error = false) (hw : write = true) (hso : soError ≠ 0) : Event s fd error write soError (s.removed fd)
  | passed (hr : error = false) (hso : soError = 0) :
      Event s fd error write soError (State.newConnection { s.removed fd with state := .connected } fd)
  | closed (hr : error = false) (hso : soError = 0) :
      Event s fd error write soError { s.removed fd with state := .connected, closed := s.closed ++ [fd] }

private theorem handleWrite_event {fd soError : Nat} {selfConnect : Bool} (hc : s.channel = some ⟨fd,true⟩)
    (hs : s.state = .connecting) : ∃ t, s.handleWrite soError selfConnect = .ok t ∧ Event s fd false true soError t := by
  simp only [State.handleWrite,hs,if_true,removeAndResetChannel_eq hc,ok_bind]
  by_cases hso : soError = 0
  · rw [if_neg (not_not.mpr hso)]
    split
    · exact ⟨_,rfl,.retried (.inr hso)⟩
    · split
      · exact ⟨_,rfl,.passed rfl hso⟩
      · exact ⟨_,rfl,.closed rfl hso⟩
  · rw [if_pos hso]
    exact ⟨_,rfl,.kept rfl rfl hso⟩

private theorem handleWrite_retried {fd soError : Nat} {selfConnect : Bool} :
    (s.retry fd).handleWrite soError selfConnect = .ok (s.retry fd) := by
  obtain ⟨_,_,_,_,heq⟩ := retry_eq s fd
  rw [heq]
  rfl

/-- With the socket registered in state Connecting, both callbacks go through, the
error callback first. -/
theorem handleEvent_event {fd : Nat} (error write : Bool) (soError : Nat) (selfConnect : Bool) (hc : s.channel = some ⟨fd,true⟩)
    (hs : s.state = .connecting) :
    ∃ t, s.handleEvent error write soError selfConnect = .ok t ∧ Event s fd error write soError t := by
  cases error with
  | true =>
    refine ⟨_,?_,.retried (.inl rfl)⟩
    simp only [State.handleEvent,State.handleError,if_true,ensure_of _ hs,removeAndResetChannel_eq hc,ok_bind,
      handleWrite_retried,ite_self]
  | false =>
    cases write with
    | false => exact ⟨s,rfl,.nothing rfl rfl⟩
    | true => exact handleWrite_event hc hs

private theorem live_keep (h : s.live = [] ∨ ∃ fd, s.live = [fd] ∧ Up s fd) (hlive : t.live = s.live)
    (hup : ∀ fd, Up s fd → Up t fd) : t.live = [] ∨ ∃ fd, t.live = [fd] ∧ Up t fd := by
  rw [hlive]
  rcases h with h | ⟨fd,h,hu⟩
  · exact .inl h
  · exact .inr ⟨fd,h,hup fd hu⟩

theorem Inv.resets_of_none (h : Inv s) (hc : s.channel = none) : resets s = 0 := by
  cases h.channel with
  | none _ hr => exact hr
  | registered _ hc' => cases hc.symm.trans hc'
  | removed _ hc' => cases hc.symm.trans hc'

/-- The attempt a registered socket belongs to. -/
theorem Inv.attempt_of_registered {fd : Nat} (h : Inv s) (hc : s.channel = some ⟨fd,true⟩) :
    resets s = 0 ∧ s.state = .connecting ∧ NoTimers s ∧ s.live = [] := by
  cases h.channel with
  | none hc' => cases hc.symm.trans hc'
  | registered _ _ hr hs hq => exact ⟨hr,hs,hq⟩
  | removed _ hc' => cases hc.symm.trans hc'

private theorem inv_push {f : Functor} (h : Inv s) (hf : f ≠ .resetChannel) :
    Inv { s with pendingFunctors := s.pendingFunctors ++ [f] } := by
  have hresets : resets { s with pendingFunctors := s.pendingFunctors ++ [f] } = resets s := by
    simp [resets,List.count_append,hf]
  refine ⟨?_,h.attempted,h.fresh,h.connect,h.restart,?_,h.events,fun hp hm => ?_⟩
  · rw [hresets]
    exact h.channel
  · exact live_keep h.live rfl fun _ hu => ⟨hu.tcpConnection,hu.state,hu.timers,hu.channel⟩
  · rcases List.mem_append.mp hm with hm | hm
    · exact h.functors hp hm
    · exact hf (List.mem_singleton.mp hm).symm

private theorem inv_loop {l : Loop} (h : Inv s) (hc : l ≠ .connect) (hr : l ≠ .restart) : Inv { s with loop := l } := by
  refine ⟨h.channel,h.attempted,h.fresh,fun hl => absurd hl hc,fun hl => absurd hl hr,?_,h.events,h.functors⟩
  exact live_keep h.live rfl fun _ hu => ⟨hu.tcpConnection,hu.state,hu.timers,hu.channel⟩

private theorem inv_cancel {timerId : TimerId} (h : Inv s) : Inv (s.cancelInLoop timerId) := by
  have hkeep : NoTimers s → NoTimers (s.cancelInLoop timerId) := by
    intro hq
    exact ⟨by rw [State.cancelInLoop,hq.1]; rfl,hq.2⟩
  refine ⟨?_,h.attempted,fun hs => ?_,h.connect,fun hl => ?_,?_,h.events,h.functors⟩
  · cases h.channel with
    | none hc hr => exact .none hc hr
    | registered fd hc hr hs hq => exact .registered fd hc hr hs ⟨hkeep hq.1,hq.2⟩
    | removed fd hc hr => exact .removed fd hc hr
  · obtain ⟨hc,hq,hl⟩ := h.fresh hs
    exact ⟨hc,hkeep hq,hl⟩
  · obtain ⟨hc,hq,hlive⟩ := h.restart hl
    exact ⟨hc,hkeep hq,hlive⟩
  · exact live_keep h.live rfl fun _ hu => ⟨hu.tcpConnection,hu.state,hkeep hu.timers,hu.channel⟩

private theorem inv_startInLoop (h : Inv s) (hs : s.startInLoop = .ok t) : Inv t := by
  obtain ⟨hstate,rfl⟩ := startInLoop_ok_iff.mp hs
  refine ⟨h.channel,h.attempted,h.fresh,fun _ => hstate,fun hl => ?_,?_,h.events,h.functors⟩
  · split at hl <;> cases hl
  · exact live_keep h.live rfl fun _ hu => ⟨hu.tcpConnection,hu.state,hu.timers,hu.channel⟩

/-- An attempt that is over, without a connection. -/
private theorem inv_over (hchannel : ChannelInv s.channel (resets s) s.state (NoTimers s ∧ s.live = []))
    (hs : s.state ≠ .disconnected) (ha : s.attempted = true) (hloop : s.loop = .idle) (hlive : s.live = [])
    (hevents : s.phase = .events → s.functors = []) (hfunctors : s.phase = .functors → .resetChannel ∉ s.pendingFunctors) :
    Inv s := by
  refine ⟨hchannel,?_,fun h => absurd h hs,fun h => ?_,fun h => ?_,.inl hlive,hevents,hfunctors⟩
  · simp [ha,hs]
  · cases hloop.symm.trans h
  · cases hloop.symm.trans h

private theorem inv_connect {errno : Errno} (h : Inv s) (hloop : s.loop = .connect) (hs : s.connect errno = .ok t) : Inv t := by
  have hstate := h.connect hloop
  obtain ⟨hc,hq,hl⟩ := h.fresh hstate
  have hr := h.resets_of_none hc
  rcases connect_cases hs with ⟨-,rfl⟩ | rfl | rfl
  · refine ⟨.registered _ rfl hr rfl ⟨hq,hl⟩,by simp,by simp,by simp,by simp,.inl hl,h.events,h.functors⟩
  · obtain ⟨_,_,_,_,heq⟩ := retry_eq { s with nextFd := s.nextFd + 1, loop := .idle } s.nextFd
    rw [heq]
    exact inv_over (.none hc hr) (by simp) rfl rfl hl h.events h.functors
  · exact ⟨h.channel,h.attempted,h.fresh,by simp,by simp,.inl hl,h.events,h.functors⟩

private theorem inv_event {fd soError : Nat} {error write : Bool} (h : Inv s) (hloop : s.loop = .idle)
    (hphase : s.phase = .events) (hc : s.channel = some ⟨fd,true⟩) (hactive : fd ∉ s.active)
    (hs : Event s fd error write soError t) : Inv t := by
  obtain ⟨hr,hstate,hq,hl⟩ := h.attempt_of_registered hc
  have hatt : s.attempted = true := by
    have hne : s.attempted ≠ false := fun hf => by cases hstate.symm.trans (h.attempted.mp hf)
    simpa using hne
  have hone : (s.functors ++ (s.pendingFunctors ++ [Functor.resetChannel])).count Functor.resetChannel = 1 := by
    rw [← List.append_assoc,List.count_append]
    exact congrArg (· + 1) hr
  have hfunctors : ∀ l : List Functor, s.phase = .functors → .resetChannel ∉ l := by
    intro l hp
    cases hphase.symm.trans hp
  cases hs with
  | nothing => exact h
  | retried =>
    obtain ⟨_,_,_,_,heq⟩ := retry_eq (s.removed fd) fd
    rw [heq]
    exact inv_over (.removed fd rfl hone) (by simp) rfl hloop hl h.events (hfunctors _)
  | kept => exact inv_over (.removed fd rfl hone) (by simp [State.removed,hstate]) hatt hloop hl h.events (hfunctors _)
  | closed => exact inv_over (.removed fd rfl hone) (by simp) hatt hloop hl h.events (hfunctors _)
  | passed =>
    refine ⟨.removed fd rfl hone,?_,?_,fun hl' => ?_,fun hl' => ?_,.inr ⟨fd,?_,rfl,rfl,hq,?_⟩,h.events,hfunctors _⟩
    · simp [State.newConnection,State.removed,hatt]
    · simp [State.newConnection]
    · cases hloop.symm.trans hl'
    · cases hloop.symm.trans hl'
    · simp [State.newConnection,State.removed,hl]
    · intro _ ha
      exact absurd ha hactive

private theorem inv_lost {fd : Nat} (h : Inv s) (hphase : s.phase = .events) (hactive : fd ∈ s.active) (hlive : fd ∈ s.live)
    (hs : s.removeConnection fd = .ok t) : Inv t := by
  rcases h.live with hl | ⟨fd',hl,hu⟩
  · rw [hl] at hlive
    cases hlive
  · rw [hl,List.mem_singleton] at hlive
    subst hlive
    have hc := hu.channel hphase hactive
    rw [State.removeConnection,hu.tcpConnection] at hs
    simp only [bind_ok_iff,ensure_ok_iff,Except.ok.injEq] at hs
    obtain ⟨-,-,rfl⟩ := hs
    have hnone : s.live.erase fd = [] := by rw [hl]; simp
    have hr := h.resets_of_none hc
    refine ⟨.none hc hr,h.attempted,fun hs => ?_,fun hloop => ?_,fun _ => ⟨hc,hu.timers,hnone⟩,.inl hnone,h.events,h.functors⟩
    · cases hu.state.symm.trans hs
    · simp only at hloop
      split at hloop <;> cases hloop

private theorem inv_expire {timerId : Nat} {timers : List (Nat × Nat)} (h : Inv s) (hloop : s.loop = .idle)
    (hm : timerId ∈ s.timers.map Prod.fst) : Inv { s with timers := timers, expired := s.expired ++ [timerId] } := by
  -- a timer is pending, so the connector is neither fresh nor in an attempt
  have hbusy : ¬ NoTimers s := by
    intro hq
    rw [hq.1] at hm
    cases hm
  refine ⟨?_,h.attempted,fun hs => absurd (h.fresh hs).2.1 hbusy,h.connect,fun hl => ?_,.inl ?_,h.events,h.functors⟩
  · cases h.channel with
    | none hc hr => exact .none hc hr
    | registered _ _ _ _ hq => exact absurd hq.1 hbusy
    | removed fd hc hr => exact .removed fd hc hr
  · cases hloop.symm.trans hl
  · rcases h.live with hl | ⟨fd,-,hu⟩
    · exact hl
    · exact absurd hu.timers hbusy

private theorem inv_poll (h : Inv s) (hphase : s.phase = .functors) (hfunctors : s.functors = []) {active : List Nat} :
    Inv { s with phase := .events, active := active } := by
  have hnone : resets s = 0 := by
    rw [resets,hfunctors]
    exact List.count_eq_zero.mpr (h.functors hphase)
  refine ⟨h.channel,h.attempted,h.fresh,h.connect,h.restart,?_,fun _ => hfunctors,by simp⟩
  refine live_keep h.live rfl fun fd hu => ⟨hu.tcpConnection,hu.state,hu.timers,fun _ _ => ?_⟩
  cases h.channel with
  | none hc _ => exact hc
  | registered _ _ _ hs _ => cases hu.state.symm.trans hs
  | removed _ _ hr =>
    rw [hnone] at hr
    cases hr

private theorem inv_doPendingFunctors (h : Inv s) (hphase : s.phase = .events) :
    Inv { s with phase := .functors, functors := s.pendingFunctors, pendingFunctors := [] } := by
  have hsame : resets { s with phase := .functors, functors := s.pendingFunctors, pendingFunctors := [] } = resets s := by
    simp only [resets,h.events hphase,List.append_nil,List.nil_append]
  refine ⟨?_,h.attempted,h.fresh,h.connect,h.restart,?_,by simp,by simp⟩
  · rw [hsame]
    exact h.channel
  · exact live_keep h.live rfl fun _ hu => ⟨hu.tcpConnection,hu.state,hu.timers,by simp⟩

private theorem inv_popped {f : Functor} {rest : List Functor} (h : Inv s) (hphase : s.phase = .functors)
    (hf : s.functors = f :: rest) (hne : f ≠ .resetChannel) : Inv { s with functors := rest } := by
  have hsame : resets { s with functors := rest } = resets s := by
    rw [resets,resets,hf,List.cons_append,List.count_cons_of_ne hne]
  refine ⟨?_,h.attempted,h.fresh,h.connect,h.restart,?_,fun hp => ?_,h.functors⟩
  · rw [hsame]
    exact h.channel
  · exact live_keep h.live rfl fun _ hu => ⟨hu.tcpConnection,hu.state,hu.timers,hu.channel⟩
  · cases hphase.symm.trans hp

private theorem inv_resetChannel {rest : List Functor} (h : Inv s) (hphase : s.phase = .functors)
    (hf : s.functors = .resetChannel :: rest) : Inv { s with functors := rest, channel := none } := by
  have hpos : resets s = resets { s with functors := rest } + 1 := by
    rw [resets,resets,hf,List.cons_append,List.count_cons_self]
  have hzero : resets { s with functors := rest } = 0 := by
    cases h.channel with
    | none _ hr => omega
    | registered _ _ hr => omega
    | removed _ _ hr => omega
  refine ⟨.none rfl hzero,h.attempted,fun hs => ⟨rfl,(h.fresh hs).2⟩,h.connect,fun hl => ⟨rfl,(h.restart hl).2⟩,?_,?_,h.functors⟩
  · exact live_keep h.live rfl fun _ hu => ⟨hu.tcpConnection,hu.state,hu.timers,fun _ _ => rfl⟩
  · intro hp
    cases hphase.symm.trans hp

private theorem inv_runFunctor {f : Functor} {rest : List Functor} (h : Inv s) (hphase : s.phase = .functors)
    (hf : s.functors = f :: rest) (hs : State.runFunctor { s with functors := rest } f = .ok t) : Inv t := by
  cases f with
  | startInLoop => exact inv_startInLoop (inv_popped h hphase hf (by simp)) hs
  | resetChannel =>
    cases hs
    exact inv_resetChannel (s := s) h hphase hf
  | cancelInLoop timerId =>
    cases hs
    exact inv_cancel (inv_popped h hphase hf (by simp))

/-- What the calls of other threads set. -/
private theorem inv_calls (h : Inv s) (bConnect clientRetry clientConnect : Bool) (starting queueing stopping cancelling : Nat) :
    Inv { s with
      bConnect := bConnect, clientRetry := clientRetry, clientConnect := clientConnect,
      starting := starting, queueing := queueing, stopping := stopping, cancelling := cancelling } := by
  refine ⟨h.channel,h.attempted,h.fresh,h.connect,h.restart,?_,h.events,h.functors⟩
  exact live_keep h.live rfl fun _ hu => ⟨hu.tcpConnection,hu.state,hu.timers,hu.channel⟩

private theorem inv_restart (h : Inv s) (hloop : s.loop = .restart) : Inv s.restart := by
  obtain ⟨hc,hq,hl⟩ := h.restart hloop
  have hr := h.resets_of_none hc
  exact ⟨.none hc hr,by simp [State.restart],fun _ => ⟨hc,hq,hl⟩,by simp [State.restart],by simp [State.restart],.inl hl,
    h.events,h.functors⟩

private theorem inv_active {active : List Nat} (h : Inv s) (hactive : active ⊆ s.active) : Inv { s with active := active } := by
  refine ⟨h.channel,h.attempted,h.fresh,h.connect,h.restart,?_,h.events,h.functors⟩
  exact live_keep h.live rfl fun _ hu => ⟨hu.tcpConnection,hu.state,hu.timers,fun hp ha => hu.channel hp (hactive ha)⟩

/-- An event of a registered socket that was in the poll. -/
theorem event_of_step {error write selfConnect : Bool} {soError : Nat} (h : Inv s)
    (hs : step s (.handleEvent error write soError selfConnect) = .ok t) :
    ∃ fd, s.loop = .idle ∧ s.phase = .events ∧ s.channel = some ⟨fd,true⟩ ∧
      Event { s with active := s.active.filter (· ≠ fd) } fd error write soError t := by
  simp only [step] at hs
  split at hs
  · cases hs
  · rename_i c hc
    obtain ⟨fd,registered⟩ := c
    simp only [bind_ok_iff,ensure_ok_iff] at hs
    obtain ⟨-,⟨hloop,hphase,rfl,-⟩,hs⟩ := hs
    obtain ⟨-,hstate,-⟩ := h.attempt_of_registered hc
    obtain ⟨u,hu,hevent⟩ := handleEvent_event (s := { s with active := s.active.filter (· ≠ fd) }) error write soError
      selfConnect hc hstate
    cases hu.symm.trans hs
    exact ⟨fd,hloop,hphase,hc,hevent⟩

private theorem inv_go (h : Inv s) (hs : step s .loop = .ok t) : Inv t := by
  simp only [step] at hs
  split at hs
  · cases hs
    exact inv_loop (inv_calls h true _ _ _ _ _ _) (by simp) (by simp)
  · cases hs
    exact inv_cancel (inv_loop (inv_calls h false _ _ _ _ _ _) (by simp) (by simp))
  · rename_i hloop
    cases hs
    exact inv_restart h hloop
  · exact inv_startInLoop h hs
  · cases hs
  · cases hs

/-- A fresh connector has no timer, so the callback of one is refused. -/
theorem fire_not_ok (h : Inv s) : step s .fire ≠ .ok t := by
  intro hs
  simp only [step] at hs
  split at hs
  · cases hs
  · rename_i heq
    simp only [bind_ok_iff,ensure_ok_iff] at hs
    obtain ⟨-,-,hs⟩ := hs
    have hq := (h.fresh (startInLoop_ok_iff.mp hs).1).2.1
    cases heq.symm.trans hq.2

theorem inv_step {a : Label} (h : Inv s) (hs : step s a = .ok t) : Inv t := by
  cases a with
  | enableRetry | disConnect | stopCall =>
    cases hs
    exact inv_calls h _ _ _ _ _ _ _
  | connectCall | start | stopConnector =>
    simp only [step,bind_ok_iff,ensure_ok_iff,Except.ok.injEq] at hs
    obtain ⟨-,-,rfl⟩ := hs
    exact inv_calls h _ _ _ _ _ _ _
  | queueStart =>
    simp only [step,bind_ok_iff,ensure_ok_iff,Except.ok.injEq] at hs
    obtain ⟨-,-,rfl⟩ := hs
    have hcalls := inv_calls h s.bConnect s.clientRetry s.clientConnect s.starting (s.queueing - 1) s.stopping s.cancelling
    exact inv_push (f := .startInLoop) hcalls (by simp)
  | queueCancel =>
    simp only [step,bind_ok_iff,ensure_ok_iff,Except.ok.injEq] at hs
    obtain ⟨-,-,rfl⟩ := hs
    have hcalls := inv_calls h s.bConnect s.clientRetry s.clientConnect s.starting s.queueing s.stopping (s.cancelling - 1)
    exact inv_push (f := .cancelInLoop s.timerId) hcalls (by simp)
  | loopConnect =>
    simp only [step,bind_ok_iff,ensure_ok_iff,Except.ok.injEq] at hs
    obtain ⟨-,-,rfl⟩ := hs
    exact inv_loop (l := .start) (inv_calls h _ _ true _ _ _ _) (by simp) (by simp)
  | loopStop =>
    simp only [step,bind_ok_iff,ensure_ok_iff,Except.ok.injEq] at hs
    obtain ⟨-,-,rfl⟩ := hs
    exact inv_loop (l := .stop) (inv_calls h _ _ false _ _ _ _) (by simp) (by simp)
  | loop => exact inv_go h hs
  | connect errno =>
    simp only [step,bind_ok_iff,ensure_ok_iff] at hs
    obtain ⟨-,hloop,hs⟩ := hs
    exact inv_connect h hloop hs
  | poll =>
    simp only [step,bind_ok_iff,ensure_ok_iff,Except.ok.injEq] at hs
    obtain ⟨-,⟨-,hphase,hfunctors⟩,rfl⟩ := hs
    exact inv_poll h hphase hfunctors
  | handleEvent error write soError selfConnect =>
    obtain ⟨fd,hloop,hphase,hc,hevent⟩ := event_of_step h hs
    exact inv_event (inv_active h (List.filter_subset_self _)) hloop hphase hc (by simp) hevent
  | lost fd =>
    simp only [step,bind_ok_iff,ensure_ok_iff] at hs
    obtain ⟨-,⟨-,hphase,hactive,hlive⟩,hs⟩ := hs
    exact inv_lost h hphase hactive hlive hs
  | expire timerId =>
    simp only [step,bind_ok_iff,ensure_ok_iff,Except.ok.injEq] at hs
    obtain ⟨-,⟨hloop,-,hm⟩,rfl⟩ := hs
    exact inv_expire h hloop hm
  | fire => exact absurd hs (fire_not_ok h)
  | doPendingFunctors =>
    simp only [step,bind_ok_iff,ensure_ok_iff,Except.ok.injEq] at hs
    obtain ⟨-,⟨-,hphase,-⟩,rfl⟩ := hs
    exact inv_doPendingFunctors h hphase
  | functor =>
    simp only [step] at hs
    split at hs
    · cases hs
    · rename_i f rest hf
      simp only [bind_ok_iff,ensure_ok_iff] at hs
      obtain ⟨-,⟨-,hphase⟩,hs⟩ := hs
      exact inv_runFunctor h hphase hf hs

theorem inv_initial : Inv initial :=
  ⟨.none rfl rfl,by simp [initial],fun _ => ⟨rfl,⟨rfl,rfl⟩,rfl⟩,by simp [initial],by simp [initial],.inl rfl,fun _ => rfl,by simp [initial]⟩

end Invariant

end LinuxServer.Reactor.Connector
