import LinuxServer.Reactor.EPoller
import LinuxServer.Reactor.EventLoop
import LinuxServer.Reactor.TcpServer

/-! The start of a server. Its own flag and the acceptor's decide what a call of Start
does, and only one of the two has a value from construction on. -/
namespace LinuxServer.Reactor.ServerStart
open LinuxServer.Lib
open TcpServer (Loop EventLoopThreadPool)
open EPoller (Channel Call Entry)

/-- A base loop with its channels, one of them the acceptor's, and the memory in which
the acceptor is constructed. -/
structure Site (ι : Type) where
  threadId : Thread
  fd : ι → Int
  acceptChannel : ι
  /-- The descriptor of the listening socket is no other channel's. -/
  own : ∀ c, c ≠ acceptChannel → fd c ≠ fd acceptChannel
  baseLoop : Loop
  /-- What StartLoop of the pool's threads returns. -/
  startLoop : Nat → Loop
  memory : Nat → UInt8
  /-- Where m_bListenning lies in it. -/
  offset : Nat

structure Acceptor where
  /-- The byte of m_bListenning. -/
  listenning : UInt8
  /-- The socket is a listening one. -/
  socketListens : Bool

/-- The constructor sets every member but m_bListenning. -/
def Acceptor.new (memory : Nat → UInt8) (offset : Nat) : Acceptor := ⟨memory offset,false⟩

/-- Any byte but 0 reads as true. -/
def Acceptor.isListenning (a : Acceptor) : Bool := a.listenning ≠ 0

structure ThreadPool extends EventLoopThreadPool where
  started : Bool
  numThreads : Int

inductive Functor where
  | listen
  deriving DecidableEq

/-- How often Start was called, the pool started and Listen executed is recorded for the
statements only. -/
structure State (ι : Type) where
  stared : Bool
  acceptor : Acceptor
  pool : ThreadPool
  poller : EPoller.State ι
  /-- What Start queued in the base loop. -/
  pendingFunctors : List Functor
  startCalls : Nat
  poolStarts : Nat
  listened : Nat

inductive Label (ι : Type) where
  | start (t : Thread)
  | setThreadNum (nNumThread : Int)
  /-- The base loop polls, or a handler or functor in it works on another channel. -/
  | iterate (call : Call ι)
  /-- The acceptor's handler, with or without a new connection. -/
  | handleRead (accepted : Bool)
  | runFunctor

variable {ι : Type} [DecidableEq ι]

section Machine
variable (e : Site ι)

def ThreadPool.start (t : Thread) (p : ThreadPool) : Except Halt ThreadPool := do
  ensure (.assertion "!m_bStarted") (p.started = false)
  ensure (.fatal "EventLoop::abortNotInLoopThread") (t = e.threadId)
  .ok { p with started := true, loops := p.loops ++ (List.range p.numThreads.toNat).map e.startLoop }

namespace State

def startPool (t : Thread) (s : State ι) : Except Halt (State ι) := do
  let pool ← s.pool.start e t
  .ok { s with pool := pool, poolStarts := s.poolStarts + 1 }

/-- Listen of the acceptor; a socket that cannot listen ends the process. -/
def listen (t : Thread) (s : State ι) : Except Halt (State ι) := do
  ensure (.fatal "EventLoop::abortNotInLoopThread") (t = e.threadId)
  let poller ← EPoller.step e.fd s.poller (.enableReading e.acceptChannel)
  .ok { s with acceptor := ⟨1,true⟩, poller := poller, listened := s.listened + 1 }

def call (t : Thread) (s : State ι) : Functor → Except Halt (State ι)
  | .listen => s.listen e t

def runInLoop (t : Thread) (rCallBack : Functor) (s : State ι) : Except Halt (State ι) :=
  if t = e.threadId then s.call e t rCallBack
  else .ok { s with pendingFunctors := s.pendingFunctors ++ [rCallBack] }

def start (t : Thread) (s : State ι) : Except Halt (State ι) := do
  let s₁ ← if s.stared then .ok s else startPool e t { s with stared := true }
  let s₂ ← if s₁.acceptor.isListenning then .ok s₁ else s₁.runInLoop e t .listen
  .ok { s₂ with startCalls := s₂.startCalls + 1 }

end State

/-- Nothing but the acceptor works on its channel; a poll may find it ready. -/
def Foreign : Call ι → Prop
  | .enableReading c | .enableWriting c | .disableWriting c | .disableAll c | .removeChannel c => c ≠ e.acceptChannel
  | .poll _ => True

instance : ∀ call : Call ι, Decidable (Foreign e call)
  | .enableReading c | .enableWriting c | .disableWriting c | .disableAll c | .removeChannel c =>
    inferInstanceAs (Decidable (c ≠ e.acceptChannel))
  | .poll _ => .isTrue trivial

def step (s : State ι) : Label ι → Except Halt (State ι)
  | .start t => s.start e t
  | .setThreadNum nNumThread => do
    ensure (.assertion "0 <= nNumThread") (0 ≤ nNumThread)
    .ok { s with pool := { s.pool with numThreads := nNumThread } }
  | .iterate call => do
    ensure .notEnabled (Foreign e call)
    let poller ← EPoller.step e.fd s.poller call
    .ok { s with poller := poller }
  | .handleRead accepted => do
    ensure .notEnabled (e.acceptChannel ∈ s.poller.activeChannels)
    if accepted then do
      let (_,pool) ← s.pool.getNextLoop
      .ok { s with pool := { s.pool with toEventLoopThreadPool := pool } }
    else .ok s
  | .runFunctor =>
    match s.pendingFunctors with
    | [] => .error .notEnabled
    | f :: rest => State.call e e.threadId { s with pendingFunctors := rest } f

def initial : State ι := {
  stared := false
  acceptor := .new e.memory e.offset
  pool := ⟨⟨e.baseLoop,[],0⟩,false,0⟩
  poller := EPoller.init
  pendingFunctors := []
  startCalls := 0
  poolStarts := 0
  listened := 0 }

def machine : Machine (State ι) (Label ι) Halt := ⟨fun s => s = initial e,step e⟩

end Machine

section Poller
variable {e : Site ι} {p q : EPoller.State ι} {d : ι}

variable (e) in
/-- All that the poller and the kernel have of the acceptor's channel: its mask and index,
the map, and the epoll set. -/
def view (p : EPoller.State ι) : BitVec 32 × Int × Option ι × Option (Entry ι) :=
  ((p.channels e.acceptChannel).nEvents,(p.channels e.acceptChannel).nIndex,
    p.mpChannel (e.fd e.acceptChannel),p.kernel (e.fd e.acceptChannel))

variable (e) in
def Fresh (p : EPoller.State ι) : Prop := view e p = (Channel.noneEvent,EPoller.new,none,none)

variable (e) in
/-- The channel is registered for reading. -/
def Reading (p : EPoller.State ι) : Prop :=
  view e p = (Channel.readEvent,EPoller.added,some e.acceptChannel,some (Channel.readEvent,e.acceptChannel))

/-! Work on the other channels does not show. -/

private theorem view_setEvents (hd : d ≠ e.acceptChannel) (m : BitVec 32) : view e (EPoller.setEvents p d m) = view e p := by
  simp only [view,EPoller.setEvents,Function.update_of_ne hd.symm]

private theorem view_setIndex (hd : d ≠ e.acceptChannel) (n : Int) : view e (EPoller.setIndex p d n) = view e p := by
  simp only [view,EPoller.setIndex,Function.update_of_ne hd.symm]

omit [DecidableEq ι] in
private theorem view_mpChannel (hd : d ≠ e.acceptChannel) (o : Option ι) :
    view e { p with mpChannel := Function.update p.mpChannel (e.fd d) o } = view e p := by
  simp only [view,Function.update_of_ne (e.own d hd).symm]

omit [DecidableEq ι] in
private theorem view_update {nOperation : EPoller.Operation} (hd : d ≠ e.acceptChannel)
    (h : EPoller.update e.fd nOperation d p = .ok q) : view e q = view e p := by
  obtain ⟨hchannels,hmap,hkernel⟩ := EPoller.update_frame h
  simp only [view,hchannels,hmap,hkernel _ (e.own d hd).symm]

private theorem view_register (hd : d ≠ e.acceptChannel) (h : EPoller.register e.fd d p = .ok q) : view e q = view e p := by
  unfold EPoller.register at h
  split at h
  · simp only [bind_ok_iff,Except.ok.injEq] at h
    obtain ⟨-,-,rfl⟩ := h
    exact view_mpChannel hd _
  · simp only [bind_ok_iff,Except.ok.injEq] at h
    obtain ⟨-,-,-,-,rfl⟩ := h
    rfl

private theorem view_updateChannel (hd : d ≠ e.acceptChannel) (h : EPoller.updateChannel e.fd d p = .ok q) :
    view e q = view e p := by
  simp only [EPoller.updateChannel] at h
  split at h
  · obtain ⟨p',hregister,hadd⟩ := (bind_ok_iff _ _ _).mp h
    rw [view_update hd hadd,view_setIndex hd,view_register hd hregister]
  · simp only [bind_ok_iff] at h
    obtain ⟨-,-,-,-,-,-,h⟩ := h
    unfold EPoller.modify at h
    split at h
    · simp only [bind_ok_iff,Except.ok.injEq] at h
      obtain ⟨p',hdel,rfl⟩ := h
      rw [view_setIndex hd,view_update hd hdel]
    · exact view_update hd h

private theorem view_removeChannel (hd : d ≠ e.acceptChannel) (h : EPoller.removeChannel e.fd d p = .ok q) :
    view e q = view e p := by
  simp only [EPoller.removeChannel,bind_ok_iff,Except.ok.injEq] at h
  obtain ⟨-,-,-,-,-,-,-,-,-,-,p',hleave,rfl⟩ := h
  rw [view_setIndex hd]
  unfold EPoller.leave at hleave
  split at hleave
  · rw [view_update hd hleave,view_mpChannel hd]
  · cases hleave
    exact view_mpChannel hd _

/-- Neither does what a poll finds the channel ready for. -/
private theorem view_poll {answer : Except Int (List (ι × BitVec 32))} (h : EPoller.poll e.fd answer p = .ok q) :
    view e q = view e p := by
  have hsame := EPoller.same_poll h
  simp only [view,hsame.mpChannel,hsame.kernel,hsame.nEvents,hsame.nIndex]

theorem view_foreign {call : Call ι} (hc : Foreign e call) (h : EPoller.step e.fd p call = .ok q) : view e q = view e p := by
  cases call with
  | enableReading d | enableWriting d | disableWriting d | disableAll d =>
    rw [view_updateChannel hc h,view_setEvents hc]
  | removeChannel d => exact view_removeChannel hc h
  | poll answer => exact view_poll h

/-- A channel that is new enters the map and the epoll set. -/
theorem listen_registers (h : Fresh e p) : ∃ q, EPoller.step e.fd p (.enableReading e.acceptChannel) = .ok q ∧ Reading e q := by
  simp only [Fresh,view,Prod.mk.injEq] at h
  obtain ⟨hmask,hindex,hmap,hkernel⟩ := h
  simp [EPoller.step,EPoller.updateChannel,EPoller.register,EPoller.update,EPoller.epollCtl,EPoller.setEvents,EPoller.setIndex,
    Reading,view,hmask,hindex,hmap,hkernel]
  decide

end Poller

section Runs
variable {e : Site ι} {s u : State ι} {t : Thread}

variable (e) in
/-- What Start is for: the acceptor listens with its channel registered for reading, and
both Starts behind it happened once. -/
structure Started (s : State ι) : Prop where
  isListenning : s.acceptor.isListenning = true
  socketListens : s.acceptor.socketListens = true
  reading : Reading e s.poller
  pool : s.pool.started = true ∧ s.poolStarts = 1
  listened : s.listened = 1

variable (e) in
structure Listening (s : State ι) : Prop where
  acceptor : s.acceptor = ⟨1,true⟩
  reading : Reading e s.poller
  listened : s.listened = 1

variable (e) in
/-- Listen was not executed, and the flag is what the memory held. -/
structure Silent (s : State ι) : Prop where
  acceptor : s.acceptor = .new e.memory e.offset
  fresh : Fresh e s.poller
  listened : s.listened = 0

variable (e) in
structure Inv (s : State ι) : Prop where
  queue : s.pendingFunctors = []
  started : s.pool.started = s.stared
  poolStarts : s.poolStarts = s.stared.toNat
  startCalls : s.stared = true ↔ 0 < s.startCalls
  listening : s.stared = true → e.memory e.offset = 0 → Listening e s
  silent : ¬ (s.stared = true ∧ e.memory e.offset = 0) → Silent e s

omit [DecidableEq ι] in
theorem inv_initial : Inv e (initial e) where
  queue := rfl
  started := rfl
  poolStarts := rfl
  startCalls := by simp [initial]
  listening h := by cases h
  silent _ := ⟨rfl,rfl,rfl⟩

omit [DecidableEq ι] in
/-- A step that leaves the flags, the acceptor, its channel and the counts alone. -/
private theorem Inv.same (h : Inv e s) (hqueue : u.pendingFunctors = s.pendingFunctors) (hstared : u.stared = s.stared)
    (hstarted : u.pool.started = s.pool.started) (hpool : u.poolStarts = s.poolStarts)
    (hcalls : s.stared = true ↔ 0 < u.startCalls) (hacceptor : u.acceptor = s.acceptor)
    (hview : view e u.poller = view e s.poller) (hlistened : u.listened = s.listened) : Inv e u := by
  refine ⟨hqueue.trans h.queue,?_,?_,?_,fun hs hmem => ?_,fun hnot => ?_⟩
  · rw [hstarted,hstared,h.started]
  · rw [hpool,hstared,h.poolStarts]
  · rw [hstared,hcalls]
  · rw [hstared] at hs
    obtain ⟨ha,hreading,hl⟩ := h.listening hs hmem
    exact ⟨hacceptor.trans ha,hview.trans hreading,hlistened.trans hl⟩
  · rw [hstared] at hnot
    obtain ⟨ha,hfresh,hl⟩ := h.silent hnot
    exact ⟨hacceptor.trans ha,hview.trans hfresh,hlistened.trans hl⟩

omit [DecidableEq ι] in
/-- After the first call both flags are set, for whatever reason. -/
private theorem Inv.isListenning (h : Inv e s) (hs : s.stared = true) : s.acceptor.isListenning = true := by
  by_cases hmem : e.memory e.offset = 0
  · rw [(h.listening hs hmem).acceptor]
    rfl
  · rw [(h.silent fun hboth => hmem hboth.2).acceptor]
    exact decide_eq_true hmem

theorem start_again (h : Inv e s) (hs : s.stared = true) : s.start e t = .ok { s with startCalls := s.startCalls + 1 } := by
  simp only [State.start,hs,if_true,ok_bind,h.isListenning hs]

/-- The state in which the pool has started. -/
def poolStarted (e : Site ι) (s : State ι) : State ι := { s with
  stared := true
  pool := { s.pool with
    started := true, loops := s.pool.loops ++ (List.range s.pool.numThreads.toNat).map e.startLoop }
  poolStarts := s.poolStarts + 1 }

omit [DecidableEq ι] in
private theorem startPool_ok (h : s.pool.started = false) :
    State.startPool e e.threadId { s with stared := true } = .ok (poolStarted e s) := by
  simp only [State.startPool,ThreadPool.start,ensure_of _ h,ok_bind]
  rfl

theorem start_first (h : Inv e s) (hs : s.stared = false) : ∃ u, s.start e e.threadId = .ok u ∧ Inv e u := by
  have hstarted : s.pool.started = false := h.started.trans hs
  have hpool : s.poolStarts = 0 := by rw [h.poolStarts,hs]; rfl
  obtain ⟨hacceptor,hfresh,hlistened⟩ := h.silent (by simp [hs])
  have hflag : (poolStarted e s).acceptor.isListenning = decide (e.memory e.offset ≠ 0) := by
    change s.acceptor.isListenning = _
    rw [hacceptor]
    rfl
  simp only [State.start,hs,startPool_ok hstarted,hflag,ok_bind]
  by_cases hmem : e.memory e.offset = 0
  · -- the flag reads as false, so Listen is called at once
    obtain ⟨poller,hpoller,hreading⟩ := listen_registers hfresh
    have hlisten : (poolStarted e s).runInLoop e e.threadId .listen =
        .ok { poolStarted e s with acceptor := ⟨1,true⟩, poller := poller, listened := s.listened + 1 } := by
      have hrun : EPoller.step e.fd (poolStarted e s).poller (.enableReading e.acceptChannel) = .ok poller := hpoller
      rw [State.runInLoop,if_pos rfl,State.call,State.listen,ensure_of _ rfl,ok_bind,hrun]
      rfl
    simp only [hmem,ne_eq,not_true_eq_false,decide_false,if_false,hlisten,ok_bind,Bool.false_eq_true]
    refine ⟨_,rfl,h.queue,rfl,?_,?_,fun _ _ => ⟨rfl,hreading,?_⟩,fun hnot => absurd ⟨rfl,hmem⟩ hnot⟩
    · rw [poolStarted,hpool]
      rfl
    · simp [poolStarted]
    · change s.listened + 1 = 1
      rw [hlistened]
  · simp only [hmem,ne_eq,not_false_eq_true,decide_true,if_true,Bool.false_eq_true,if_false]
    refine ⟨_,rfl,h.queue,rfl,?_,?_,fun _ hzero => absurd hzero hmem,fun _ => ⟨hacceptor,hfresh,hlistened⟩⟩
    · rw [poolStarted,hpool]
      rfl
    · simp [poolStarted]

/-- The first call is one in the loop thread. -/
private theorem start_inLoop (hs : s.stared = false) (hu : s.start e t = .ok u) : t = e.threadId := by
  simp only [State.start,hs,State.startPool,ThreadPool.start,bind_ok_iff,ensure_ok_iff,Bool.false_eq_true,if_false] at hu
  obtain ⟨_,⟨_,⟨-,-,-,hloop,-⟩,-⟩,-⟩ := hu
  exact hloop

theorem start_inv (h : Inv e s) (hu : s.start e t = .ok u) : Inv e u := by
  cases hs : s.stared with
  | true =>
    rw [start_again h hs] at hu
    cases hu
    exact h.same rfl rfl rfl rfl (iff_of_true hs (Nat.succ_pos _)) rfl rfl rfl
  | false =>
    obtain rfl := start_inLoop hs hu
    obtain ⟨u',hu',hinv⟩ := start_first h hs
    cases hu.symm.trans hu'
    exact hinv

theorem step_inv (h : Inv e s) {a : Label ι} (hu : step e s a = .ok u) : Inv e u := by
  cases a with
  | start t => exact start_inv h hu
  | setThreadNum n =>
    simp only [step,bind_ok_iff,ensure_ok_iff,Except.ok.injEq] at hu
    obtain ⟨-,-,rfl⟩ := hu
    exact h.same rfl rfl rfl rfl h.startCalls rfl rfl rfl
  | iterate call =>
    simp only [step,bind_ok_iff,ensure_ok_iff,Except.ok.injEq] at hu
    obtain ⟨-,hforeign,poller,hcall,rfl⟩ := hu
    exact h.same rfl rfl rfl rfl h.startCalls rfl (view_foreign hforeign hcall) rfl
  | handleRead accepted =>
    simp only [step,bind_ok_iff,ensure_ok_iff] at hu
    obtain ⟨-,-,hu⟩ := hu
    split at hu
    · simp only [bind_ok_iff,Except.ok.injEq] at hu
      obtain ⟨-,-,rfl⟩ := hu
      exact h.same rfl rfl rfl rfl h.startCalls rfl rfl rfl
    · cases hu
      exact h
  | runFunctor =>
    simp only [step,h.queue] at hu
    cases hu

theorem reachable_inv (h : (machine e).Reachable s) : Inv e s := by
  apply Machine.Reachable.invariant (P := Inv e) _ _ h
  · intro s hs
    rw [show s = initial e from hs]
    exact inv_initial
  · intro s a u hs hu
    exact step_inv hs hu

/-- Every call in the loop thread completes. -/
theorem start_completes (h : Inv e s) : ∃ u, step e s (.start e.threadId) = .ok u := by
  cases hs : s.stared with
  | true => exact ⟨_,start_again h hs⟩
  | false =>
    obtain ⟨u,hu,-⟩ := start_first h hs
    exact ⟨u,hu⟩

/-- For every content of the memory and every run: from the first call of Start on, the
server is started exactly if the memory held 0 where m_bListenning lies. Otherwise the
flag is taken for that of a listening acceptor, and Listen is never called. -/
theorem started_iff (h : (machine e).Reachable s) (hstart : 0 < s.startCalls) :
    (Started e s ↔ e.memory e.offset = 0) ∧ ∃ u, step e s (.start e.threadId) = .ok u := by
  have hinv := reachable_inv h
  have hs := hinv.startCalls.mpr hstart
  refine ⟨⟨fun hstarted => ?_,fun hmem => ?_⟩,start_completes hinv⟩
  · by_contra hmem
    have hnone := (hinv.silent fun hboth => hmem hboth.2).listened
    have hone := hstarted.listened
    omega
  · obtain ⟨hacceptor,hreading,hlistened⟩ := hinv.listening hs hmem
    refine ⟨hinv.isListenning hs,by rw [hacceptor],hreading,⟨hinv.started.trans hs,?_⟩,hlistened⟩
    rw [hinv.poolStarts,hs]
    rfl

/-- A loop with the acceptor's channel and one more, and memory that holds one byte all over. -/
def siteOf (byte : UInt8) : Site Bool := {
  threadId := 0
  fd := EPoller.twoFds
  acceptChannel := false
  own := by decide
  baseLoop := 0
  startLoop := fun n => n + 1
  memory := fun _ => byte
  offset := 80 }

def twoStarts : List (Label Bool) :=
  [.iterate (.enableReading true),.setThreadNum 2,.start 0,.iterate (.poll (.ok [(true,1)])),.start 0]

theorem started_iff_zero : ∃ s, (machine (siteOf 0)).Reachable s ∧ s.startCalls = 2 ∧ s.pool.loops = [1,2] ∧ Started (siteOf 0) s := by
  obtain ⟨s,hr,hs⟩ := (machine (siteOf 0)).exists_reachable rfl twoStarts (fun s => (s.startCalls,s.pool.loops)) (b := (2,[1,2]))
    (by decide +kernel)
  obtain ⟨hcalls,hloops⟩ := Prod.mk.inj hs
  exact ⟨s,hr,hcalls,hloops,(started_iff hr (by omega)).1.mpr rfl⟩

/-- In memory that holds ones the acceptor is listening before it was ever told to: two
calls of Start, and its socket and its channel are as the constructor left them. -/
theorem ones_never_listen : ∃ s, (machine (siteOf 1)).run (initial (siteOf 1)) twoStarts = .ok s ∧ s.startCalls = 2 ∧
    s.poolStarts = 1 ∧ s.acceptor.isListenning = true ∧ s.acceptor.socketListens = false ∧ s.listened = 0 ∧
    Fresh (siteOf 1) s.poller ∧ ¬ Started (siteOf 1) s := by
  obtain ⟨s,hrun,hs⟩ := (machine (siteOf 1)).exists_run_eq (s := initial (siteOf 1)) twoStarts
    (fun s => (s.startCalls,s.poolStarts)) (b := (2,1)) (by decide +kernel)
  obtain ⟨hcalls,hpool⟩ := Prod.mk.inj hs
  have hinv : Inv (siteOf 1) s := reachable_inv ⟨_,twoStarts,rfl,hrun⟩
  obtain ⟨hacceptor,hfresh,hlistened⟩ := hinv.silent fun hboth => absurd hboth.2 (by decide)
  refine ⟨s,hrun,hcalls,hpool,by rw [hacceptor]; rfl,by rw [hacceptor]; rfl,hlistened,hfresh,fun hstarted => ?_⟩
  have hone := hstarted.listened
  omega

end Runs

end LinuxServer.Reactor.ServerStart
