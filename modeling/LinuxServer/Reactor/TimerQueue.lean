import LinuxServer.Lib.Machine
import LinuxServer.Lib.OrderedSet

/-! The timer queue of an event loop: timers on the heap, the two ordered indexes
and the cancel set over their addresses, the timer descriptor, and callbacks that
call back into the queue while a batch is fired. -/
namespace LinuxServer.Reactor
open LinuxServer.Lib

abbrev Addr := Nat

/-- What a 64-bit signed result keeps of a number. -/
def int64 (x : Int) : Int := x.bmod (2 ^ 64)

/-- The number is one of 64 bits. -/
def Fits (x : Int) : Prop := -2 ^ 63 ≤ x ∧ x < 2 ^ 63

instance (x : Int) : Decidable (Fits x) := inferInstanceAs (Decidable (_ ∧ _))

theorem int64_spec (x : Int) : ∃ q, int64 x = x - 2 ^ 64 * q ∧ Fits (int64 x) := by
  refine ⟨Int.bdiv x (2 ^ 64),Int.bmod_eq_self_sub_mul_bdiv x _,?_,?_⟩
  · exact Int.le_bmod (by decide)
  · exact Int.bmod_lt (by decide)

theorem int64_eq {x : Int} (h : Fits x) : int64 x = x := by
  obtain ⟨q,hq,hf⟩ := int64_spec x
  simp only [Fits] at h hf
  omega

/-! A TimeStamp is the number of microseconds since the epoch. -/
def microSecondPerSecond : Int := 1000 * 1000
def isValid (t : Int) : Bool := 0 < t
def invalid : Int := 0

/-- An interval in seconds: whether it is above zero, and the microseconds that
the conversion to int64_t makes of it. -/
structure Interval where
  positive : Bool
  micros : Int
  micros_nonneg : positive = true → 0 ≤ micros
  micros_fits : micros < 2 ^ 63
  deriving DecidableEq

def addTime (stamp : Int) (dSeconds : Interval) : Int := int64 (stamp + dSeconds.micros)

/-- A timer on the heap. It is the timer numbered `created` of the process. -/
structure Timer where
  expiration : Int
  interval : Interval
  created : Nat
  deriving DecidableEq

namespace Timer
variable (t : Timer)

def isReapeat : Bool := t.interval.positive

/-- The counter is a 64-bit integer. -/
def getSequence : Int := int64 t.created

def restart (now : Int) : Timer :=
  { t with expiration := if t.isReapeat then addTime now t.interval else invalid }

end Timer

structure TimerId where
  pTimer : Addr
  seq : Int
  deriving DecidableEq

/-- The descriptor of timerfd_create, in the time of the monotonic clock. Of an arming it
is recorded when it was, and when the clock was read for it. -/
inductive TimerFd where
  | disarmed
  | armed (deadline readAt armedAt : Int)
  | readable (deadline readAt armedAt : Int)
  deriving DecidableEq

structure Timespec where
  sec : Int
  nsec : Int
  deriving DecidableEq

/-- A call of timerfd_settime that is still to come: its value, and when the clock was read. -/
structure Arming where
  value : Timespec
  readAt : Int
  deriving DecidableEq

def howMuchTimeFromNow (expiration now : Int) : Timespec :=
  let microSeconds := int64 (expiration - now)
  let microSeconds := if microSeconds < 100 then 100 else microSeconds
  ⟨microSeconds / microSecondPerSecond,microSeconds % microSecondPerSecond * 1000⟩

/-- resetTimerFd before its timerfd_settime. -/
def resetTimerFd (expiration now monotonic : Int) : Arming := ⟨howMuchTimeFromNow expiration now,monotonic⟩

namespace TimerFd
variable (fd : TimerFd)

/-- timerfd_settime without an interval: a zero value disarms, an invalid one changes nothing. -/
def settime (monotonic : Int) (a : Arming) : TimerFd :=
  if a.value.sec < 0 ∨ a.value.nsec < 0 ∨ 1000000000 ≤ a.value.nsec then fd
  else if a.value.sec = 0 ∧ a.value.nsec = 0 then .disarmed
  else .armed (monotonic + (a.value.sec * microSecondPerSecond + a.value.nsec / 1000)) a.readAt monotonic

/-- A read takes the ticks; without any it fails and is logged. -/
def readTimerFd : TimerFd :=
  match fd with
  | .readable _ _ _ => .disarmed
  | fd => fd

end TimerFd

namespace TimerQueue

/-- An expiration with the address of its timer. -/
abbrev Entry := Int ×ₗ Addr
abbrev ActiveTimer := Addr ×ₗ Int

def Entry.when (e : Entry) : Int := (ofLex e).1
def Entry.timer (e : Entry) : Addr := (ofLex e).2

def uintptrMax : Addr := 2 ^ 64 - 1

/-- What the loop runs for the queue. Of a Cancel it is recorded whose id it got from AddTimer. -/
inductive Functor where
  | addTimerInLoop (pTimer : Addr)
  | cancelInLoop (timerId : TimerId) (of : Option Nat)
  deriving DecidableEq

/-- Where the loop thread is: outside the queue, in handleRead with the clock read, in the
callbacks of a batch, or in reset(). -/
inductive Phase where
  | idle
  | entered (now : Int)
  | firing (now : Int) (ran rest : List Entry)
  | resetting (now : Int) (rest : List Entry)
  deriving DecidableEq

/-- The entries taken out of the list and not yet put back or freed. -/
def Phase.batch : Phase → List Entry
  | .idle | .entered _ => []
  | .firing _ ran rest => ran ++ rest
  | .resetting _ rest => rest

theorem Phase.mem_batch_firing {ph : Phase} {now : Int} {ran rest : List Entry} {e : Entry} (h : ph = .firing now ran (e :: rest)) :
    e ∈ ph.batch := by
  rw [h]
  exact List.mem_append_right _ List.mem_cons_self

theorem Phase.mem_batch_resetting {ph : Phase} {now : Int} {rest : List Entry} {e : Entry} (h : ph = .resetting now (e :: rest)) :
    e ∈ ph.batch := by
  rw [h]
  exact List.mem_cons_self

/-- The entries of the batch whose callbacks have been started. -/
def Phase.ran : Phase → List Entry
  | .idle | .entered _ => []
  | .firing _ ran _ => ran
  | .resetting _ rest => rest

theorem Phase.ran_batch {ph : Phase} {e : Entry} (h : e ∈ ph.ran) : e ∈ ph.batch := by
  cases ph with
  | idle | entered => exact h
  | firing now ran rest => exact List.mem_append_left _ h
  | resetting now rest => exact h

/-- User code can run in the loop thread. -/
def Phase.inCallBack : Phase → Bool
  | .idle => true
  | .firing _ ran _ => !ran.isEmpty
  | .entered _ | .resetting _ _ => false

/-- The history of the timers. An insertion is recorded with the number of reads
before it, a run with the number of its read, a deletion with the id that had it
cancelled. -/
inductive Event where
  | added (timer : Nat) (expiration : Int) (interval : Interval) (reads : Nat)
  | restarted (timer : Nat)
  | started (timer read : Nat) (expiration : Int)
  | deleted (timer : Nat) (cause : Option TimerId)
  | cancelled (timer : Nat)
  deriving DecidableEq

structure State where
  heap : Addr → Option Timer
  /-- Timer::s_NumCreated, before it is cut to 64 bits. -/
  numCreated : Nat
  functors : List Functor
  timerList : OrderedSet Entry
  callingExpiredTimer : Bool
  activeTimers : OrderedSet ActiveTimer
  cancelTimers : OrderedSet ActiveTimer
  timerFd : TimerFd
  /-- The loop thread is in resetTimerFd, between its two calls. -/
  arming : Option Arming
  phase : Phase
  /-- The clock of gettimeofday, and the one of the descriptor. -/
  clock : Int
  monotonic : Int
  /-- What AddTimer returned for each timer, the readings of handleRead, the history. -/
  timerId : Nat → Option TimerId
  reads : List Int
  log : List Event

inductive Label where
  /-- AddTimer, in the loop thread or in another one; the new timer gets this address. -/
  | addTimer (inLoop : Bool) (pTimer : Addr) (when : Int) (dInterval : Interval)
  /-- Cancel with the id that AddTimer returned for a timer. -/
  | cancel (inLoop : Bool) (timer : Nat)
  /-- Cancel with any id. -/
  | cancelId (inLoop : Bool) (timerId : TimerId)
  | runFunctor
  /-- The queue of another loop creates a timer. -/
  | otherQueue
  /-- The clock of gettimeofday is set. -/
  | setClock (now : Int)
  /-- Both clocks advance. -/
  | advance (micros : Nat)
  | timerFdExpires
  /-- timerfd_settime, some time after the clock was read for it. -/
  | settime
  /-- handleRead up to its reading of the clock; then the read and getExpired. -/
  | handleRead
  | readTimerFd
  | runTimer
  | endTimers
  | resetTimer
  | resetTimerFd

namespace State
variable (s : State)

/-- The loop thread can call the queue. -/
def InCallBack : Prop := s.phase.inCallBack = true ∧ s.arming = none

instance : Decidable s.InCallBack := inferInstanceAs (Decidable (_ ∧ _))

def deref (p : Addr) : Except Halt Timer :=
  match s.heap p with
  | some t => .ok t
  | none => .error .freed

/-- The new operator and the constructor; AddTimer makes its id of the address alone. -/
def newTimer (p : Addr) (expiration : Int) (dInterval : Interval) : State :=
  { s with
    numCreated := s.numCreated + 1
    heap := Function.update s.heap p (some ⟨expiration,dInterval,s.numCreated + 1⟩)
    timerId := Function.update s.timerId (s.numCreated + 1) (some ⟨p,0⟩) }

def delete (p : Addr) (cause : Option TimerId) : Except Halt State := do
  let t ← s.deref p
  .ok { s with heap := Function.update s.heap p none, log := s.log ++ [.deleted t.created cause] }

def assertSizes : Except Halt Unit :=
  ensure (.assertion "m_TimerList.size() == m_ActiveTimers.size()") (s.timerList.size = s.activeTimers.size)

/-- The list is empty or its first entry is later. -/
def earliestChanged (expiration : Int) : Bool :=
  match s.timerList.first? with
  | none => true
  | some e => expiration < e.when

def insert (p : Addr) : Except Halt (State × Bool) := do
  s.assertSizes
  let t ← s.deref p
  let bEariestChanged := s.earliestChanged t.expiration
  let listed := s.timerList.insert (toLex (t.expiration,p))
  ensure (.assertion "result.second") (listed.2 = true)
  let active := s.activeTimers.insert (toLex (p,t.getSequence))
  ensure (.assertion "result.second") (active.2 = true)
  let s : State := { s with timerList := listed.1, activeTimers := active.1 }
  s.assertSizes
  .ok (s,bEariestChanged)

def addTimerInLoop (p : Addr) : Except Halt State := do
  let (s,bEariestChanged) ← s.insert p
  let t ← s.deref p
  .ok { s with
    arming := if bEariestChanged then some (Reactor.resetTimerFd t.expiration s.clock s.monotonic) else s.arming
    log := s.log ++ [.added t.created t.expiration t.interval s.reads.length] }

/-- cancelInLoop between its two assertions. -/
def cancelTimer (id : TimerId) : Except Halt State :=
  if toLex (id.pTimer,id.seq) ∈ s.activeTimers then do
    let t ← s.deref id.pTimer
    let listed := s.timerList.erase (toLex (t.expiration,id.pTimer))
    ensure (.assertion "1 == n") (listed.2 = 1)
    let s ← delete { s with timerList := listed.1 } id.pTimer (some id)
    .ok { s with activeTimers := (s.activeTimers.erase (toLex (id.pTimer,id.seq))).1 }
  else if s.callingExpiredTimer then
    .ok { s with cancelTimers := (s.cancelTimers.insert (toLex (id.pTimer,id.seq))).1 }
  else .ok s

def cancelInLoop (id : TimerId) (of : Option Nat) : Except Halt State := do
  s.assertSizes
  let s ← s.cancelTimer id
  s.assertSizes
  .ok { s with log := s.log ++ of.toList.map .cancelled }

def call : Functor → Except Halt State
  | .addTimerInLoop p => s.addTimerInLoop p
  | .cancelInLoop id of => s.cancelInLoop id of

def runInLoop (inLoop : Bool) (rCallBack : Functor) : Except Halt State :=
  if inLoop then s.call rCallBack else .ok { s with functors := s.functors ++ [rCallBack] }

/-- One round of the second loop of getExpired. -/
def eraseActive (e : Entry) : Except Halt State := do
  let t ← s.deref e.timer
  let active := s.activeTimers.erase (toLex (e.timer,t.getSequence))
  ensure (.assertion "1 == n") (active.2 = 1)
  .ok { s with activeTimers := active.1 }

def getExpired (now : Int) : Except Halt (State × List Entry) := do
  s.assertSizes
  let sentry : Entry := toLex (now,uintptrMax)
  ensure (.assertion "itor == m_TimerList.end() || now < itor->first")
    (∀ e ∈ (s.timerList.onward sentry).first?, now < e.when)
  let vExpired := s.timerList.before sentry
  let s ← vExpired.foldlM eraseActive { s with timerList := s.timerList.onward sentry }
  s.assertSizes
  .ok (s,vExpired)

/-- One round of the loop of reset. -/
def resetTimer (now : Int) (e : Entry) : Except Halt State := do
  let t ← s.deref e.timer
  if t.isReapeat ∧ toLex (e.timer,t.getSequence) ∉ s.cancelTimers then
    let (s,_) ← insert { s with heap := Function.update s.heap e.timer (some (t.restart now)) } e.timer
    .ok { s with log := s.log ++ [.restarted t.created] }
  else s.delete e.timer (if t.isReapeat then some ⟨e.timer,t.getSequence⟩ else none)

def nextExpired : Except Halt Int :=
  match s.timerList.first? with
  | none => .ok invalid
  | some e => do
    let t ← s.deref e.timer
    .ok t.expiration

/-- The end of reset: arm for the first timer when its time is a valid one. -/
def resetFd : Except Halt State := do
  let nextExpired ← s.nextExpired
  if isValid nextExpired then
    .ok { s with arming := some (Reactor.resetTimerFd nextExpired s.clock s.monotonic) }
  else .ok s

end State

def step (s : State) : Label → Except Halt State
  | .addTimer inLoop p expiration dInterval => do
    ensure .notEnabled (s.heap p = none ∧ p < uintptrMax ∧ (inLoop = true → s.InCallBack))
    (s.newTimer p expiration dInterval).runInLoop inLoop (.addTimerInLoop p)
  | .cancel inLoop k =>
    match s.timerId k with
    | none => .error .notEnabled
    | some id => do
      ensure .notEnabled (inLoop = true → s.InCallBack)
      s.runInLoop inLoop (.cancelInLoop id (some k))
  | .cancelId inLoop id => do
    ensure .notEnabled (inLoop = true → s.InCallBack)
    s.runInLoop inLoop (.cancelInLoop id none)
  | .runFunctor =>
    match s.functors with
    | [] => .error .notEnabled
    | f :: rest => do
      ensure .notEnabled (s.phase = .idle ∧ s.arming = none)
      State.call { s with functors := rest } f
  | .otherQueue => .ok { s with numCreated := s.numCreated + 1 }
  | .setClock now => .ok { s with clock := now }
  | .advance micros => .ok { s with clock := s.clock + micros, monotonic := s.monotonic + micros }
  | .timerFdExpires =>
    match s.timerFd with
    | .armed deadline readAt armedAt => do
      ensure .notEnabled (deadline ≤ s.monotonic)
      .ok { s with timerFd := .readable deadline readAt armedAt }
    | _ => .error .notEnabled
  | .settime =>
    match s.arming with
    | some a => .ok { s with timerFd := s.timerFd.settime s.monotonic a, arming := none }
    | none => .error .notEnabled
  | .handleRead => do
    ensure .notEnabled (s.phase = .idle ∧ s.arming = none)
    .ok { s with phase := .entered s.clock }
  | .readTimerFd =>
    match s.phase with
    | .entered now => do
      let (s,vExpired) ← State.getExpired { s with timerFd := s.timerFd.readTimerFd } now
      .ok { s with
        callingExpiredTimer := true
        cancelTimers := .empty
        phase := .firing now [] vExpired
        reads := s.reads ++ [now] }
    | _ => .error .notEnabled
  | .runTimer =>
    match s.phase with
    | .firing now ran (e :: rest) => do
      ensure .notEnabled (s.arming = none)
      let t ← s.deref e.timer
      .ok { s with
        phase := .firing now (ran ++ [e]) rest
        log := s.log ++ [.started t.created (s.reads.length - 1) t.expiration] }
    | _ => .error .notEnabled
  | .endTimers =>
    match s.phase with
    | .firing now ran [] => do
      ensure .notEnabled (s.arming = none)
      .ok { s with callingExpiredTimer := false, phase := .resetting now ran }
    | _ => .error .notEnabled
  | .resetTimer =>
    match s.phase with
    | .resetting now (e :: rest) => do
      let s ← s.resetTimer now e
      .ok { s with phase := .resetting now rest }
    | _ => .error .notEnabled
  | .resetTimerFd =>
    match s.phase with
    | .resetting _ [] => do
      let s ← s.resetFd
      .ok { s with phase := .idle }
    | _ => .error .notEnabled

def initial (clock : Int) (monotonic : Int) (numCreated : Nat) : State where
  heap _ := none
  numCreated := numCreated
  functors := []
  timerList := .empty
  callingExpiredTimer := false
  activeTimers := .empty
  cancelTimers := .empty
  timerFd := .disarmed
  arming := none
  phase := .idle
  clock := clock
  monotonic := monotonic
  timerId _ := none
  reads := []
  log := []

def machine : Machine State Label Halt where
  Init s := ∃ clock monotonic numCreated, s = initial clock monotonic numCreated
  step := step

end TimerQueue
end LinuxServer.Reactor
