import LinuxServer.Lib.Condition
import LinuxServer.Lib.Workers

/-! The thread pool: its workers' steps through take and runInThread, calls of Run
from any threads, and the owner's Start and Stop. -/
namespace LinuxServer.Thread
open LinuxServer.Lib

/-- Where a worker is in runInThread and take. -/
inductive Worker (Task : Type) where
  /-- In front of the test of m_bRunning. -/
  | testRunning
  /-- In take, in front of the mutex. -/
  | locking
  /-- It has the mutex and is in front of the loop's test. -/
  | testing
  /-- It has the mutex, and the test said to wait. -/
  | aboutToWait
  /-- Asleep in Wait, or woken and in front of the mutex. -/
  | inWait
  /-- It has the mutex and has left the loop. -/
  | taking
  | running (task : Task)
  | finished
  deriving DecidableEq

/-- The task that a worker has taken and not yet finished. -/
def Worker.task {Task : Type} : Worker Task → Multiset Task
  | .running task => {task}
  | _ => 0

/-- How far the owner is in Stop. -/
inductive Stopping where
  | notCalled
  | cleared
  | notified
  | returned
  deriving DecidableEq

/-- What was passed before and after Stop was called, what was executed, and what was
waiting when Stop was called, is recorded for the statements only. -/
structure ThreadPool (Task : Type) where
  /-- The worker that has the mutex. -/
  mutex : Option Nat
  cond : Condition Nat
  /-- The size of m_vThreads. -/
  threads : Nat
  worker : Nat → Worker Task
  queue : List Task
  running : Bool
  stopping : Stopping
  /-- Calls of Run in front of the mutex, and those that run their task themselves. -/
  calls : List Task
  inlineCalls : List Task
  passed : List Task
  late : List Task
  executed : List Task
  backlog : List Task

inductive PoolLabel (Task : Type) where
  | start (nNumThreads : Int)
  /-- Run up to the test of m_vThreads. -/
  | run (task : Task)
  /-- The critical section of Run, with the worker that its Notify wakes. -/
  | push (task : Task) (woken : Option Nat)
  | endInline (task : Task)
  | testRunning (w : Nat)
  /-- A worker takes the mutex, in take or inside Wait. -/
  | lock (w : Nat)
  | test (w : Nat)
  | wait (w : Nat)
  | take (w : Nat)
  | endTask (w : Nat)
  | wakeSpuriously (w : Nat)
  | clearRunning
  | notifyAll
  | join

namespace ThreadPool

section Functions
variable {Task : Type}

/-- What Run has accepted and no worker has taken. -/
def waiting (s : ThreadPool Task) : List Task := s.queue ++ s.calls ++ s.inlineCalls

def goto (s : ThreadPool Task) (w : Nat) (p : Worker Task) : ThreadPool Task :=
  { s with worker := Function.update s.worker w p }

def start (s : ThreadPool Task) (nNumThreads : Int) : Except Halt (ThreadPool Task) := do
  ensure (.assertion "false") (0 < nNumThreads ∧ s.threads = 0)
  .ok { s with running := true, threads := nNumThreads.toNat, worker := fun _ => .testRunning }

def run (s : ThreadPool Task) (task : Task) : ThreadPool Task :=
  let s' := if s.stopping = .notCalled then { s with passed := s.passed ++ [task] } else { s with late := s.late ++ [task] }
  if s.threads = 0 then { s' with inlineCalls := s.inlineCalls ++ [task] } else { s' with calls := s.calls ++ [task] }

def push [DecidableEq Task] (s : ThreadPool Task) (task : Task) (woken : Option Nat) : ThreadPool Task :=
  { s with calls := s.calls.erase task, queue := s.queue ++ [task], cond := s.cond.notify woken }

/-- take behind its loop, and the test of the task. -/
def take (s : ThreadPool Task) (w : Nat) : ThreadPool Task :=
  match s.queue with
  | [] => goto { s with mutex := none } w .testRunning
  | task :: rest => goto { s with mutex := none, queue := rest } w (.running task)

/-- Start and Stop are the owner's, in this order, each called once. -/
def step [DecidableEq Task] (s : ThreadPool Task) : PoolLabel Task → Except Halt (ThreadPool Task)
  | .start nNumThreads => do
    ensure .notEnabled (s.stopping = .notCalled)
    s.start nNumThreads
  | .run task => .ok (s.run task)
  | .push task woken => do
    ensure .notEnabled (task ∈ s.calls ∧ s.mutex = none ∧ s.cond.CanNotify woken)
    .ok (s.push task woken)
  | .endInline task => do
    ensure .notEnabled (task ∈ s.inlineCalls)
    .ok { s with inlineCalls := s.inlineCalls.erase task, executed := s.executed ++ [task] }
  | .testRunning w => do
    ensure .notEnabled (w < s.threads ∧ s.worker w = .testRunning)
    .ok (s.goto w (if s.running then .locking else .finished))
  | .lock w => do
    ensure .notEnabled (w < s.threads ∧ s.mutex = none ∧ (s.worker w = .locking ∨ s.worker w = .inWait ∧ w ∈ s.cond.woken))
    .ok (goto { s with mutex := some w, cond := s.cond.resume w } w .testing)
  | .test w => do
    ensure .notEnabled (w < s.threads ∧ s.worker w = .testing)
    .ok (s.goto w (if s.queue = [] ∧ s.running = true then .aboutToWait else .taking))
  | .wait w => do
    ensure .notEnabled (w < s.threads ∧ s.worker w = .aboutToWait)
    .ok (goto { s with mutex := none, cond := s.cond.wait w } w .inWait)
  | .take w => do
    ensure .notEnabled (w < s.threads ∧ s.worker w = .taking)
    .ok (s.take w)
  | .endTask w =>
    match s.worker w with
    | .running task => do
      ensure .notEnabled (w < s.threads)
      .ok (goto { s with executed := s.executed ++ [task] } w .testRunning)
    | _ => .error .notEnabled
  | .wakeSpuriously w => do
    ensure .notEnabled (w ∈ s.cond.waiting)
    .ok { s with cond := s.cond.wake w }
  | .clearRunning => do
    ensure .notEnabled (s.stopping = .notCalled)
    .ok { s with running := false, stopping := .cleared, backlog := s.waiting }
  | .notifyAll => do
    ensure .notEnabled (s.stopping = .cleared)
    .ok { s with cond := s.cond.notifyAll, stopping := .notified }
  | .join => do
    ensure .notEnabled (s.stopping = .notified ∧ ∀ w < s.threads, s.worker w = .finished)
    .ok { s with stopping := .returned }

def initial : ThreadPool Task := {
  mutex := none
  cond := .idle
  threads := 0
  worker := fun _ => .finished
  queue := []
  running := false
  stopping := .notCalled
  calls := []
  inlineCalls := []
  passed := []
  late := []
  executed := []
  backlog := [] }

def machine (Task : Type) [DecidableEq Task] : Machine (ThreadPool Task) (PoolLabel Task) Halt :=
  ⟨fun s => s = initial,step⟩

end Functions

section Moves
variable {Task : Type} [DecidableEq Task]

/-- All that a step can do. -/
inductive Move (s : ThreadPool Task) : PoolLabel Task → ThreadPool Task → Prop where
  | start (n : Int) (hstop : s.stopping = .notCalled) (hn : 0 < n) (hempty : s.threads = 0) :
      Move s (.start n) { s with running := true, threads := n.toNat, worker := fun _ => .testRunning }
  | run (task : Task) : Move s (.run task) (s.run task)
  | push (task : Task) (woken : Option Nat) (hcall : task ∈ s.calls) (hmutex : s.mutex = none) (hn : s.cond.CanNotify woken) :
      Move s (.push task woken) (s.push task woken)
  | endInline (task : Task) (hcall : task ∈ s.inlineCalls) :
      Move s (.endInline task) { s with inlineCalls := s.inlineCalls.erase task, executed := s.executed ++ [task] }
  | testRunning (w : Nat) (hw : w < s.threads) (hp : s.worker w = .testRunning) :
      Move s (.testRunning w) (s.goto w (if s.running then .locking else .finished))
  | lock (w : Nat) (hw : w < s.threads) (hmutex : s.mutex = none)
      (hp : s.worker w = .locking ∨ s.worker w = .inWait ∧ w ∈ s.cond.woken) :
      Move s (.lock w) (goto { s with mutex := some w, cond := s.cond.resume w } w .testing)
  | test (w : Nat) (hw : w < s.threads) (hp : s.worker w = .testing) :
      Move s (.test w) (s.goto w (if s.queue = [] ∧ s.running = true then .aboutToWait else .taking))
  | wait (w : Nat) (hw : w < s.threads) (hp : s.worker w = .aboutToWait) :
      Move s (.wait w) (goto { s with mutex := none, cond := s.cond.wait w } w .inWait)
  | takeNothing (w : Nat) (hw : w < s.threads) (hp : s.worker w = .taking) (hq : s.queue = []) :
      Move s (.take w) (goto { s with mutex := none } w .testRunning)
  | take (w : Nat) (task : Task) (rest : List Task) (hw : w < s.threads) (hp : s.worker w = .taking) (hq : s.queue = task :: rest) :
      Move s (.take w) (goto { s with mutex := none, queue := rest } w (.running task))
  | endTask (w : Nat) (task : Task) (hw : w < s.threads) (hp : s.worker w = .running task) :
      Move s (.endTask w) (goto { s with executed := s.executed ++ [task] } w .testRunning)
  | wakeSpuriously (w : Nat) (hw : w ∈ s.cond.waiting) : Move s (.wakeSpuriously w) { s with cond := s.cond.wake w }
  | clearRunning (hstop : s.stopping = .notCalled) :
      Move s .clearRunning { s with running := false, stopping := .cleared, backlog := s.waiting }
  | notifyAll (hstop : s.stopping = .cleared) : Move s .notifyAll { s with cond := s.cond.notifyAll, stopping := .notified }
  | join (hstop : s.stopping = .notified) (hfin : ∀ w < s.threads, s.worker w = .finished) :
      Move s .join { s with stopping := .returned }

variable {s t : ThreadPool Task} {a : PoolLabel Task}

theorem move_of_step (h : step s a = .ok t) : Move s a t := by
  cases a with
  | start n =>
    simp only [step,start,bind_ok_iff,ensure_ok_iff,Except.ok.injEq] at h
    obtain ⟨-,hstop,-,⟨hn,hempty⟩,rfl⟩ := h
    exact .start n hstop hn hempty
  | run task =>
    cases h
    exact .run task
  | push task woken =>
    simp only [step,bind_ok_iff,ensure_ok_iff,Except.ok.injEq] at h
    obtain ⟨-,⟨hcall,hmutex,hn⟩,rfl⟩ := h
    exact .push task woken hcall hmutex hn
  | endInline task =>
    simp only [step,bind_ok_iff,ensure_ok_iff,Except.ok.injEq] at h
    obtain ⟨-,hcall,rfl⟩ := h
    exact .endInline task hcall
  | testRunning w =>
    simp only [step,bind_ok_iff,ensure_ok_iff,Except.ok.injEq] at h
    obtain ⟨-,⟨hw,hp⟩,rfl⟩ := h
    exact .testRunning w hw hp
  | lock w =>
    simp only [step,bind_ok_iff,ensure_ok_iff,Except.ok.injEq] at h
    obtain ⟨-,⟨hw,hmutex,hp⟩,rfl⟩ := h
    exact .lock w hw hmutex hp
  | test w =>
    simp only [step,bind_ok_iff,ensure_ok_iff,Except.ok.injEq] at h
    obtain ⟨-,⟨hw,hp⟩,rfl⟩ := h
    exact .test w hw hp
  | wait w =>
    simp only [step,bind_ok_iff,ensure_ok_iff,Except.ok.injEq] at h
    obtain ⟨-,⟨hw,hp⟩,rfl⟩ := h
    exact .wait w hw hp
  | take w =>
    simp only [step,bind_ok_iff,ensure_ok_iff,Except.ok.injEq] at h
    obtain ⟨-,⟨hw,hp⟩,rfl⟩ := h
    unfold ThreadPool.take
    split
    · rename_i hq
      exact .takeNothing w hw hp hq
    · rename_i task rest hq
      exact .take w task rest hw hp hq
  | endTask w =>
    simp only [step] at h
    split at h
    · rename_i task hp
      simp only [bind_ok_iff,ensure_ok_iff,Except.ok.injEq] at h
      obtain ⟨-,hw,rfl⟩ := h
      exact .endTask w task hw hp
    · cases h
  | wakeSpuriously w =>
    simp only [step,bind_ok_iff,ensure_ok_iff,Except.ok.injEq] at h
    obtain ⟨-,hw,rfl⟩ := h
    exact .wakeSpuriously w hw
  | clearRunning =>
    simp only [step,bind_ok_iff,ensure_ok_iff,Except.ok.injEq] at h
    obtain ⟨-,hstop,rfl⟩ := h
    exact .clearRunning hstop
  | notifyAll =>
    simp only [step,bind_ok_iff,ensure_ok_iff,Except.ok.injEq] at h
    obtain ⟨-,hstop,rfl⟩ := h
    exact .notifyAll hstop
  | join =>
    simp only [step,bind_ok_iff,ensure_ok_iff,Except.ok.injEq] at h
    obtain ⟨-,⟨hstop,hfin⟩,rfl⟩ := h
    exact .join hstop hfin

end Moves

section Account
variable {Task : Type} {s t : ThreadPool Task}

/-- Where every task is that was passed to Run. -/
structure Inv (s : ThreadPool Task) : Prop where
  account : (s.passed : Multiset Task) + s.late = s.executed + held s.threads Worker.task s.worker + s.waiting
  /-- After Stop only what is passed later comes to what was waiting. -/
  left : s.stopping ≠ .notCalled → (s.waiting : Multiset Task) ≤ s.backlog + s.late
  early : s.stopping = .notCalled → s.late = []
  cleared : s.stopping ≠ .notCalled → s.running = false
  beyond : ∀ w, s.threads ≤ w → s.worker w = .testRunning ∨ s.worker w = .finished
  joined : s.stopping = .returned → ∀ w < s.threads, s.worker w = .finished

theorem inv_initial : Inv (initial : ThreadPool Task) :=
  ⟨rfl,fun h => absurd rfl h,fun _ => rfl,fun _ => rfl,fun _ _ => .inr rfl,fun h => by cases h⟩

/-- A worker that is not finished moves, with new tasks in its place, in the queue and
among the executed ones. -/
private theorem Inv.goto {w : Nat} {p : Worker Task} {m : Option Nat} {c : Condition Nat} {executed : List Task}
    (h : Inv s) (queue : List Task) (hw : w < s.threads) (hf : s.worker w ≠ .finished)
    (hsum : (executed : Multiset Task) + held s.threads Worker.task (Function.update s.worker w p) + queue =
      s.executed + held s.threads Worker.task s.worker + s.queue)
    (hqueue : (queue : Multiset Task) ≤ s.queue) :
    Inv (ThreadPool.goto { s with mutex := m, cond := c, queue := queue, executed := executed } w p) := by
  have hwait : ∀ q : List Task, ((q ++ s.calls ++ s.inlineCalls : List Task) : Multiset Task) = q + (s.calls + s.inlineCalls) := by
    intro q
    rw [← Multiset.coe_add,← Multiset.coe_add,add_assoc]
  have haccount := h.account
  have hleft := h.left
  rw [ThreadPool.waiting,hwait] at haccount hleft
  refine ⟨?_,fun hstop => ?_,h.early,h.cleared,fun v hv => ?_,fun hj => absurd (h.joined hj w hw) hf⟩
  · simp only [ThreadPool.goto,ThreadPool.waiting,hwait]
    rw [haccount,← add_assoc,← hsum,add_assoc]
  · simp only [ThreadPool.goto,ThreadPool.waiting,hwait]
    exact (add_le_add hqueue le_rfl).trans (hleft hstop)
  · have hne : v ≠ w := fun heq => absurd (heq ▸ hv) (Nat.not_le.mpr hw)
    simp only [ThreadPool.goto,Function.update_of_ne hne]
    exact h.beyond v hv

private theorem coe_append (xs ys : List Task) : ((xs ++ ys : List Task) : Multiset Task) = xs + ys :=
  (Multiset.coe_add xs ys).symm

private theorem coe_erase [DecidableEq Task] {xs : List Task} {x : Task} (h : x ∈ xs) :
    (xs : Multiset Task) = (xs.erase x : List Task) + {x} := by
  rw [← Multiset.coe_erase,add_comm,Multiset.singleton_add]
  exact (Multiset.cons_erase h).symm

theorem coe_waiting (s : ThreadPool Task) : (s.waiting : Multiset Task) = s.queue + s.calls + s.inlineCalls := by
  rw [waiting,coe_append,coe_append]

/-- A call of Run is passed and waits; before Stop it is not late. -/
private theorem run_waiting (s : ThreadPool Task) (task : Task) : ((s.run task).waiting : Multiset Task) = s.waiting + {task} := by
  rw [coe_waiting,coe_waiting,run]
  split <;> split <;> simp only [coe_append,Multiset.coe_singleton] <;> abel

private theorem run_passed (s : ThreadPool Task) (task : Task) :
    ((s.run task).passed : Multiset Task) + (s.run task).late = s.passed + s.late + {task} := by
  rw [run]
  split <;> split <;> simp only [coe_append,Multiset.coe_singleton] <;> abel

private theorem run_same (s : ThreadPool Task) (task : Task) : (s.run task).executed = s.executed ∧
    (s.run task).threads = s.threads ∧ (s.run task).worker = s.worker ∧ (s.run task).stopping = s.stopping ∧
    (s.run task).backlog = s.backlog ∧ (s.run task).running = s.running := by
  rw [run]
  split <;> split <;> exact ⟨rfl,rfl,rfl,rfl,rfl,rfl⟩

private theorem run_late {s : ThreadPool Task} {task : Task} :
    (s.stopping = .notCalled → (s.run task).late = s.late) ∧ (s.stopping ≠ .notCalled → (s.run task).late = s.late ++ [task]) := by
  constructor
  · intro h
    rw [run,if_pos h]
    split <;> rfl
  · intro h
    rw [run,if_neg h]
    split <;> rfl

private theorem inv_run (h : Inv s) (task : Task) : Inv (s.run task) := by
  obtain ⟨hexec,hthreads,hworker,hstop,hback,hrun⟩ := run_same s task
  refine ⟨?_,fun hs => ?_,fun hs => ?_,?_,?_,?_⟩
  · rw [run_passed,run_waiting,hexec,hthreads,hworker,h.account]
    abel
  · rw [hstop] at hs
    rw [run_waiting,hback,run_late.2 hs,coe_append,← add_assoc,Multiset.coe_singleton]
    exact add_le_add (h.left hs) le_rfl
  · rw [hstop] at hs
    rw [run_late.1 hs]
    exact h.early hs
  · rw [hstop,hrun]
    exact h.cleared
  · rw [hthreads,hworker]
    exact h.beyond
  · rw [hstop,hthreads,hworker]
    exact h.joined

theorem inv_move [DecidableEq Task] {a : PoolLabel Task} (h : Inv s) (hm : Move s a t) : Inv t := by
  cases hm with
  | start n hstop hn hempty =>
    refine ⟨?_,h.left,h.early,fun hne => absurd hstop hne,fun w _ => .inl rfl,fun hj => ?_⟩
    · have hnone : held s.threads Worker.task s.worker = 0 := by
        rw [hempty]
        rfl
      have haccount := h.account
      have hnew : held n.toNat Worker.task (fun _ => (.testRunning : Worker Task)) = 0 := held_eq_zero fun _ _ => rfl
      rw [hnone,← hnew] at haccount
      exact haccount
    · rw [hstop] at hj
      cases hj
  | run task => exact inv_run h task
  | push task woken hcall hmutex hn =>
    have hwait : ((s.push task woken).waiting : Multiset Task) = s.waiting := by
      rw [coe_waiting,coe_waiting,push,coe_append,Multiset.coe_singleton,coe_erase hcall]
      abel
    refine ⟨?_,fun hs => ?_,h.early,h.cleared,h.beyond,h.joined⟩
    · rw [hwait]
      exact h.account
    · rw [hwait]
      exact h.left hs
  | endInline task hcall =>
    have hwait : (s.waiting : Multiset Task) =
        (waiting { s with inlineCalls := s.inlineCalls.erase task, executed := s.executed ++ [task] } : List Task) + {task} := by
      rw [coe_waiting,coe_waiting,coe_erase hcall]
      abel
    refine ⟨?_,fun hs => ?_,h.early,h.cleared,h.beyond,h.joined⟩
    · have haccount := h.account
      rw [hwait] at haccount
      refine haccount.trans ?_
      rw [coe_append,Multiset.coe_singleton]
      abel
    · have hleft := h.left hs
      rw [hwait] at hleft
      exact (Multiset.le_add_right _ _).trans hleft
  | testRunning w hw hp =>
    refine h.goto s.queue hw (fun hf => by rw [hp] at hf; cases hf) ?_ le_rfl
    rw [held_update_of_eq]
    rw [hp]
    split <;> rfl
  | lock w hw hmutex hp =>
    refine h.goto _ hw (fun hf => by rw [hf] at hp; simp at hp) ?_ le_rfl
    rw [held_update_of_eq]
    obtain hp | ⟨hp,-⟩ := hp <;> rw [hp] <;> rfl
  | test w hw hp =>
    refine h.goto _ hw (fun hf => by rw [hp] at hf; cases hf) ?_ le_rfl
    rw [held_update_of_eq]
    rw [hp]
    split <;> rfl
  | wait w hw hp =>
    refine h.goto _ hw (fun hf => by rw [hp] at hf; cases hf) ?_ le_rfl
    rw [held_update_of_eq (by rw [hp]; rfl)]
  | takeNothing w hw hp hq =>
    refine h.goto _ hw (fun hf => by rw [hp] at hf; cases hf) ?_ le_rfl
    rw [held_update_of_eq (by rw [hp]; rfl)]
  | take w task rest hw hp hq =>
    have hheld := held_take (g := Worker.task) (f := s.worker) (p := .running task) hw (by rw [hp]; rfl) rfl
    refine h.goto _ hw (fun hf => by rw [hp] at hf; cases hf) ?_ ?_
    · rw [hheld,hq,← Multiset.cons_coe,Multiset.add_cons,Multiset.cons_add,Multiset.add_cons]
    · rw [hq,← Multiset.cons_coe]
      exact Multiset.le_cons_self _ _
  | endTask w task hw hp =>
    have hheld := held_drop (g := Worker.task) (f := s.worker) (p := .testRunning) (x := task) hw (by rw [hp]; rfl) rfl
    refine h.goto _ hw (fun hf => by rw [hp] at hf; cases hf) ?_ le_rfl
    rw [coe_append,← hheld,Multiset.coe_singleton,Multiset.add_cons,add_comm (s.executed : Multiset Task) {task},
      Multiset.singleton_add,Multiset.cons_add]
  | wakeSpuriously w hw => exact ⟨h.account,h.left,h.early,h.cleared,h.beyond,h.joined⟩
  | clearRunning hstop =>
    exact ⟨h.account,fun _ => Multiset.le_add_right _ _,fun hc => (by cases hc),fun _ => rfl,h.beyond,fun hc => (by cases hc)⟩
  | notifyAll hstop =>
    have hcalled : s.stopping ≠ .notCalled := by simp [hstop]
    exact ⟨h.account,fun _ => h.left hcalled,fun hc => (by cases hc),fun _ => h.cleared hcalled,h.beyond,fun hc => (by cases hc)⟩
  | join hstop hfin =>
    have hcalled : s.stopping ≠ .notCalled := by simp [hstop]
    exact ⟨h.account,fun _ => h.left hcalled,fun hc => (by cases hc),fun _ => h.cleared hcalled,h.beyond,fun _ => hfin⟩

theorem inv_reachable [DecidableEq Task] (h : (machine Task).Reachable s) : Inv s := by
  refine h.invariant (P := Inv) (fun s hs => ?_) (fun s a t hi hs => inv_move hi (move_of_step hs))
  rw [show s = initial from hs]
  exact inv_initial

/-- In every run in which no task is passed after Stop was called: when Stop returns
every task has been executed, exactly as often as it was passed, or is still waiting
where it was when Stop was called. Where nothing was waiting then, all are executed. -/
theorem tasks_executed_or_left [DecidableEq Task] (h : (machine Task).Reachable s) (hstop : s.stopping = .returned)
    (hlate : s.late = []) :
    (s.passed : Multiset Task) = s.executed + s.waiting ∧ (s.waiting : Multiset Task) ≤ s.backlog ∧
      (s.backlog = [] → (s.passed : Multiset Task) = s.executed) := by
  have hi := inv_reachable h
  have hnone : held s.threads Worker.task s.worker = 0 := by
    apply held_eq_zero
    intro w hw
    rw [hi.joined hstop w hw]
    rfl
  have haccount := hi.account
  have hleft := hi.left (by simp [hstop])
  rw [hlate,Multiset.coe_nil,add_zero] at hleft
  rw [hlate,hnone,Multiset.coe_nil,add_zero,add_zero] at haccount
  refine ⟨haccount,hleft,fun hback => ?_⟩
  rw [hback,Multiset.coe_nil] at hleft
  rw [haccount,Multiset.le_zero.mp hleft,add_zero]

/-- Two workers; the second task waits until one of them comes back for it. -/
theorem tasks_executed_or_left_drained : ∃ s, (machine Nat).Reachable s ∧ s.passed = [7,8] ∧ s.stopping = .returned ∧
    (s.passed : Multiset Nat) = s.executed := by
  let labels : List (PoolLabel Nat) := [.run 7,.endInline 7,.start 2,.testRunning 0,.lock 0,.test 0,.wait 0,.run 8,
    .push 8 (some 0),.testRunning 1,.lock 0,.test 0,.take 0,.lock 1,.test 1,.wait 1,.clearRunning,.endTask 0,
    .testRunning 0,.notifyAll,.lock 1,.test 1,.take 1,.testRunning 1,.join]
  obtain ⟨s,hr,hv⟩ := (machine Nat).exists_reachable rfl labels
    (fun s => (s.passed,s.stopping,s.late,s.backlog)) (b := ([7,8],.returned,[],[])) (by decide +kernel)
  simp only [Prod.mk.injEq] at hv
  obtain ⟨hp,hstop,hlate,hback⟩ := hv
  exact ⟨s,hr,hp,hstop,(tasks_executed_or_left hr hstop hlate).2.2 hback⟩

/-- A task is queued, and Stop comes before the worker's first test. -/
theorem backlog_not_executed : ∃ s, (machine Nat).Reachable s ∧ s.passed = [7] ∧ s.late = [] ∧ s.stopping = .returned ∧
    s.executed = [] := by
  let labels : List (PoolLabel Nat) := [.start 1,.run 7,.push 7 none,.clearRunning,.notifyAll,.testRunning 0,.join]
  obtain ⟨s,hr,hv⟩ := (machine Nat).exists_reachable rfl labels
    (fun s => (s.passed,s.late,s.stopping,s.executed)) (b := ([7],[],.returned,[])) (by decide +kernel)
  simp only [Prod.mk.injEq] at hv
  exact ⟨s,hr,hv⟩

end Account

section Stranded
variable {Task : Type} {s : ThreadPool Task}

/-- Stop has notified, and a worker sleeps that nobody is going to wake. -/
def Stranded (s : ThreadPool Task) : Prop :=
  (s.stopping = .notified ∨ s.stopping = .returned) ∧ s.running = false ∧ s.cond.waiting.Nonempty

/-- No worker is between the test of its loop and Wait when NotifyAll is called. -/
def NotifiesNobodyMissed (s : ThreadPool Task) : PoolLabel Task → Prop
  | .notifyAll => ∀ w, s.worker w ≠ .aboutToWait
  | _ => True

/-- What keeps all workers awake once Stop has notified. -/
def Awake (s : ThreadPool Task) : Prop :=
  s.stopping = .notified ∨ s.stopping = .returned → s.cond.waiting = ∅ ∧ ∀ w, s.worker w ≠ .aboutToWait

private theorem Awake.goto {w : Nat} {p : Worker Task} {m : Option Nat} {c : Condition Nat} {executed : List Task}
    (h : Awake s) (queue : List Task) (hi : Inv s) (hc : c.waiting = s.cond.waiting) (hp : s.running = false → p ≠ .aboutToWait) :
    Awake (ThreadPool.goto { s with mutex := m, cond := c, queue := queue, executed := executed } w p) := by
  intro hstop
  refine ⟨hc.trans (h hstop).1,fun v => ?_⟩
  by_cases hv : v = w
  · have hrun : s.running = false := by
      apply hi.cleared
      obtain hstop | hstop := hstop <;> simp only [ThreadPool.goto] at hstop <;> simp [hstop]
    simp only [ThreadPool.goto,hv,Function.update_self]
    exact hp hrun
  · simp only [ThreadPool.goto,Function.update_of_ne hv]
    exact (h hstop).2 v

end Stranded

section Stranded
variable {Task : Type} [DecidableEq Task] {s t : ThreadPool Task}

theorem awake_move {a : PoolLabel Task} (h : Awake s) (hi : Inv s) (ha : NotifiesNobodyMissed s a) (hm : Move s a t) :
    Awake t := by
  cases hm with
  | start n hstop hn hempty =>
    intro hne
    simp [hstop] at hne
  | run task =>
    rw [run]
    split <;> split <;> exact h
  | push task woken hcall hmutex hn =>
    intro hstop
    have hempty := (h hstop).1
    refine ⟨?_,(h hstop).2⟩
    cases woken with
    | none => exact hempty
    | some v =>
      have hv : v ∈ s.cond.waiting := hn
      rw [hempty] at hv
      exact absurd hv (Finset.notMem_empty v)
  | endInline task hcall => exact h
  | testRunning w hw hp => exact h.goto s.queue hi rfl fun _ => by split <;> simp
  | lock w hw hmutex hp => exact h.goto _ hi rfl fun _ => by simp
  | test w hw hp => exact h.goto s.queue hi rfl fun hrun => by simp [hrun]
  | wait w hw hp =>
    intro hstop
    exact absurd hp ((h hstop).2 w)
  | takeNothing w hw hp hq => exact h.goto _ hi rfl fun _ => by simp
  | take w task rest hw hp hq => exact h.goto _ hi rfl fun _ => by simp
  | endTask w task hw hp => exact h.goto _ hi rfl fun _ => by simp
  | wakeSpuriously w hw =>
    intro hstop
    rw [(h hstop).1] at hw
    exact absurd hw (Finset.notMem_empty w)
  | clearRunning hstop =>
    intro hne
    obtain hne | hne := hne <;> cases hne
  | notifyAll hstop => exact fun _ => ⟨rfl,ha⟩
  | join hstop hfin => exact fun _ => h (.inl hstop)

/-- A run in which NotifyAll misses nobody strands nobody; and wherever it misses a
worker in front of Wait, that worker's next step strands it. -/
theorem stop_strands_iff_missed :
    (∀ (as : List (PoolLabel Task)) s, (machine Task).run initial as = .ok s →
      (machine Task).Along NotifiesNobodyMissed initial as → ¬ Stranded s) ∧
    ∀ s u : ThreadPool Task, (machine Task).Reachable s → step s .notifyAll = .ok u → ¬ NotifiesNobodyMissed s .notifyAll →
      ∃ w t, step u (.wait w) = .ok t ∧ Stranded t := by
  constructor
  · intro as s hr hc hstranded
    have hinit : Inv (initial : ThreadPool Task) ∧ Awake (initial : ThreadPool Task) := by
      refine ⟨inv_initial,fun h => ?_⟩
      obtain h | h := h <;> cases h
    obtain ⟨-,hawake⟩ := (machine Task).run_along (P := fun s => Inv s ∧ Awake s)
      (fun s a t h ha hs => ⟨inv_move h.1 (move_of_step hs),awake_move h.2 h.1 ha (move_of_step hs)⟩) hinit hc hr
    obtain ⟨w,hw⟩ := hstranded.2.2
    rw [(hawake hstranded.1).1] at hw
    exact absurd hw (Finset.notMem_empty w)
  · intro s u h hs hmissed
    have hi := inv_reachable h
    simp only [NotifiesNobodyMissed,not_forall,not_not] at hmissed
    obtain ⟨w,hp⟩ := hmissed
    have hw : w < s.threads := by
      by_contra hle
      obtain hq | hq := hi.beyond w (Nat.not_lt.mp hle) <;> rw [hp] at hq <;> cases hq
    simp only [step,bind_ok_iff,ensure_ok_iff,Except.ok.injEq] at hs
    obtain ⟨-,hstop,rfl⟩ := hs
    refine ⟨w,goto { s with mutex := none, cond := s.cond.notifyAll.wait w, stopping := .notified } w .inWait,?_,
      .inl rfl,hi.cleared (by simp [hstop]),⟨w,Finset.mem_insert_self ..⟩⟩
    simp only [step]
    rw [ensure_of _ ⟨hw,hp⟩]
    rfl

/-- One worker tests the empty queue and the flag; Stop clears the flag and notifies;
then the worker goes to sleep. -/
theorem stop_strands_worker : ∃ s, (machine Nat).Reachable s ∧ s.threads = 1 ∧ Stranded s := by
  let labels : List (PoolLabel Nat) := [.start 1,.testRunning 0,.lock 0,.test 0,.clearRunning,.notifyAll,.wait 0]
  obtain ⟨s,hr,hv⟩ := (machine Nat).exists_reachable rfl labels
    (fun s => (s.threads,s.stopping,s.running,s.cond.waiting)) (b := (1,.notified,false,{0})) (by decide +kernel)
  simp only [Prod.mk.injEq] at hv
  obtain ⟨hthreads,hstop,hrun,hwait⟩ := hv
  refine ⟨s,hr,hthreads,.inl hstop,hrun,?_⟩
  rw [hwait]
  exact Finset.singleton_nonempty 0

end Stranded
end ThreadPool
end LinuxServer.Thread
