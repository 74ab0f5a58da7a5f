import LinuxServer.Thread.ThreadPool

/-! The pool of database connections: statements, tasks and connections in three queues,
the workers between them, and a Stop that waits for a latch behind the last task. -/
namespace LinuxServer.Db
open LinuxServer.Lib LinuxServer.Thread

namespace DBConnectionPool

/-- The functions bound to the thread pool's tasks. -/
inductive Task where
  | runInThread
  | countDown
  deriving DecidableEq

/-- Connections are told apart by numbers. -/
abbrev Conn := Nat

/-- Where a worker is in its task. -/
inductive Job where
  /-- It has none, or is in front of its first step. -/
  | idle
  | gotSql (strSql : String)
  /-- In ExecuteSql of the connection. -/
  | executing (strSql : String) (pDBConn : Conn)
  | executed (pDBConn : Conn)
  | done
  deriving DecidableEq

def Job.sql : Job → Multiset String
  | .gotSql strSql | .executing strSql _ => {strSql}
  | _ => 0

def Job.conn : Job → Multiset Conn
  | .executing _ c | .executed c => {c}
  | _ => 0

/-- How far the owner is in Stop. -/
inductive Stopping where
  | notCalled
  | latching
  | stoppingPool
  deriving DecidableEq

/-- The statements passed and executed, with the connection, are recorded for the
statements of this file only. -/
structure State where
  threadPool : ThreadPool Task
  sqlQueue : List String
  conns : List Conn
  running : Bool
  job : Nat → Job
  /-- Calls of ExecuteSql between the two queues. -/
  calls : Nat
  stopping : Stopping
  latch : Nat
  passed : List String
  executed : List (String × Conn)

inductive Label where
  | init (nPoolSize : Int)
  /-- ExecuteSql up to the end of its critical section. -/
  | executeSql (pStrSql : Option String)
  /-- The call of Run in ExecuteSql. -/
  | run
  /-- A step of the thread pool. -/
  | pool (a : PoolLabel Task)
  | popSql (w : Nat)
  | popConn (w : Nat)
  | executeSqlReturns (w : Nat)
  | pushConn (w : Nat)
  | countDown (w : Nat)
  | stop
  | latchReturns

/-- What the thread pool does between the steps that have labels of their own. A worker
ends its task when it has done all of it, and the pool is stopped after the latch. -/
def PoolStep (s : State) : PoolLabel Task → Prop
  | .start _ | .run _ | .endInline _ => False
  | .endTask w => s.job w = .done
  | .clearRunning => s.stopping = .stoppingPool
  | _ => True

instance (s : State) : (a : PoolLabel Task) → Decidable (PoolStep s a)
  | .start _ | .run _ | .endInline _ => isFalse id
  | .endTask w => inferInstanceAs (Decidable (s.job w = .done))
  | .clearRunning => inferInstanceAs (Decidable (s.stopping = .stoppingPool))
  | .push _ _ | .testRunning _ | .lock _ | .test _ | .wait _ | .take _ | .wakeSpuriously _ | .notifyAll | .join =>
    isTrue trivial

namespace State

def setJob (s : State) (w : Nat) (j : Job) : State := { s with job := Function.update s.job w j }

/-- Every connection connects. -/
def init (s : State) (nPoolSize : Int) : Except Halt State := do
  ensure (.assertion "false") (0 ≤ nPoolSize)
  if s.running then .ok s
  else do
    let threadPool ← s.threadPool.start nPoolSize
    .ok { s with conns := s.conns ++ List.range nPoolSize.toNat, running := true, threadPool := threadPool }

/-- task returns an empty string when there is no statement. -/
def popSql (s : State) (w : Nat) : Except Halt State := do
  let strSql := s.sqlQueue.headD ""
  ensure (.assertion "!strSql.empty()") (strSql ≠ "")
  .ok (setJob { s with sqlQueue := s.sqlQueue.tail } w (.gotSql strSql))

def popConn (s : State) (w : Nat) (strSql : String) : Except Halt State := do
  ensure (.assertion "!m_vDBConn.empty()") (s.conns ≠ [])
  match s.conns with
  | [] => .error .outOfBounds
  | pDBConn :: rest => .ok (setJob { s with conns := rest } w (.executing strSql pDBConn))

/-- An ended task leaves the worker without a job. -/
def poolStep (s : State) (a : PoolLabel Task) : Except Halt State := do
  let threadPool ← s.threadPool.step a
  match a with
  | .endTask w => .ok (setJob { s with threadPool := threadPool } w .idle)
  | _ => .ok { s with threadPool := threadPool }

end State

/-- ExecuteSql is called after Init with statements that are not empty, and all its calls
have returned when Stop is called. -/
def step (s : State) : Label → Except Halt State
  | .init nPoolSize => do
    ensure .notEnabled (s.stopping = .notCalled)
    s.init nPoolSize
  | .executeSql pStrSql =>
    match pStrSql with
    | none => .ok s
    | some strSql => do
      ensure .notEnabled (strSql ≠ "" ∧ s.running = true ∧ s.stopping = .notCalled)
      .ok { s with sqlQueue := s.sqlQueue ++ [strSql], calls := s.calls + 1, passed := s.passed ++ [strSql] }
  | .run => do
    ensure .notEnabled (0 < s.calls)
    .ok { s with calls := s.calls - 1, threadPool := s.threadPool.run .runInThread }
  | .pool a => do
    ensure .notEnabled (PoolStep s a)
    s.poolStep a
  | .popSql w => do
    ensure .notEnabled (s.threadPool.worker w = .running .runInThread ∧ s.job w = .idle)
    s.popSql w
  | .popConn w =>
    match s.job w with
    | .gotSql strSql => s.popConn w strSql
    | _ => .error .notEnabled
  | .executeSqlReturns w =>
    match s.job w with
    | .executing strSql pDBConn =>
      .ok (State.setJob { s with executed := s.executed ++ [(strSql,pDBConn)] } w (.executed pDBConn))
    | _ => .error .notEnabled
  | .pushConn w =>
    match s.job w with
    | .executed pDBConn => .ok (State.setJob { s with conns := s.conns ++ [pDBConn] } w .done)
    | _ => .error .notEnabled
  | .countDown w => do
    ensure .notEnabled (s.threadPool.worker w = .running .countDown ∧ s.job w = .idle)
    .ok (State.setJob { s with latch := s.latch - 1 } w .done)
  | .stop => do
    ensure .notEnabled (s.stopping = .notCalled ∧ s.running = true ∧ s.calls = 0 ∧ s.threadPool.calls = [])
    .ok { s with running := false, latch := 1, stopping := .latching, threadPool := s.threadPool.run .countDown }
  | .latchReturns => do
    ensure .notEnabled (s.stopping = .latching ∧ s.latch = 0)
    .ok { s with stopping := .stoppingPool }

def initial : State := {
  threadPool := .initial
  sqlQueue := []
  conns := []
  running := false
  job := fun _ => .idle
  calls := 0
  stopping := .notCalled
  latch := 0
  passed := []
  executed := [] }

def machine : Machine State Label Halt := ⟨fun s => s = initial,step⟩

/-- The place of every worker, in its thread and in its task. -/
def State.places (s : State) (w : Nat) : Worker Task × Job := (s.threadPool.worker w,s.job w)

/-- A task that has not yet taken its statement. -/
def opening (p : Worker Task × Job) : Multiset Unit := if p = (.running .runInThread,.idle) then {()} else 0

/-- Where the latch task is. It is behind all others, so the queue is empty once it
has been taken. -/
inductive Ending (s : State) : Stopping → Prop where
  | notCalled (hpool : s.threadPool.stopping = .notCalled) (hqueue : .countDown ∉ s.threadPool.queue ++ s.threadPool.calls)
      (hworker : ∀ w, s.threadPool.worker w ≠ .running .countDown) : Ending s .notCalled
  | pending (tasks : List Task) (hpool : s.threadPool.stopping = .notCalled) (hcalls : s.calls = 0)
      (hqueue : s.threadPool.queue ++ s.threadPool.calls = tasks ++ [.countDown]) (hlast : s.threadPool.calls.length ≤ 1)
      (htasks : .countDown ∉ tasks) (hworker : ∀ w, s.threadPool.worker w ≠ .running .countDown) (hlatch : s.latch = 1) :
      Ending s .latching
  | taken (hpool : s.threadPool.stopping = .notCalled) (hcalls : s.calls = 0) (hqueue : s.threadPool.queue = [])
      (hrun : s.threadPool.calls = []) : Ending s .latching
  | stoppingPool (hcalls : s.calls = 0) (hqueue : s.threadPool.queue = []) (hrun : s.threadPool.calls = []) :
      Ending s .stoppingPool

structure Inv (s : State) : Prop where
  pool : s.threadPool.Inv
  jobs : ∀ w, s.job w ≠ .idle → s.threadPool.worker w = .running .runInThread ∨
    s.threadPool.worker w = .running .countDown ∧ s.job w = .done
  /-- Every statement in the queue has its own call, task or worker on the way to it. -/
  tokens : s.sqlQueue.length = s.calls + (s.threadPool.queue ++ s.threadPool.calls).count .runInThread +
    (held s.threadPool.threads opening s.places).card
  statements : (s.passed : Multiset String) =
    (s.executed.map Prod.fst : List String) + held s.threadPool.threads Job.sql s.job + s.sqlQueue
  nonempty : "" ∉ s.sqlQueue
  conns : (s.conns : Multiset Conn) + held s.threadPool.threads Job.conn s.job = Multiset.range s.threadPool.threads
  ending : Ending s s.stopping
  opened : s.threadPool.threads = 0 → s.calls = 0 ∧ s.running = false

variable {s t : State} {w : Nat}

theorem Inv.idle {s : State} (h : Inv s) (hp : ∀ task, s.threadPool.worker w ≠ .running task) : s.job w = .idle := by
  by_contra hne
  obtain hr | ⟨hr,-⟩ := h.jobs w hne
  · exact hp _ hr
  · exact hp _ hr

/-- In the middle of its task a worker runs a statement. -/
theorem Inv.running_of_job {s : State} (h : Inv s) (hidle : s.job w ≠ .idle) (hdone : s.job w ≠ .done) :
    s.threadPool.worker w = .running .runInThread := by
  obtain hr | ⟨-,hd⟩ := h.jobs w hidle
  · exact hr
  · exact absurd hd hdone

theorem Inv.lt_threads {task : Task} (h : Inv s) (hp : s.threadPool.worker w = .running task) : w < s.threadPool.threads := by
  by_contra hle
  obtain hq | hq := h.pool.beyond w (Nat.not_lt.mp hle) <;> rw [hp] at hq <;> cases hq

theorem inv_initial : Inv initial := by
  refine ⟨ThreadPool.inv_initial,fun w hw => absurd rfl hw,rfl,rfl,List.not_mem_nil,rfl,?_,fun _ => ⟨rfl,rfl⟩⟩
  exact .notCalled rfl List.not_mem_nil fun w hw => by cases hw

private theorem Ending.frame {o : Stopping} (h : Ending s o) (hcalls : t.calls = s.calls)
    (hqueue : t.threadPool.queue = s.threadPool.queue) (hrun : t.threadPool.calls = s.threadPool.calls)
    (hpool : o ≠ .stoppingPool → t.threadPool.stopping = s.threadPool.stopping)
    (hworker : ∀ w task, t.threadPool.worker w = .running task ↔ s.threadPool.worker w = .running task)
    (hlatch : t.latch = s.latch ∨ ∃ w, s.threadPool.worker w = .running .countDown) : Ending t o := by
  cases h with
  | notCalled hp hq hw =>
    refine .notCalled ((hpool (by simp)).trans hp) (by rwa [hqueue,hrun]) fun w hc => ?_
    exact hw w ((hworker w _).mp hc)
  | pending tasks hp hc hq hlast ht hw hl =>
    refine .pending tasks ((hpool (by simp)).trans hp) (hcalls.trans hc) (by rwa [hqueue,hrun]) (by rwa [hrun]) ht
      (fun w hc => hw w ((hworker w _).mp hc)) ?_
    obtain hlatch | ⟨w,hc⟩ := hlatch
    · exact hlatch.trans hl
    · exact absurd hc (hw w)
  | taken hp hc hq hr => exact .taken ((hpool (by simp)).trans hp) (hcalls.trans hc) (hqueue.trans hq) (hrun.trans hr)
  | stoppingPool hc hq hr => exact .stoppingPool (hcalls.trans hc) (hqueue.trans hq) (hrun.trans hr)

/-- A worker goes on in its task: what it held and what the queues held is only moved. -/
private theorem Inv.setJob {task : Task} {j : Job} (h : Inv s) (sqlQueue : List String) (conns : List Conn)
    (executed : List (String × Conn)) (latch : Nat) (hw : s.threadPool.worker w = .running task) (hj : j ≠ .idle) (htask : task = .runInThread ∨ j = .done)
    (htokens : sqlQueue.length + (opening (s.places w)).card = s.sqlQueue.length)
    (hsql : (executed.map Prod.fst : List String) + j.sql + (sqlQueue : Multiset String) =
      (s.executed.map Prod.fst : List String) + (s.job w).sql + s.sqlQueue)
    (hne : "" ∉ sqlQueue) (hconns : (conns : Multiset Conn) + j.conn = s.conns + (s.job w).conn)
    (hlatch : latch = s.latch ∨ task = .countDown) :
    Inv (State.setJob { s with sqlQueue := sqlQueue, conns := conns, executed := executed, latch := latch } w j) := by
  have hlt := h.lt_threads hw
  have hplaces : (State.setJob { s with sqlQueue := sqlQueue, conns := conns, executed := executed, latch := latch } w j).places =
      Function.update s.places w (s.threadPool.worker w,j) := by
    funext v
    by_cases hv : v = w
    · simp [State.places,State.setJob,hv]
    · simp [State.places,State.setJob,hv]
  refine ⟨h.pool,fun v hv => ?_,?_,?_,hne,?_,?_,h.opened⟩
  · by_cases hvw : v = w
    · simp only [State.setJob,hvw,Function.update_self,hw] at hv ⊢
      cases task with
      | runInThread => exact .inl rfl
      | countDown =>
        obtain htask | htask := htask
        · cases htask
        · exact .inr ⟨rfl,htask⟩
    · simp only [State.setJob,Function.update_of_ne hvw] at hv ⊢
      exact h.jobs v hv
  · have hupd := congrArg Multiset.card (held_update (g := opening) (f := s.places) hlt (s.threadPool.worker w,j))
    have hzero : opening (s.threadPool.worker w,j) = 0 := if_neg (by simp [hj])
    have htok := h.tokens
    rw [hzero,Multiset.card_add,Multiset.card_add,Multiset.card_zero] at hupd
    rw [hplaces]
    simp only [State.setJob]
    omega
  · have hupd := held_update (g := Job.sql) (f := s.job) hlt j
    refine add_right_cancel (b := (s.job w).sql) ?_
    calc (s.passed : Multiset String) + (s.job w).sql
        = (s.executed.map Prod.fst : List String) + (s.job w).sql + s.sqlQueue + held s.threadPool.threads Job.sql s.job := by
          rw [h.statements]
          abel
      _ = (executed.map Prod.fst : List String) + sqlQueue + (held s.threadPool.threads Job.sql s.job + j.sql) := by
          rw [← hsql]
          abel
      _ = (executed.map Prod.fst : List String) + held s.threadPool.threads Job.sql (Function.update s.job w j) + sqlQueue +
          (s.job w).sql := by
          rw [← hupd]
          abel
  · have hupd := held_update (g := Job.conn) (f := s.job) hlt j
    refine add_right_cancel (b := (s.job w).conn) ?_
    calc (conns : Multiset Conn) + held s.threadPool.threads Job.conn (Function.update s.job w j) + (s.job w).conn
        = conns + j.conn + held s.threadPool.threads Job.conn s.job := by
          rw [add_assoc,hupd]
          abel
      _ = Multiset.range s.threadPool.threads + (s.job w).conn := by
          rw [hconns,← h.conns]
          abel
  · refine h.ending.frame rfl rfl rfl (fun _ => rfl) (fun _ _ => Iff.rfl) ?_
    obtain hlatch | rfl := hlatch
    · exact .inl hlatch
    · exact .inr ⟨w,hw⟩

/-- The thread pool moves, but no worker starts or ends a task. -/
private theorem Inv.quiet {p : ThreadPool Task} (h : Inv s) (hi : p.Inv) (hthreads : p.threads = s.threadPool.threads)
    (hqueue : p.queue = s.threadPool.queue) (hrun : p.calls = s.threadPool.calls)
    (hworker : ∀ w task, p.worker w = .running task ↔ s.threadPool.worker w = .running task)
    (hstop : s.stopping ≠ .stoppingPool → p.stopping = s.threadPool.stopping) : Inv { s with threadPool := p } := by
  have hopening : held p.threads opening (State.places { s with threadPool := p }) = held s.threadPool.threads opening s.places := by
    rw [hthreads]
    apply Finset.sum_congr rfl
    intro v _
    simp only [opening,State.places,Prod.mk.injEq,hworker]
  refine ⟨hi,fun v hv => ?_,?_,?_,h.nonempty,?_,h.ending.frame rfl hqueue hrun hstop hworker (.inl rfl),?_⟩
  · simp only [hworker]
    exact h.jobs v hv
  · have htok := h.tokens
    simp only [hqueue,hrun,hopening]
    exact htok
  · simp only [hthreads]
    exact h.statements
  · simp only [hthreads]
    exact h.conns
  · simp only [hthreads]
    exact h.opened

private theorem running_update {p : ThreadPool Task} {x : Worker Task} (hx : ∀ task, x ≠ .running task)
    (hw : ∀ task, p.worker w ≠ .running task) (v : Nat) (task : Task) :
    Function.update p.worker w x v = .running task ↔ p.worker v = .running task := by
  by_cases hv : v = w
  · rw [hv,Function.update_self]
    exact ⟨fun h => absurd h (hx task),fun h => absurd h (hw task)⟩
  · rw [Function.update_of_ne hv]

private theorem Inv.pushed {task : Task} {woken : Option Nat} (h : Inv s) (hi : (s.threadPool.push task woken).Inv)
    (hcall : task ∈ s.threadPool.calls) : Inv { s with threadPool := s.threadPool.push task woken } := by
  have hperm : ((s.threadPool.queue ++ [task]) ++ s.threadPool.calls.erase task).Perm (s.threadPool.queue ++ s.threadPool.calls) := by
    rw [List.append_assoc,List.singleton_append]
    exact (List.perm_cons_erase hcall).symm.append_left _
  refine ⟨hi,h.jobs,?_,h.statements,h.nonempty,h.conns,?_,h.opened⟩
  · have htok := h.tokens
    rw [← hperm.count_eq] at htok
    exact htok
  · have hend := h.ending
    generalize s.stopping = o at hend
    cases hend with
    | notCalled hp hq hw => exact .notCalled hp (fun hm => hq (hperm.mem_iff.mp hm)) hw
    | pending tasks hp hc hq hlast ht hw hl =>
      have hone : s.threadPool.calls = [task] := by
        obtain ⟨x,hx⟩ := List.length_eq_one_iff.mp (Nat.le_antisymm hlast (List.length_pos_of_mem hcall))
        rw [hx,List.mem_singleton] at hcall
        rw [hx,hcall]
      refine .pending tasks hp hc ?_ ?_ ht hw hl
      · simp only [ThreadPool.push,hone,List.erase_cons_head,List.append_nil]
        rw [← hq,hone]
      · simp only [ThreadPool.push,hone,List.erase_cons_head]
        exact Nat.zero_le _
    | taken hp hc hq hr | stoppingPool hc hq hr =>
      rw [hr] at hcall
      exact absurd hcall List.not_mem_nil

private theorem Inv.took {task : Task} {rest : List Task} {m : Option Nat} (h : Inv s)
    (hi : (ThreadPool.goto { s.threadPool with mutex := m, queue := rest } w (.running task)).Inv)
    (hlt : w < s.threadPool.threads) (hw : s.threadPool.worker w = .taking) (hq : s.threadPool.queue = task :: rest) :
    Inv { s with threadPool := ThreadPool.goto { s.threadPool with mutex := m, queue := rest } w (.running task) } := by
  have hidle : s.job w = .idle := h.idle fun _ hr => by rw [hw] at hr; cases hr
  have hplaces : State.places { s with threadPool := ThreadPool.goto { s.threadPool with mutex := m, queue := rest } w (.running task) } =
      Function.update s.places w (.running task,.idle) := by
    funext v
    by_cases hv : v = w
    · simp [State.places,ThreadPool.goto,hv,hidle]
    · simp [State.places,ThreadPool.goto,hv]
  refine ⟨hi,fun v hv => ?_,?_,h.statements,h.nonempty,h.conns,?_,h.opened⟩
  · have hne : v ≠ w := fun heq => hv (heq ▸ hidle)
    simp only [ThreadPool.goto,Function.update_of_ne hne]
    exact h.jobs v hv
  · have hupd := congrArg Multiset.card (held_update (g := opening) (f := s.places) hlt (.running task,.idle))
    have hzero : opening (s.places w) = 0 := if_neg (by simp [State.places,hw])
    have htok := h.tokens
    rw [hzero,Multiset.card_add,Multiset.card_add,Multiset.card_zero] at hupd
    rw [hq,List.cons_append,List.count_cons] at htok
    rw [hplaces]
    simp only [ThreadPool.goto]
    cases task with
    | runInThread =>
      simp [opening] at hupd htok ⊢
      omega
    | countDown =>
      simp [opening] at hupd htok ⊢
      omega
  · have hend := h.ending
    generalize s.stopping = o at hend
    cases hend with
    | notCalled hp hqueue hworker =>
      rw [hq] at hqueue
      refine .notCalled hp (fun hm => hqueue (List.mem_cons_of_mem _ hm)) fun v hv => ?_
      simp only [ThreadPool.goto,Function.update_apply] at hv
      split at hv
      · cases hv
        exact hqueue List.mem_cons_self
      · exact hworker v hv
    | pending tasks hp hc hqueue hlast ht hworker hl =>
      rw [hq,List.cons_append] at hqueue
      cases tasks with
      | nil =>
        -- the latch task itself: nothing is left
        simp only [List.nil_append,List.cons.injEq,List.append_eq_nil_iff] at hqueue
        exact .taken hp hc hqueue.2.1 hqueue.2.2
      | cons x tasks =>
        simp only [List.cons_append,List.cons.injEq] at hqueue
        obtain ⟨rfl,hqueue⟩ := hqueue
        refine .pending tasks hp hc hqueue hlast (fun hm => ht (List.mem_cons_of_mem _ hm)) (fun v hv => ?_) hl
        simp only [ThreadPool.goto,Function.update_apply] at hv
        split at hv
        · cases hv
          exact ht List.mem_cons_self
        · exact hworker v hv
    | taken hp hc hqueue hr | stoppingPool hc hqueue hr =>
      rw [hqueue] at hq
      cases hq

private theorem Inv.endTask {executed : List Task} (h : Inv s)
    (hi : (ThreadPool.goto { s.threadPool with executed := executed } w .testRunning).Inv) (hdone : s.job w = .done) :
    Inv (State.setJob { s with threadPool := ThreadPool.goto { s.threadPool with executed := executed } w .testRunning } w .idle) := by
  have hplaces : (State.setJob { s with threadPool := ThreadPool.goto { s.threadPool with executed := executed } w .testRunning } w .idle).places =
      Function.update s.places w (.testRunning,.idle) := by
    funext v
    by_cases hv : v = w
    · simp [State.places,State.setJob,ThreadPool.goto,hv]
    · simp [State.places,State.setJob,ThreadPool.goto,hv]
  refine ⟨hi,fun v hv => ?_,?_,?_,h.nonempty,?_,?_,h.opened⟩
  · by_cases hvw : v = w
    · simp [State.setJob,hvw] at hv
    · simp only [State.setJob,ThreadPool.goto,Function.update_of_ne hvw] at hv ⊢
      exact h.jobs v hv
  · have hsame := held_update_of_eq (n := s.threadPool.threads) (g := opening) (f := s.places) (w := w)
      (p := (.testRunning,.idle)) (by simp [opening,State.places,hdone])
    have htok := h.tokens
    rw [← hsame,← hplaces] at htok
    exact htok
  · have hsame := held_update_of_eq (n := s.threadPool.threads) (g := Job.sql) (f := s.job) (w := w) (p := .idle) (by rw [hdone]; rfl)
    have hst := h.statements
    rw [← hsame] at hst
    exact hst
  · have hsame := held_update_of_eq (n := s.threadPool.threads) (g := Job.conn) (f := s.job) (w := w) (p := .idle) (by rw [hdone]; rfl)
    have hc := h.conns
    rw [← hsame] at hc
    exact hc
  · have hend := h.ending
    have hmono : ∀ v task', Function.update s.threadPool.worker w .testRunning v = .running task' →
        s.threadPool.worker v = .running task' := by
      intro v task' hv
      rw [Function.update_apply] at hv
      split at hv
      · cases hv
      · exact hv
    simp only [State.setJob]
    generalize s.stopping = o at hend
    cases hend with
    | notCalled hp hq hworker => exact .notCalled hp hq fun v hv => hworker v (hmono v _ hv)
    | pending tasks hp hc hq hlast ht hworker hl => exact .pending tasks hp hc hq hlast ht (fun v hv => hworker v (hmono v _ hv)) hl
    | taken hp hc hq hr => exact .taken hp hc hq hr
    | stoppingPool hc hq hr => exact .stoppingPool hc hq hr

/-- The pool has threads, so Run queues its task. -/
private theorem run_eq {p : ThreadPool Task} (task : Task) (hp : p.threads ≠ 0) : (p.run task).queue = p.queue ∧
    (p.run task).calls = p.calls ++ [task] ∧ (p.run task).worker = p.worker ∧ (p.run task).threads = p.threads ∧
    (p.run task).stopping = p.stopping := by
  rw [ThreadPool.run,if_neg hp]
  split <;> exact ⟨rfl,rfl,rfl,rfl,rfl⟩

private theorem Inv.ran (h : Inv s) (hcalls : 0 < s.calls) :
    Inv { s with calls := s.calls - 1, threadPool := s.threadPool.run .runInThread } := by
  have hthreads : s.threadPool.threads ≠ 0 := by
    intro hzero
    rw [(h.opened hzero).1] at hcalls
    cases hcalls
  obtain ⟨hq,hr,hw,ht,hp⟩ := run_eq .runInThread hthreads
  have hplaces : State.places { s with calls := s.calls - 1, threadPool := s.threadPool.run .runInThread } = s.places := by
    funext v
    simp only [State.places,hw]
  refine ⟨ThreadPool.inv_move h.pool (.run Task.runInThread),?_,?_,?_,h.nonempty,?_,?_,?_⟩
  · simp only [hw]
    exact h.jobs
  · have htok := h.tokens
    rw [hplaces]
    simp only [hq,hr,ht,← List.append_assoc,List.count_append,List.count_singleton_self] at htok ⊢
    omega
  · simp only [ht]
    exact h.statements
  · simp only [ht]
    exact h.conns
  · have hend := h.ending
    simp only
    generalize s.stopping = o at hend
    cases hend with
    | notCalled hpool hqueue hworker =>
      refine .notCalled (hp.trans hpool) ?_ (by rwa [hw])
      rw [hq,hr,← List.append_assoc,List.mem_append,not_or]
      exact ⟨hqueue,by simp⟩
    | pending _ _ hc | taken _ hc | stoppingPool hc =>
      rw [hc] at hcalls
      cases hcalls
  · simp only [ht]
    exact fun hzero => absurd hzero hthreads

private theorem Inv.stopped (h : Inv s) (hstop : s.stopping = .notCalled) (hrun : s.running = true) (hcalls : s.calls = 0)
    (hpool : s.threadPool.calls = []) :
    Inv { s with running := false, latch := 1, stopping := .latching, threadPool := s.threadPool.run .countDown } := by
  have hthreads : s.threadPool.threads ≠ 0 := by
    intro hzero
    rw [(h.opened hzero).2] at hrun
    cases hrun
  obtain ⟨hq,hr,hw,ht,hp⟩ := run_eq .countDown hthreads
  have hplaces : State.places { s with running := false, latch := 1, stopping := .latching, threadPool := s.threadPool.run .countDown } =
      s.places := by
    funext v
    simp only [State.places,hw]
  refine ⟨ThreadPool.inv_move h.pool (.run Task.countDown),?_,?_,?_,h.nonempty,?_,?_,?_⟩
  · simp only [hw]
    exact h.jobs
  · have htok := h.tokens
    rw [hplaces]
    simp only [hq,hr,ht,← List.append_assoc,List.count_append] at htok ⊢
    simpa using htok
  · simp only [ht]
    exact h.statements
  · simp only [ht]
    exact h.conns
  · have hend := h.ending
    rw [hstop] at hend
    cases hend with
    | notCalled hpl hqueue hworker =>
      rw [hpool,List.append_nil] at hqueue
      refine .pending s.threadPool.queue (hp.trans hpl) hcalls ?_ ?_ hqueue (by rwa [hw]) rfl
      · rw [hq,hr,hpool,List.nil_append]
      · rw [hr,hpool]
        exact le_rfl
  · simp only [ht]
    exact fun hzero => absurd hzero hthreads

private theorem Inv.started {n : Int} {p : ThreadPool Task} (h : Inv s) (hstop : s.stopping = .notCalled)
    (hs : s.threadPool.start n = .ok p) :
    Inv { s with conns := s.conns ++ List.range n.toNat, running := true, threadPool := p } := by
  have hend := h.ending
  rw [hstop] at hend
  cases hend with
  | notCalled hpool hqueue hworker =>
    simp only [ThreadPool.start,bind_ok_iff,ensure_ok_iff,Except.ok.injEq] at hs
    obtain ⟨-,⟨hn,hzero⟩,rfl⟩ := hs
    have hidle : ∀ v, s.job v = .idle := by
      intro v
      apply h.idle
      intro task hv
      have hlt := h.lt_threads hv
      omega
    have hnone : ∀ {β : Type} (g : Job → Multiset β), g .idle = 0 → ∀ k, held k g s.job = 0 := by
      intro β g hg k
      apply held_eq_zero
      intro v _
      rw [hidle v,hg]
    have htok := h.tokens
    have hst := h.statements
    have hc := h.conns
    rw [hnone Job.sql rfl] at hst
    rw [hnone Job.conn rfl] at hc
    rw [hzero,Multiset.range_zero,add_zero] at hc
    have hopen : ∀ k, held k opening (fun v => ((.testRunning : Worker Task),s.job v)) = 0 := by
      intro k
      apply held_eq_zero
      intro v _
      exact if_neg (by simp)
    refine ⟨ThreadPool.inv_move h.pool (.start n hpool hn hzero),fun v hv => absurd (hidle v) hv,?_,?_,h.nonempty,?_,?_,fun hz => ?_⟩
    · refine htok.trans ?_
      have hempty : held s.threadPool.threads opening s.places = 0 := by
        rw [hzero]
        rfl
      rw [hempty]
      exact congrArg (fun m : Multiset Unit => s.calls + (s.threadPool.queue ++ s.threadPool.calls).count .runInThread + m.card)
        (hopen n.toNat).symm
    · simp only [hnone Job.sql rfl]
      exact hst
    · simp only [hnone Job.conn rfl]
      rw [← Multiset.coe_add,hc,zero_add,add_zero]
      rfl
    · simp only [hstop]
      exact .notCalled hpool hqueue fun v hv => by cases hv
    · have hpos : n.toNat ≠ 0 := by omega
      exact absurd hz hpos

private theorem inv_pool {a : PoolLabel Task} (h : Inv s) (ha : PoolStep s a) (hs : s.poolStep a = .ok t) : Inv t := by
  simp only [State.poolStep,bind_ok_iff] at hs
  obtain ⟨p,hp,hs⟩ := hs
  have hm := ThreadPool.move_of_step hp
  have hi := ThreadPool.inv_move h.pool hm
  cases hm with
  | start | run | endInline => exact absurd ha id
  | push task woken hcall hmutex hn =>
    cases hs
    exact h.pushed hi hcall
  | testRunning w hw hpc =>
    cases hs
    refine h.quiet hi rfl rfl rfl (running_update (fun task => ?_) fun task => ?_) fun _ => rfl
    · split <;> simp
    · simp [hpc]
  | lock w hw hmutex hpc =>
    cases hs
    refine h.quiet hi rfl rfl rfl (running_update (fun task => by simp) fun task => ?_) fun _ => rfl
    obtain hpc | ⟨hpc,-⟩ := hpc <;> simp [hpc]
  | test w hw hpc =>
    cases hs
    refine h.quiet hi rfl rfl rfl (running_update (fun task => ?_) fun task => ?_) fun _ => rfl
    · split <;> simp
    · simp [hpc]
  | wait w hw hpc =>
    cases hs
    exact h.quiet hi rfl rfl rfl (running_update (fun task => by simp) fun task => by simp [hpc]) fun _ => rfl
  | takeNothing w hw hpc hq =>
    cases hs
    exact h.quiet hi rfl rfl rfl (running_update (fun task => by simp) fun task => by simp [hpc]) fun _ => rfl
  | take w task rest hw hpc hq =>
    cases hs
    exact h.took hi hw hpc hq
  | endTask w task hw hpc =>
    cases hs
    exact h.endTask hi ha
  | wakeSpuriously w hw =>
    cases hs
    exact h.quiet hi rfl rfl rfl (fun _ _ => Iff.rfl) fun _ => rfl
  | clearRunning hstop =>
    cases hs
    exact h.quiet hi rfl rfl rfl (fun _ _ => Iff.rfl) fun hne => absurd ha hne
  | notifyAll hstop | join hstop hfin =>
    cases hs
    refine h.quiet hi rfl rfl rfl (fun _ _ => Iff.rfl) fun hne => ?_
    have hend := h.ending
    generalize s.stopping = o at hend hne
    cases hend with
    | notCalled hpl _ _ => rw [hpl] at hstop; cases hstop
    | pending _ hpl => rw [hpl] at hstop; cases hstop
    | taken hpl => rw [hpl] at hstop; cases hstop
    | stoppingPool => exact absurd rfl hne

/-- A task that is in front of task() finds a statement. -/
private theorem Inv.sql_cons (h : Inv s) (hw : s.threadPool.worker w = .running .runInThread) (hj : s.job w = .idle) :
    ∃ strSql rest, s.sqlQueue = strSql :: rest ∧ strSql ≠ "" ∧ "" ∉ rest := by
  have hle := Multiset.card_le_card (le_held (g := opening) (f := s.places) (h.lt_threads hw))
  have hone : opening (s.places w) = {()} := if_pos (by simp [State.places,hw,hj])
  rw [hone,Multiset.card_singleton] at hle
  have htok := h.tokens
  cases hq : s.sqlQueue with
  | nil =>
    rw [hq,List.length_nil] at htok
    omega
  | cons strSql rest =>
    have hne := h.nonempty
    rw [hq,List.mem_cons,not_or] at hne
    exact ⟨strSql,rest,rfl,Ne.symm hne.1,hne.2⟩

/-- A worker that holds no connection leaves one for itself. -/
private theorem Inv.conns_cons {strSql : String} (h : Inv s) (hj : s.job w = .gotSql strSql) :
    ∃ pDBConn rest, s.conns = pDBConn :: rest := by
  have hw := h.running_of_job (w := w) (by simp [hj]) (by simp [hj])
  have hlt := h.lt_threads hw
  have hcard := congrArg Multiset.card h.conns
  have hless := card_held_lt (g := Job.conn) (f := s.job) hlt (by rw [hj]; rfl) fun j => by cases j <;> simp [Job.conn]
  cases hq : s.conns with
  | nil =>
    rw [hq,Multiset.card_add,Multiset.card_range] at hcard
    simp only [Multiset.coe_nil,Multiset.card_zero] at hcard
    omega
  | cons pDBConn rest => exact ⟨pDBConn,rest,rfl⟩

theorem inv_step {a : Label} (h : Inv s) (hs : step s a = .ok t) : Inv t := by
  cases a with
  | init nPoolSize =>
    simp only [step,State.init,bind_ok_iff,ensure_ok_iff] at hs
    obtain ⟨-,hstop,-,-,hs⟩ := hs
    split at hs
    · cases hs
      exact h
    · simp only [bind_ok_iff,Except.ok.injEq] at hs
      obtain ⟨p,hp,rfl⟩ := hs
      exact h.started hstop hp
  | executeSql pStrSql =>
    cases pStrSql with
    | none =>
      cases hs
      exact h
    | some strSql =>
      simp only [step,bind_ok_iff,ensure_ok_iff,Except.ok.injEq] at hs
      obtain ⟨-,⟨hne,hrun,hstop⟩,rfl⟩ := hs
      refine ⟨h.pool,h.jobs,?_,?_,?_,h.conns,?_,fun hzero => ?_⟩
      · have hmove : ∀ a b c : Nat, a + b + c + 1 = a + 1 + b + c := fun a b c => by omega
        rw [List.length_append,List.length_singleton,h.tokens]
        exact hmove ..
      · simp only [← Multiset.coe_add]
        rw [h.statements,add_assoc]
      · simp [h.nonempty,Ne.symm hne]
      · have hend := h.ending
        rw [hstop] at hend
        simp only [hstop]
        cases hend with
        | notCalled hp hq hw => exact .notCalled hp hq hw
      · rw [(h.opened hzero).2] at hrun
        cases hrun
  | run =>
    simp only [step,bind_ok_iff,ensure_ok_iff,Except.ok.injEq] at hs
    obtain ⟨-,hcalls,rfl⟩ := hs
    exact h.ran hcalls
  | pool a =>
    simp only [step,bind_ok_iff,ensure_ok_iff] at hs
    obtain ⟨-,ha,hs⟩ := hs
    exact inv_pool h ha hs
  | popSql w =>
    simp only [step,State.popSql,bind_ok_iff,ensure_ok_iff,Except.ok.injEq] at hs
    obtain ⟨-,⟨hw,hj⟩,-,-,rfl⟩ := hs
    obtain ⟨strSql,rest,hq,-,hne⟩ := h.sql_cons hw hj
    refine h.setJob _ s.conns s.executed s.latch hw (by simp) (.inl rfl) ?_ ?_ ?_ ?_ (.inl rfl)
    · simp [opening,State.places,hw,hj,hq]
    · simp [Job.sql,hj,hq,← Multiset.cons_coe,← Multiset.singleton_add,add_assoc]
    · simpa [hq] using hne
    · simp [Job.conn,hj]
  | popConn w =>
    simp only [step] at hs
    split at hs
    · rename_i strSql hj
      obtain ⟨pDBConn,rest,hq⟩ := h.conns_cons hj
      simp only [State.popConn,hq,bind_ok_iff,ensure_ok_iff,Except.ok.injEq] at hs
      obtain ⟨-,-,rfl⟩ := hs
      have hw := h.running_of_job (w := w) (by simp [hj]) (by simp [hj])
      refine h.setJob s.sqlQueue _ s.executed s.latch hw (by simp) (.inl rfl) ?_ ?_ h.nonempty ?_ (.inl rfl)
      · simp [opening,State.places,hj]
      · simp [Job.sql,hj]
      · simp [Job.conn,hj,hq,← Multiset.cons_coe,← Multiset.singleton_add,add_comm]
    · cases hs
  | executeSqlReturns w =>
    simp only [step] at hs
    split at hs
    · rename_i strSql pDBConn hj
      cases hs
      have hw := h.running_of_job (w := w) (by simp [hj]) (by simp [hj])
      refine h.setJob s.sqlQueue s.conns _ s.latch hw (by simp) (.inl rfl) ?_ ?_ h.nonempty ?_ (.inl rfl)
      · simp [opening,State.places,hj]
      · simp [Job.sql,hj,← Multiset.coe_add]
      · simp [Job.conn,hj]
    · cases hs
  | pushConn w =>
    simp only [step] at hs
    split at hs
    · rename_i pDBConn hj
      cases hs
      have hw := h.running_of_job (w := w) (by simp [hj]) (by simp [hj])
      refine h.setJob s.sqlQueue _ s.executed s.latch hw (by simp) (.inl rfl) ?_ ?_ h.nonempty ?_ (.inl rfl)
      · simp [opening,State.places,hj]
      · simp [Job.sql,hj]
      · simp [Job.conn,hj,← Multiset.coe_add]
    · cases hs
  | countDown w =>
    simp only [step,bind_ok_iff,ensure_ok_iff,Except.ok.injEq] at hs
    obtain ⟨-,⟨hw,hj⟩,rfl⟩ := hs
    refine h.setJob s.sqlQueue s.conns s.executed _ hw (by simp) (.inr rfl) ?_ ?_ h.nonempty ?_ (.inr rfl)
    · simp [opening,State.places,hw]
    · simp [Job.sql,hj]
    · simp [Job.conn,hj]
  | stop =>
    simp only [step,bind_ok_iff,ensure_ok_iff,Except.ok.injEq] at hs
    obtain ⟨-,⟨hstop,hrun,hcalls,hpool⟩,rfl⟩ := hs
    exact h.stopped hstop hrun hcalls hpool
  | latchReturns =>
    simp only [step,bind_ok_iff,ensure_ok_iff,Except.ok.injEq] at hs
    obtain ⟨-,⟨hstop,hlatch⟩,rfl⟩ := hs
    refine ⟨h.pool,h.jobs,h.tokens,h.statements,h.nonempty,h.conns,?_,h.opened⟩
    have hend := h.ending
    rw [hstop] at hend
    cases hend with
    | pending _ _ _ _ _ _ _ hone => rw [hlatch] at hone; cases hone
    | taken _ hc hq hr => exact .stoppingPool hc hq hr

theorem inv_reachable (h : machine.Reachable s) : Inv s := by
  refine h.invariant (P := Inv) (fun s hs => ?_) (fun s a t hi hs => inv_step hi hs)
  rw [show s = initial from hs]
  exact inv_initial

/-- A worker in runInThread finds a statement and a connection. -/
theorem Inv.assertions_hold (hi : Inv s) (w : Nat) (text : String) :
    step s (.popSql w) ≠ .error (.assertion text) ∧ step s (.popConn w) ≠ .error (.assertion text) := by
  refine ⟨fun ha => ?_,fun ha => ?_⟩
  · simp only [step,State.popSql,bind_error_iff,ensure_error_iff,ensure_ok_iff] at ha
    obtain ⟨-,ha⟩ | ⟨_,⟨hw,hj⟩,⟨hempty,-⟩ | ⟨_,-,ha⟩⟩ := ha
    · cases ha
    · obtain ⟨strSql,rest,hq,hsql,-⟩ := hi.sql_cons hw hj
      rw [hq] at hempty
      exact hempty hsql
    · cases ha
  · simp only [step] at ha
    split at ha
    · rename_i strSql hj
      obtain ⟨pDBConn,rest,hq⟩ := hi.conns_cons hj
      simp [State.popConn,hq] at ha
    · cases ha

/-- No two workers hold one connection. -/
theorem Inv.conn_disjoint {v w : Nat} {c : Conn} (hi : Inv s) (hne : v ≠ w) (hv : c ∈ (s.job v).conn) : c ∉ (s.job w).conn := by
  intro hw
  have hlt : ∀ u, c ∈ (s.job u).conn → u < s.threadPool.threads := by
    intro u hu
    have hbusy : s.job u ≠ .idle := fun hidle => by
      rw [hidle] at hu
      exact Multiset.notMem_zero c hu
    obtain hr | ⟨hr,-⟩ := hi.jobs u hbusy <;> exact hi.lt_threads hr
  have hnodup : (held s.threadPool.threads Job.conn s.job).Nodup := by
    have hle : held s.threadPool.threads Job.conn s.job ≤ Multiset.range s.threadPool.threads := by
      rw [← hi.conns]
      exact Multiset.le_add_left _ _
    exact Multiset.nodup_of_le hle (Multiset.nodup_range _)
  exact held_disjoint hnodup (hlt v hv) (hlt w hw) hne hv hw

/-- Behind the latch nothing is queued any more. -/
private theorem Inv.closed (hi : Inv s) (hstop : s.threadPool.stopping = .returned) :
    s.calls = 0 ∧ s.threadPool.queue = [] ∧ s.threadPool.calls = [] := by
  have hend := hi.ending
  generalize s.stopping = o at hend
  cases hend with
  | notCalled hp _ _ => rw [hp] at hstop; cases hstop
  | pending _ hp => rw [hp] at hstop; cases hstop
  | taken hp => rw [hp] at hstop; cases hstop
  | stoppingPool hc hq hr => exact ⟨hc,hq,hr⟩

/-- When Stop has returned, the workers hold nothing. -/
theorem Inv.all_done (hi : Inv s) (hstop : s.threadPool.stopping = .returned) :
    (s.passed : Multiset String) = (s.executed.map Prod.fst : List String) ∧
      (s.conns : Multiset Conn) = Multiset.range s.threadPool.threads := by
  have hfinished := hi.pool.joined hstop
  have hidle : ∀ w < s.threadPool.threads, s.job w = .idle := by
    intro w hw
    apply hi.idle
    intro task hr
    rw [hfinished w hw] at hr
    cases hr
  have hopening : held s.threadPool.threads opening s.places = 0 := by
    apply held_eq_zero
    intro w hw
    exact if_neg (by simp [State.places,hfinished w hw])
  have hsql : held s.threadPool.threads Job.sql s.job = 0 := held_eq_zero fun w hw => by rw [hidle w hw]; rfl
  have hconn : held s.threadPool.threads Job.conn s.job = 0 := held_eq_zero fun w hw => by rw [hidle w hw]; rfl
  obtain ⟨hcalls,hqueue,hrun⟩ := hi.closed hstop
  have htok := hi.tokens
  rw [hcalls,hqueue,hrun,hopening] at htok
  have hst := hi.statements
  have hc := hi.conns
  rw [List.length_eq_zero_iff.mp htok,hsql,Multiset.coe_nil,add_zero,add_zero] at hst
  rw [hconn,add_zero] at hc
  exact ⟨hst,hc⟩

/-- In every run: the assertions of runInThread hold; no two workers use one connection;
and when Stop has returned every statement has been executed, exactly as often as it
was passed, and all connections are back. -/
theorem statements_run_once (h : machine.Reachable s) :
    (∀ w text, step s (.popSql w) ≠ .error (.assertion text) ∧ step s (.popConn w) ≠ .error (.assertion text)) ∧
    (∀ v w c, v ≠ w → c ∈ (s.job v).conn → c ∉ (s.job w).conn) ∧
    (s.threadPool.stopping = .returned → (s.passed : Multiset String) = (s.executed.map Prod.fst : List String) ∧
      (s.conns : Multiset Conn) = Multiset.range s.threadPool.threads) := by
  have hi := inv_reachable h
  exact ⟨hi.assertions_hold,fun _ _ _ => hi.conn_disjoint,hi.all_done⟩

/-- Two workers run three statements at the same time, and Stop returns behind them. -/
theorem statements_run_once_three : ∃ s, machine.Reachable s ∧ s.threadPool.stopping = .returned ∧
    s.passed = ["A","B","A"] ∧ (s.passed : Multiset String) = (s.executed.map Prod.fst : List String) := by
  let labels : List Label := [.init 2,.executeSql (some "A"),.executeSql (some "B"),.run,.run,.pool (.push .runInThread none),
    .pool (.push .runInThread none),.pool (.testRunning 0),.pool (.lock 0),.pool (.test 0),.pool (.take 0),
    .pool (.testRunning 1),.pool (.lock 1),.pool (.test 1),.pool (.take 1),.popSql 1,.popSql 0,.popConn 0,.popConn 1,
    .executeSqlReturns 1,.pushConn 1,.pool (.endTask 1),.executeSql (some "A"),.run,.pool (.push .runInThread none),.stop,
    .pool (.push .countDown none),.pool (.testRunning 1),.pool (.lock 1),.pool (.test 1),.pool (.take 1),.popSql 1,
    .executeSqlReturns 0,.pushConn 0,.pool (.endTask 0),.pool (.testRunning 0),.pool (.lock 0),.pool (.test 0),
    .pool (.take 0),.countDown 0,.latchReturns,.pool .clearRunning,.pool .notifyAll,.pool (.endTask 0),
    .pool (.testRunning 0),.popConn 1,.executeSqlReturns 1,.pushConn 1,.pool (.endTask 1),.pool (.testRunning 1),.pool .join]
  obtain ⟨s,hr,hv⟩ := machine.exists_reachable rfl labels
    (fun s => (s.threadPool.stopping,s.passed)) (b := (.returned,["A","B","A"])) (by decide +kernel)
  simp only [Prod.mk.injEq] at hv
  exact ⟨s,hr,hv.1,hv.2,((statements_run_once hr).2.2 hv.1).1⟩

end DBConnectionPool
end LinuxServer.Db
