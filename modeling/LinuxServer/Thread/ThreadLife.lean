import LinuxServer.Lib.Machine

/-! A Thread object and the thread that it starts. The object may be joined or destroyed at any
time; the thread writes its id through a weak pointer and frees what it was given. -/
namespace LinuxServer.Thread.ThreadLife
open LinuxServer.Lib

/-- An object on the heap. -/
inductive Memory (α : Type) where
  | unallocated
  | live (a : α)
  | freed
  deriving DecidableEq

namespace Memory
variable {α : Type}

def read : Memory α → Except Halt α
  | .live a => .ok a
  | _ => .error (.fatal "use of memory that is not allocated")

def write (m : Memory α) (a : α) : Except Halt (Memory α) := do
  let _ ← m.read
  .ok (.live a)

def free (m : Memory α) : Except Halt (Memory α) := do
  let _ ← m.read
  .ok .freed

end Memory

/-- Where the owner of the object is. -/
inductive Owner where
  | atRest
  /-- In Start, in front of pthread_create. -/
  | starting
  | joining
  | gone
  | aborted
  deriving DecidableEq

/-- Where the thread is in startThread and RunInThread. -/
inductive Pc where
  | absent
  | entered
  /-- It has the pointer to the id, and has not written it yet. -/
  | locked
  | wrote
  | ready
  | inFunc
  | returned
  | ended
  deriving DecidableEq

inductive Handle where
  | none
  | joinable
  | joined
  | detached
  deriving DecidableEq

structure State where
  bStarted : Bool
  bJoined : Bool
  owner : Owner
  pc : Pc
  /-- *m_tIdPtr, and whether the object's own pointer is still counted. -/
  tId : Memory Int
  ownerRef : Bool
  data : Memory Unit
  /-- What the kernel keeps of the thread. -/
  handle : Handle
  executed : Nat
  deriving DecidableEq

inductive Label where
  | start
  | pthreadCreate (created : Bool)
  | join
  | joinReturns
  | destroy
  /-- wkTidPtr.lock(). -/
  | lock
  | write
  | reset
  | call
  | funcReturns
  | delete
  deriving DecidableEq

/-- The thread's own steps. -/
def threadSteps : List Label := [.lock,.write,.reset,.call,.funcReturns,.delete]

/-- The thread has a pointer to the id as well. -/
def Pc.holds : Pc → Bool
  | .locked | .wrote => true
  | _ => false

/-- The last pointer frees the id. -/
def release (tId : Memory Int) (others : Bool) : Except Halt (Memory Int) := if others then .ok tId else tId.free

variable (tid : Int)

def step (s : State) : Label → Except Halt State
  | .start => do
    ensure .notEnabled (s.owner = .atRest)
    ensure (.assertion "!m_bStarted") (s.bStarted = false)
    .ok { s with bStarted := true, data := .live (), owner := .starting }
  | .pthreadCreate created => do
    ensure .notEnabled (s.owner = .starting)
    if created then .ok { s with pc := .entered, handle := .joinable, owner := .atRest }
    else do
      let data ← s.data.free
      .ok { s with bStarted := false, data := data, owner := .aborted }
  | .join => do
    ensure .notEnabled (s.owner = .atRest)
    ensure (.assertion "m_bStarted") (s.bStarted = true)
    ensure (.assertion "!m_bJoined") (s.bJoined = false)
    .ok { s with bJoined := true, owner := .joining }
  | .joinReturns => do
    ensure .notEnabled (s.owner = .joining ∧ s.pc = .ended)
    ensure (.fatal "pthread_join") (s.handle = .joinable)
    .ok { s with handle := .joined, owner := .atRest }
  | .destroy => do
    ensure .notEnabled (s.owner = .atRest)
    if s.bStarted = true ∧ s.bJoined = false then do
      ensure (.fatal "pthread_detach") (s.handle = .joinable)
      let tId ← release s.tId s.pc.holds
      .ok { s with handle := .detached, tId := tId, ownerRef := false, owner := .gone }
    else do
      let tId ← release s.tId s.pc.holds
      .ok { s with tId := tId, ownerRef := false, owner := .gone }
  | .lock => do
    ensure .notEnabled (s.pc = .entered)
    let _ ← s.data.read
    .ok { s with pc := if s.ownerRef then .locked else .ready }
  | .write => do
    ensure .notEnabled (s.pc = .locked)
    let tId ← s.tId.write tid
    .ok { s with tId := tId, pc := .wrote }
  | .reset => do
    ensure .notEnabled (s.pc = .wrote)
    let tId ← release s.tId s.ownerRef
    .ok { s with tId := tId, pc := .ready }
  | .call => do
    ensure .notEnabled (s.pc = .ready)
    let _ ← s.data.read
    .ok { s with pc := .inFunc, executed := s.executed + 1 }
  | .funcReturns => do
    ensure .notEnabled (s.pc = .inFunc)
    .ok { s with pc := .returned }
  | .delete => do
    ensure .notEnabled (s.pc = .returned)
    let data ← s.data.free
    .ok { s with data := data, pc := .ended }

def initial : State := ⟨false,false,.atRest,.absent,.live 0,true,.unallocated,.none,0⟩

def machine : Machine State Label Halt := ⟨fun s => s = initial,step tid⟩

/-! The protocol: how far the object's life is, and how far the thread's. -/

inductive Life where
  | fresh
  | starting
  | running
  | joining
  | joined
  /-- Destroyed: without a Start, without a Join, and after one. -/
  | unused
  | detached
  | finished
  | aborted
  deriving DecidableEq

def Life.owner : Life → Owner
  | .fresh | .running | .joined => .atRest
  | .starting => .starting
  | .joining => .joining
  | .unused | .detached | .finished => .gone
  | .aborted => .aborted

def Life.bStarted : Life → Bool
  | .fresh | .unused | .aborted => false
  | _ => true

def Life.bJoined : Life → Bool
  | .joining | .joined | .finished => true
  | _ => false

def Life.handle : Life → Handle
  | .fresh | .starting | .unused | .aborted => .none
  | .running | .joining => .joinable
  | .joined | .finished => .joined
  | .detached => .detached

/-- There is a thread from pthread_create on, and a joined one has ended. -/
def Life.goesWith : Life → Pc → Bool
  | .fresh, p | .starting, p | .unused, p | .aborted, p => p = .absent
  | .running, p | .joining, p | .detached, p => p ≠ .absent
  | .joined, p | .finished, p => p = .ended

/-- Whether the thread is past the assignment of its id, or had no pointer for it. -/
def Pc.told : Pc → Bool
  | .absent | .entered | .locked => false
  | _ => true

def tIdOf (o : Life) (p : Pc) : Memory Int :=
  if o.owner = .gone ∧ p.holds = false then .freed else .live (if p.told then tid else 0)

def dataOf : Life → Pc → Memory Unit
  | .starting, _ => .live ()
  | .aborted, _ => .freed
  | _, .absent => .unallocated
  | _, .ended => .freed
  | _, _ => .live ()

def executedOf : Pc → Nat
  | .inFunc | .returned | .ended => 1
  | _ => 0

/-- What the fields are then. -/
def view (o : Life) (p : Pc) : State :=
  ⟨o.bStarted,o.bJoined,o.owner,p,tIdOf tid o p,o.owner ≠ .gone,dataOf o p,o.handle,executedOf p⟩

/-- The protocol's steps. -/
def next : Label → Life → Pc → Option (Life × Pc)
  | .start, .fresh, p => some (.starting,p)
  | .pthreadCreate true, .starting, _ => some (.running,.entered)
  | .pthreadCreate false, .starting, p => some (.aborted,p)
  | .join, .running, p => some (.joining,p)
  | .joinReturns, .joining, .ended => some (.joined,.ended)
  | .destroy, .fresh, p => some (.unused,p)
  | .destroy, .running, p => some (.detached,p)
  | .destroy, .joined, p => some (.finished,p)
  | .lock, o, .entered => some (o,if o.owner = .gone then .ready else .locked)
  | .write, o, .locked => some (o,.wrote)
  | .reset, o, .wrote => some (o,.ready)
  | .call, o, .ready => some (o,.inFunc)
  | .funcReturns, o, .inFunc => some (o,.returned)
  | .delete, o, .returned => some (o,.ended)
  | _, _, _ => none

/-- The owner calls Start twice, Join without it, or Join twice. -/
def Misused (e : Halt) : Prop :=
  e = .assertion "!m_bStarted" ∨ e = .assertion "m_bStarted" ∨ e = .assertion "!m_bJoined"

/-- A step of the fields is the protocol's, and is refused where it has none. -/
def Follows (o : Life) (p : Pc) (a : Label) : Prop :=
  match next a o p with
  | some q => step tid (view tid o p) a = .ok (view tid q.1 q.2) ∧ q.1.goesWith q.2 = true
  | none => ∃ e, step tid (view tid o p) a = .error e ∧ (e = .notEnabled ∨ Misused e)

variable {tid} {o : Life} {p : Pc} {s t : State}

private theorem owner_follows (h : o.goesWith p = true) {a : Label} (ha : a ∉ threadSteps) : Follows tid o p a := by
  cases a with
  | start => cases o <;> first | exact ⟨rfl,h⟩ | exact ⟨_,rfl,.inl rfl⟩ | exact ⟨_,rfl,.inr (.inl rfl)⟩
  | pthreadCreate created =>
    cases o with
    | starting =>
      obtain rfl : p = .absent := of_decide_eq_true h
      cases created <;> exact ⟨rfl,rfl⟩
    | _ => cases created <;> exact ⟨_,rfl,.inl rfl⟩
  | join =>
    cases o with
    | running => cases p <;> exact ⟨rfl,h⟩
    | joined => exact ⟨_,rfl,.inr (.inr (.inr rfl))⟩
    | fresh => exact ⟨_,rfl,.inr (.inr (.inl rfl))⟩
    | _ => exact ⟨_,rfl,.inl rfl⟩
  | joinReturns =>
    cases o with
    | joining => cases p <;> first | exact ⟨rfl,rfl⟩ | exact ⟨_,rfl,.inl rfl⟩
    | _ => exact ⟨_,rfl,.inl rfl⟩
  | destroy =>
    cases o with
    | fresh =>
      obtain rfl : p = .absent := of_decide_eq_true h
      exact ⟨rfl,rfl⟩
    | running => cases p <;> exact ⟨rfl,h⟩
    | joined =>
      obtain rfl : p = .ended := of_decide_eq_true h
      exact ⟨rfl,rfl⟩
    | _ => exact ⟨_,rfl,.inl rfl⟩
  | _ => simp [threadSteps] at ha

/-- A thread that is neither absent nor ended runs beside an object that waits for it, or does
not, or is gone. -/
private theorem life_of_running (h : o.goesWith p = true) :
    p = .absent ∨ p = .ended ∨ o = .running ∨ o = .joining ∨ o = .detached := by
  cases o <;> simp_all [Life.goesWith]

private theorem thread_follows (h : o.goesWith p = true) {a : Label} (ha : a ∈ threadSteps) : Follows tid o p a := by
  simp only [threadSteps,List.mem_cons,List.not_mem_nil,or_false] at ha
  rcases life_of_running h with rfl | rfl | rfl | rfl | rfl
  · rcases ha with rfl | rfl | rfl | rfl | rfl | rfl <;> cases o <;> exact ⟨_,rfl,.inl rfl⟩
  · rcases ha with rfl | rfl | rfl | rfl | rfl | rfl <;> cases o <;> exact ⟨_,rfl,.inl rfl⟩
  all_goals
    rcases ha with rfl | rfl | rfl | rfl | rfl | rfl <;> cases p <;> first | exact ⟨rfl,rfl⟩ | exact ⟨_,rfl,.inl rfl⟩

theorem Follows.ok {a : Label} (h : Follows tid o p a) (hs : step tid (view tid o p) a = .ok t) :
    ∃ o p, o.goesWith p = true ∧ t = view tid o p := by
  rw [Follows] at h
  split at h
  · rename_i q _
    cases hs.symm.trans h.1
    exact ⟨q.1,q.2,h.2,rfl⟩
  · obtain ⟨e,he,-⟩ := h
    cases hs.symm.trans he

theorem Follows.refused {a : Label} {e : Halt} (h : Follows tid o p a) (hs : step tid (view tid o p) a = .error e) :
    e = .notEnabled ∨ Misused e := by
  rw [Follows] at h
  split at h
  · cases hs.symm.trans h.1
  · obtain ⟨e',he,hrefused⟩ := h
    cases hs.symm.trans he
    exact hrefused

theorem executedOf_le (p : Pc) : executedOf p ≤ 1 := by cases p <;> decide

theorem follows (h : o.goesWith p = true) (a : Label) : Follows tid o p a := by
  by_cases ha : a ∈ threadSteps
  · exact thread_follows h ha
  · exact owner_follows h ha

/-- In every run the fields are those of a life and a thread that go together. -/
theorem view_reachable (h : (machine tid).Reachable s) : ∃ o p, o.goesWith p = true ∧ s = view tid o p := by
  refine h.invariant (P := fun s => ∃ o p, o.goesWith p = true ∧ s = view tid o p) ?_ ?_
  · rintro s rfl
    exact ⟨.fresh,.absent,rfl,rfl⟩
  · rintro s a t ⟨o,p,h,rfl⟩ hs
    exact (follows h a).ok hs

/-- Whenever the object is joined or destroyed: nothing is used or freed when it is not
allocated, and the thread is joined or detached at most once; when both are gone, nothing is
left of the id, the data and the thread; after Join the function has run, once, and the id
is known; and a Join returns when the thread has made the steps it has left. -/
theorem life_is_clean (h : (machine tid).Reachable s) :
    (∀ a e, step tid s a = .error e → e = .notEnabled ∨ Misused e) ∧
    (s.owner = .gone → s.pc = .absent ∨ s.pc = .ended → s.tId = .freed ∧ s.data ≠ .live () ∧ s.handle ≠ .joinable) ∧
    (s.handle = .joined → s.executed = 1 ∧ s.data = .freed ∧ (s.owner ≠ .gone → s.tId = .live tid)) ∧
    s.executed ≤ 1 ∧
    (s.owner = .joining → ∃ n t, (machine tid).run s (threadSteps.drop n ++ [.joinReturns]) = .ok t) := by
  obtain ⟨o,p,hgoes,rfl⟩ := view_reachable h
  refine ⟨fun a e he => (follows hgoes a).refused he,fun hgone hend => ?_,fun hjoined => ?_,executedOf_le p,fun hjoining => ?_⟩
  · have hp : p = .absent ∨ p = .ended := hend
    have hlife : o.owner = .gone := hgone
    have hheld : p.holds = false := by rcases hp with rfl | rfl <;> rfl
    have hdata : dataOf o p ≠ .live () := by
      rcases hp with rfl | rfl <;> cases o <;> first | decide | cases hlife
    have hhandle : o.handle ≠ .joinable := by
      cases o <;> first | decide | cases hlife
    exact ⟨if_pos ⟨hlife,hheld⟩,hdata,hhandle⟩
  · cases o with
    | joined =>
      obtain rfl : p = .ended := of_decide_eq_true hgoes
      exact ⟨rfl,rfl,fun _ => rfl⟩
    | finished =>
      obtain rfl : p = .ended := of_decide_eq_true hgoes
      exact ⟨rfl,rfl,fun hne => absurd rfl hne⟩
    | _ => cases hjoined
  · cases o with
    | joining =>
      cases p with
      | absent => cases hgoes
      | entered => exact ⟨0,_,rfl⟩
      | locked => exact ⟨1,_,rfl⟩
      | wrote => exact ⟨2,_,rfl⟩
      | ready => exact ⟨3,_,rfl⟩
      | inFunc => exact ⟨4,_,rfl⟩
      | returned => exact ⟨5,_,rfl⟩
      | ended => exact ⟨6,_,rfl⟩
    | _ => cases hjoining

/-- The object is destroyed while the thread has the pointer to the id, which it then writes
and frees. -/
theorem life_is_clean_detached : ∃ s, (machine 7).Reachable s ∧ s.tId = .freed ∧ s.data = .freed ∧ s.handle = .detached := by
  obtain ⟨s,hr,hv⟩ := (machine 7).exists_reachable rfl
    [.start,.pthreadCreate true,.lock,.destroy,.write,.reset,.call,.funcReturns,.delete]
    (fun s => (s.owner,s.pc,s.data,s.handle)) (b := (.gone,.ended,.freed,.detached)) (by decide)
  simp only [Prod.mk.injEq] at hv
  obtain ⟨howner,hpc,hdata,hhandle⟩ := hv
  exact ⟨s,hr,((life_is_clean hr).2.1 howner (.inr hpc)).1,hdata,hhandle⟩

end LinuxServer.Thread.ThreadLife
