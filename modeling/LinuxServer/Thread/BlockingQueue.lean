import LinuxServer.Lib.Condition

/-! BlockingQueue and BoundedBlockingQueue: the same monitor over a deque and over a
circular buffer, with the critical sections of any threads in any order. -/
namespace LinuxServer.Thread
open LinuxServer.Lib

abbrev Tid := Nat

/-- std::deque, without a capacity, or boost::circular_buffer, with one. -/
structure Container (T : Type) where
  capacity : Option Nat
  items : List T
  fits : ∀ n ∈ capacity, items.length ≤ n

namespace Container
variable {T : Type}

def empty (q : Container T) : Bool := q.items.isEmpty

/-- A deque has no such test: it is never full. -/
def full (q : Container T) : Bool := q.capacity = some q.items.length

/-- A circular buffer keeps the last elements and overwrites what is before them. -/
def pushBack (q : Container T) (t : T) : Container T where
  capacity := q.capacity
  items := match q.capacity with
    | none => q.items ++ [t]
    | some n => (q.items ++ [t]).drop (q.items.length + 1 - n)
  fits := by
    intro n hn
    rw [Option.mem_def] at hn
    rw [hn]
    simp only [List.length_drop,List.length_append,List.length_singleton]
    omega

def popFront (q : Container T) : Container T where
  capacity := q.capacity
  items := q.items.tail
  fits := by
    intro n hn
    rw [List.length_tail]
    exact (Nat.sub_le ..).trans (q.fits n hn)

def deque : Container T := ⟨none,[],fun _ h => by cases h⟩

def circularBuffer (nMaxSize : Nat) : Container T := ⟨some nMaxSize,[],fun _ _ => Nat.zero_le _⟩

@[simp] theorem pushBack_capacity (q : Container T) (t : T) : (q.pushBack t).capacity = q.capacity := rfl
@[simp] theorem popFront_capacity (q : Container T) : q.popFront.capacity = q.capacity := rfl
@[simp] theorem popFront_items (q : Container T) : q.popFront.items = q.items.tail := rfl

theorem pushBack_items {q : Container T} (h : q.full = false) (t : T) : (q.pushBack t).items = q.items ++ [t] := by
  cases hc : q.capacity with
  | none => simp only [pushBack,hc]
  | some n =>
    have hle := q.fits n hc
    have hne : n ≠ q.items.length := by
      intro heq
      simp [full,hc,heq] at h
    have hdrop : q.items.length + 1 - n = 0 := by omega
    simp only [pushBack,hc,hdrop,List.drop_zero]

theorem length_of_full {q : Container T} (h : q.full = true) : q.capacity = some q.items.length := by
  simpa [full] using h

end Container

/-- Where a thread is: outside, or in Put or Take and inside Wait. -/
inductive QueuePc (T : Type) where
  | idle
  | putting (t : T)
  | taking

instance {T : Type} : (p : QueuePc T) → Decidable (p = .idle)
  | .idle => isTrue rfl
  | .putting _ | .taking => isFalse fun h => by cases h

/-- The values put and taken, in the order of the critical sections, are recorded
for the statements only. -/
structure Queue (T : Type) where
  notEmptyCond : Condition Tid
  notFullCond : Condition Tid
  queue : Container T
  pc : Tid → QueuePc T
  puts : List T
  takes : List T

/-- The critical sections. The last argument of those that reach a Notify is the
thread it wakes. -/
inductive QueueLabel (T : Type) where
  | put (tid : Tid) (t : T) (woken : Option Tid)
  | take (tid : Tid) (woken : Option Tid)
  /-- A woken thread takes the mutex and goes on in its loop. -/
  | resume (tid : Tid) (woken : Option Tid)
  | wakeSpuriously (tid : Tid)

namespace Queue
variable {T : Type}

/-- Put, from the test of its loop. -/
def put (q : Queue T) (tid : Tid) (t : T) (woken : Option Tid) : Except Halt (Queue T) :=
  if q.queue.full then .ok { q with
    notFullCond := q.notFullCond.wait tid
    pc := Function.update q.pc tid (.putting t) }
  else do
    ensure (.assertion "!m_Queue.full()") (q.queue.full = false)
    ensure .notEnabled (q.notEmptyCond.CanNotify woken)
    .ok { q with
      queue := q.queue.pushBack t
      notEmptyCond := q.notEmptyCond.notify woken
      pc := Function.update q.pc tid .idle
      puts := q.puts ++ [t] }

/-- Take, from the test of its loop, with what it returns if it does. The deque's Take
has no m_NoeFullCond, for which nobody waits there. -/
def take (q : Queue T) (tid : Tid) (woken : Option Tid) : Except Halt (Queue T × Option T) :=
  if q.queue.empty then .ok ({ q with
    notEmptyCond := q.notEmptyCond.wait tid
    pc := Function.update q.pc tid .taking },none)
  else do
    ensure (.assertion "!m_Queue.empty()") (q.queue.empty = false)
    match q.queue.items with
    | [] => .error .outOfBounds
    | front :: _ => do
      ensure .notEnabled (q.notFullCond.CanNotify woken)
      .ok ({ q with
        queue := q.queue.popFront
        notFullCond := q.notFullCond.notify woken
        pc := Function.update q.pc tid .idle
        takes := q.takes ++ [front] },some front)

def advance (q : Queue T) : QueueLabel T → Except Halt (Queue T × Option T)
  | .put tid t woken =>
    match q.pc tid with
    | .idle => (q.put tid t woken).map fun q' => (q',none)
    | _ => .error .notEnabled
  | .take tid woken =>
    match q.pc tid with
    | .idle => q.take tid woken
    | _ => .error .notEnabled
  | .resume tid woken =>
    match q.pc tid with
    | .idle => .error .notEnabled
    | .putting t => do
      ensure .notEnabled (tid ∈ q.notFullCond.woken)
      (put { q with notFullCond := q.notFullCond.resume tid } tid t woken).map fun q' => (q',none)
    | .taking => do
      ensure .notEnabled (tid ∈ q.notEmptyCond.woken)
      take { q with notEmptyCond := q.notEmptyCond.resume tid } tid woken
  | .wakeSpuriously tid => do
    ensure .notEnabled (tid ∈ q.notFullCond.waiting ∨ tid ∈ q.notEmptyCond.waiting)
    .ok ({ q with notFullCond := q.notFullCond.wake tid, notEmptyCond := q.notEmptyCond.wake tid },none)

def step (q : Queue T) (a : QueueLabel T) : Except Halt (Queue T) := (q.advance a).map Prod.fst

def initial (c : Container T) : Queue T := ⟨.idle,.idle,c,fun _ => .idle,[],[]⟩

end Queue

def BlockingQueue.machine (T : Type) : Machine (Queue T) (QueueLabel T) Halt :=
  ⟨fun q => q = .initial .deque,Queue.step⟩

def BoundedBlockingQueue.machine (T : Type) (nMaxSize : Nat) : Machine (Queue T) (QueueLabel T) Halt :=
  ⟨fun q => q = .initial (.circularBuffer nMaxSize),Queue.step⟩

namespace Queue
variable {T : Type} {q r : Queue T} {tid : Tid} {t : T} {woken : Option Tid}

/-- What holds between any two critical sections. -/
structure Inv (q : Queue T) : Prop where
  fifo : q.takes ++ q.queue.items = q.puts
  putting : ∀ u, (∃ t, q.pc u = .putting t) ↔ q.notFullCond.Inside u
  taking : ∀ u, q.pc u = .taking ↔ q.notEmptyCond.Inside u
  /-- Every item has a woken consumer on its way, and every free slot a producer,
  as long as another one sleeps. -/
  items : q.notEmptyCond.Covers q.queue.items.length
  slots : ∀ n, q.queue.capacity = some n → q.notFullCond.Covers (n - q.queue.items.length)
  unbounded : q.queue.capacity = none → q.notFullCond = .idle

/-- The same for a thread about to test its loop, which took one slot or one item
away from the count when it was woken for it. -/
structure Entering (q : Queue T) (tid : Tid) (item slot : Nat) : Prop where
  fifo : q.takes ++ q.queue.items = q.puts
  putting : ∀ u, u ≠ tid → ((∃ t, q.pc u = .putting t) ↔ q.notFullCond.Inside u)
  taking : ∀ u, u ≠ tid → (q.pc u = .taking ↔ q.notEmptyCond.Inside u)
  outside : ¬ q.notFullCond.Inside tid ∧ ¬ q.notEmptyCond.Inside tid
  items : q.notEmptyCond.Covers (q.queue.items.length - item)
  slots : ∀ n, q.queue.capacity = some n → q.notFullCond.Covers (n - q.queue.items.length - slot)
  unbounded : q.queue.capacity = none → q.notFullCond = .idle

theorem inv_initial {c : Container T} (h : c.items = []) : Inv (initial c) := by
  refine ⟨h,fun u => ?_,fun u => ?_,Condition.covers_idle,fun n _ => Condition.covers_idle,fun _ => rfl⟩
  · constructor
    · rintro ⟨_,hp⟩
      cases hp
    · intro hu
      exact absurd hu Condition.not_inside_idle
  · constructor
    · intro hp
      cases hp
    · intro hu
      exact absurd hu Condition.not_inside_idle

theorem Inv.entering (h : Inv q) (hp : q.pc tid = .idle) (item slot : Nat) : Entering q tid item slot := by
  refine ⟨h.fifo,fun u _ => h.putting u,fun u _ => h.taking u,⟨fun hu => ?_,fun hu => ?_⟩,
    h.items.mono (Nat.sub_le ..),fun n hn => (h.slots n hn).mono (Nat.sub_le ..),h.unbounded⟩
  · obtain ⟨_,hput⟩ := (h.putting tid).mpr hu
    rw [hp] at hput
    cases hput
  · have htake := (h.taking tid).mpr hu
    rw [hp] at htake
    cases htake

theorem Inv.resumePut (h : Inv q) (ht : tid ∈ q.notFullCond.woken) :
    Entering { q with notFullCond := q.notFullCond.resume tid } tid 0 1 := by
  have hin : q.notFullCond.Inside tid := .inr ht
  refine ⟨h.fifo,fun u hu => ?_,fun u _ => h.taking u,⟨fun hu => ?_,fun hu => ?_⟩,h.items,
    fun n hn => (h.slots n hn).resume ht,fun hn => ?_⟩
  · rw [h.putting u,Condition.inside_resume ht]
    exact (and_iff_right hu).symm
  · exact ((Condition.inside_resume ht).mp hu).1 rfl
  · obtain ⟨_,hput⟩ := (h.putting tid).mpr hin
    rw [(h.taking tid).mpr hu] at hput
    cases hput
  · rw [h.unbounded hn] at hin
    exact absurd hin Condition.not_inside_idle

theorem Inv.resumeTake (h : Inv q) (ht : tid ∈ q.notEmptyCond.woken) :
    Entering { q with notEmptyCond := q.notEmptyCond.resume tid } tid 1 0 := by
  have hin : q.notEmptyCond.Inside tid := .inr ht
  refine ⟨h.fifo,fun u _ => h.putting u,fun u hu => ?_,⟨fun hu => ?_,fun hu => ?_⟩,h.items.resume ht,
    h.slots,h.unbounded⟩
  · rw [h.taking u,Condition.inside_resume ht]
    exact (and_iff_right hu).symm
  · obtain ⟨_,hput⟩ := (h.putting tid).mpr hu
    rw [(h.taking tid).mpr hin] at hput
    cases hput
  · exact ((Condition.inside_resume ht).mp hu).1 rfl

/-- What Put does: it sleeps on a full buffer, or appends and signals. -/
theorem put_cases (h : q.put tid t woken = .ok r) :
    q.queue.full = true ∧ r = { q with
      notFullCond := q.notFullCond.wait tid, pc := Function.update q.pc tid (.putting t) } ∨
    q.queue.full = false ∧ q.notEmptyCond.CanNotify woken ∧ r = { q with
      queue := q.queue.pushBack t, notEmptyCond := q.notEmptyCond.notify woken
      pc := Function.update q.pc tid .idle, puts := q.puts ++ [t] } := by
  unfold put at h
  split at h
  · rename_i hfull
    cases h
    exact .inl ⟨hfull,rfl⟩
  · simp only [bind_ok_iff,ensure_ok_iff,Except.ok.injEq] at h
    obtain ⟨-,hfull,-,hn,rfl⟩ := h
    exact .inr ⟨hfull,hn,rfl⟩

/-- What Take does: it sleeps on an empty buffer, or removes the front and signals. -/
theorem take_cases {v : Option T} (h : q.take tid woken = .ok (r,v)) :
    q.queue.items = [] ∧ v = none ∧ r = { q with
      notEmptyCond := q.notEmptyCond.wait tid, pc := Function.update q.pc tid .taking } ∨
    ∃ front rest, q.queue.items = front :: rest ∧ v = some front ∧ q.notFullCond.CanNotify woken ∧ r = { q with
      queue := q.queue.popFront, notFullCond := q.notFullCond.notify woken
      pc := Function.update q.pc tid .idle, takes := q.takes ++ [front] } := by
  unfold take at h
  split at h
  · rename_i hempty
    cases h
    exact .inl ⟨List.isEmpty_iff.mp hempty,rfl,rfl⟩
  · simp only [bind_ok_iff,ensure_ok_iff] at h
    obtain ⟨-,-,h⟩ := h
    split at h
    · cases h
    · rename_i front rest hitems
      simp only [bind_ok_iff,ensure_ok_iff,Except.ok.injEq,Prod.mk.injEq] at h
      obtain ⟨-,hn,rfl,rfl⟩ := h
      exact .inr ⟨front,rest,hitems,rfl,hn,rfl⟩

theorem inv_put (h : Entering q tid 0 1) (hs : q.put tid t woken = .ok r) : Inv r := by
  obtain ⟨hfull,rfl⟩ | ⟨hfull,hn,rfl⟩ := put_cases hs
  · have hcap := Container.length_of_full hfull
    refine ⟨h.fifo,fun u => ?_,fun u => ?_,h.items,fun n hn => ?_,fun hn => ?_⟩
    · rw [Condition.inside_wait]
      by_cases hu : u = tid
      · simp [hu]
      · simpa [hu] using h.putting u hu
    · by_cases hu : u = tid
      · simp [hu,h.outside.2]
      · simpa [hu] using h.taking u hu
    · have hfit : n - q.queue.items.length = 0 := by
        cases hcap.symm.trans hn
        exact Nat.sub_self _
      rw [hfit]
      exact Condition.covers_wait
    · rw [hcap] at hn
      cases hn
  · have hitems := Container.pushBack_items hfull t
    refine ⟨?_,fun u => ?_,fun u => ?_,?_,fun n hc => ?_,h.unbounded⟩
    · rw [hitems,← List.append_assoc,h.fifo]
    · by_cases hu : u = tid
      · simp [hu,h.outside.1]
      · simpa [hu] using h.putting u hu
    · rw [Condition.inside_notify]
      by_cases hu : u = tid
      · simp [hu,h.outside.2]
      · simpa [hu] using h.taking u hu
    · rw [hitems,List.length_append,List.length_singleton]
      exact h.items.notify hn
    · rw [hitems,List.length_append,List.length_singleton,← Nat.sub_sub]
      exact h.slots n hc

theorem inv_take {v : Option T} (h : Entering q tid 1 0) (hs : q.take tid woken = .ok (r,v)) : Inv r := by
  obtain ⟨hempty,-,rfl⟩ | ⟨front,rest,hitems,-,hn,rfl⟩ := take_cases hs
  · refine ⟨h.fifo,fun u => ?_,fun u => ?_,?_,h.slots,h.unbounded⟩
    · by_cases hu : u = tid
      · simp [hu,h.outside.1]
      · simpa [hu] using h.putting u hu
    · rw [Condition.inside_wait]
      by_cases hu : u = tid
      · simp [hu]
      · simpa [hu] using h.taking u hu
    · rw [hempty]
      exact Condition.covers_wait
  · refine ⟨?_,fun u => ?_,fun u => ?_,?_,fun n hc => ?_,fun hc => ?_⟩
    · rw [← h.fifo,hitems,Container.popFront_items,hitems,List.append_assoc]
      rfl
    · rw [Condition.inside_notify]
      by_cases hu : u = tid
      · simp [hu,h.outside.1]
      · simpa [hu] using h.putting u hu
    · by_cases hu : u = tid
      · simp [hu,h.outside.2]
      · simpa [hu] using h.taking u hu
    · rw [Container.popFront_items,List.length_tail]
      exact h.items
    · have hfit := q.queue.fits n hc
      have hone : n - q.queue.popFront.items.length ≤ n - q.queue.items.length + 1 := by
        rw [Container.popFront_items,List.length_tail]
        omega
      exact ((h.slots n hc).notify hn).mono hone
    · have hidle := h.unbounded hc
      rw [hidle] at hn
      cases woken with
      | none => exact hidle
      | some u => exact absurd hn (Finset.notMem_empty u)

theorem Inv.wakeSpuriously (h : Inv q) :
    Inv { q with notFullCond := q.notFullCond.wake tid, notEmptyCond := q.notEmptyCond.wake tid } := by
  refine ⟨h.fifo,fun u => ?_,fun u => ?_,h.items.wake,fun n hn => (h.slots n hn).wake,fun hn => ?_⟩
  · rw [Condition.inside_wake]
    exact h.putting u
  · rw [Condition.inside_wake]
    exact h.taking u
  · rw [h.unbounded hn]
    rfl

/-- A thread comes to Put's loop from outside, or woken with the mutex again. -/
def EntersPut (q p : Queue T) (a : QueueLabel T) (tid : Tid) (t : T) : Prop :=
  (∃ woken, a = .put tid t woken) ∧ q.pc tid = .idle ∧ p = q ∨
    (∃ woken, a = .resume tid woken) ∧ q.pc tid = .putting t ∧ tid ∈ q.notFullCond.woken ∧
      p = { q with notFullCond := q.notFullCond.resume tid }

def EntersTake (q p : Queue T) (a : QueueLabel T) (tid : Tid) : Prop :=
  (∃ woken, a = .take tid woken) ∧ q.pc tid = .idle ∧ p = q ∨
    (∃ woken, a = .resume tid woken) ∧ q.pc tid = .taking ∧ tid ∈ q.notEmptyCond.woken ∧
      p = { q with notEmptyCond := q.notEmptyCond.resume tid }

/-- All that a step can be. -/
theorem advance_cases (q : Queue T) (a : QueueLabel T) : q.advance a = .error .notEnabled ∨
    (∃ p tid t woken, EntersPut q p a tid t ∧ q.advance a = (p.put tid t woken).map fun q' => (q',none)) ∨
    (∃ p tid woken, EntersTake q p a tid ∧ q.advance a = p.take tid woken) ∨
    ∃ tid, a = .wakeSpuriously tid ∧ q.advance a =
      .ok ({ q with notFullCond := q.notFullCond.wake tid, notEmptyCond := q.notEmptyCond.wake tid },none) := by
  cases a with
  | put tid t woken =>
    cases hp : q.pc tid with
    | idle => exact .inr (.inl ⟨q,tid,t,woken,.inl ⟨⟨woken,rfl⟩,hp,rfl⟩,by simp only [advance,hp]⟩)
    | putting _ | taking => exact .inl (by simp only [advance,hp])
  | take tid woken =>
    cases hp : q.pc tid with
    | idle => exact .inr (.inr (.inl ⟨q,tid,woken,.inl ⟨⟨woken,rfl⟩,hp,rfl⟩,by simp only [advance,hp]⟩))
    | putting _ | taking => exact .inl (by simp only [advance,hp])
  | resume tid woken =>
    cases hp : q.pc tid with
    | idle => exact .inl (by simp only [advance,hp])
    | putting t =>
      by_cases hw : tid ∈ q.notFullCond.woken
      · exact .inr (.inl ⟨_,tid,t,woken,.inr ⟨⟨woken,rfl⟩,hp,hw,rfl⟩,by simp only [advance,hp,ensure_of _ hw,ok_bind]⟩)
      · exact .inl (by simp only [advance,hp,ensure_not _ hw]; rfl)
    | taking =>
      by_cases hw : tid ∈ q.notEmptyCond.woken
      · exact .inr (.inr (.inl ⟨_,tid,woken,.inr ⟨⟨woken,rfl⟩,hp,hw,rfl⟩,by simp only [advance,hp,ensure_of _ hw,ok_bind]⟩))
      · exact .inl (by simp only [advance,hp,ensure_not _ hw]; rfl)
  | wakeSpuriously tid =>
    by_cases hw : tid ∈ q.notFullCond.waiting ∨ tid ∈ q.notEmptyCond.waiting
    · exact .inr (.inr (.inr ⟨tid,rfl,by simp only [advance,ensure_of _ hw,ok_bind]⟩))
    · exact .inl (by simp only [advance,ensure_not _ hw]; rfl)

theorem Inv.entersPut {p : Queue T} {a : QueueLabel T} (h : Inv q) (he : EntersPut q p a tid t) : Entering p tid 0 1 := by
  obtain ⟨-,hidle,rfl⟩ | ⟨-,-,hw,rfl⟩ := he
  · exact h.entering hidle 0 1
  · exact h.resumePut hw

theorem Inv.entersTake {p : Queue T} {a : QueueLabel T} (h : Inv q) (he : EntersTake q p a tid) : Entering p tid 1 0 := by
  obtain ⟨-,hidle,rfl⟩ | ⟨-,-,hw,rfl⟩ := he
  · exact h.entering hidle 1 0
  · exact h.resumeTake hw

theorem inv_advance {a : QueueLabel T} {v : Option T} (h : Inv q) (hs : q.advance a = .ok (r,v)) : Inv r := by
  obtain he | ⟨p,tid,t,woken,hp,he⟩ | ⟨p,tid,woken,hp,he⟩ | ⟨tid,ha,he⟩ := advance_cases q a
  · rw [he] at hs
    cases hs
  · rw [he] at hs
    obtain ⟨r',hput,hr⟩ := (map_ok_iff _ _ _).mp hs
    cases hr
    exact inv_put (h.entersPut hp) hput
  · rw [he] at hs
    exact inv_take (h.entersTake hp) hs
  · rw [he] at hs
    cases hs
    exact h.wakeSpuriously

/-- The label is a step of the thread's Put, or of its Take. -/
def InPut (q : Queue T) (a : QueueLabel T) (tid : Tid) (t : T) : Prop :=
  (∃ woken, a = .put tid t woken) ∧ q.pc tid = .idle ∨ (∃ woken, a = .resume tid woken) ∧ q.pc tid = .putting t

def InTake (q : Queue T) (a : QueueLabel T) (tid : Tid) : Prop :=
  (∃ woken, a = .take tid woken) ∧ q.pc tid = .idle ∨ (∃ woken, a = .resume tid woken) ∧ q.pc tid = .taking

/-- What a step shows to the users of the queue: at most one value goes in or comes
out, and only the thread of the label moves. -/
inductive Effect (q : Queue T) (a : QueueLabel T) (r : Queue T) : Option T → Prop where
  | sleepPut (tid : Tid) (t : T) (ha : InPut q a tid t) (hpc : r.pc = Function.update q.pc tid (.putting t))
      (hputs : r.puts = q.puts) (htakes : r.takes = q.takes) : Effect q a r none
  | put (tid : Tid) (t : T) (ha : InPut q a tid t) (hpc : r.pc = Function.update q.pc tid .idle)
      (hputs : r.puts = q.puts ++ [t]) (htakes : r.takes = q.takes) : Effect q a r none
  | sleepTake (tid : Tid) (ha : InTake q a tid) (hpc : r.pc = Function.update q.pc tid .taking)
      (hputs : r.puts = q.puts) (htakes : r.takes = q.takes) : Effect q a r none
  | take (tid : Tid) (t : T) (ha : InTake q a tid) (hpc : r.pc = Function.update q.pc tid .idle)
      (hputs : r.puts = q.puts) (htakes : r.takes = q.takes ++ [t]) : Effect q a r (some t)
  | wake (ha : ∃ tid, a = .wakeSpuriously tid) (hpc : r.pc = q.pc) (hputs : r.puts = q.puts) (htakes : r.takes = q.takes) : Effect q a r none

theorem advance_effect {a : QueueLabel T} {v : Option T} (hs : q.advance a = .ok (r,v)) : Effect q a r v := by
  obtain he | ⟨p,tid,t,woken,hp,he⟩ | ⟨p,tid,woken,hp,he⟩ | ⟨tid,ha,he⟩ := advance_cases q a
  · rw [he] at hs
    cases hs
  · rw [he] at hs
    obtain ⟨r',hput,hr⟩ := (map_ok_iff _ _ _).mp hs
    cases hr
    have ha : InPut q a tid t := hp.imp (fun h => ⟨h.1,h.2.1⟩) (fun h => ⟨h.1,h.2.1⟩)
    have hsame : p.pc = q.pc ∧ p.puts = q.puts ∧ p.takes = q.takes := by
      obtain ⟨-,-,rfl⟩ | ⟨-,-,-,rfl⟩ := hp <;> exact ⟨rfl,rfl,rfl⟩
    obtain ⟨hpc,hputs,htakes⟩ := hsame
    obtain ⟨-,rfl⟩ | ⟨-,-,rfl⟩ := put_cases hput
    · exact .sleepPut tid t ha (by rw [← hpc]) hputs htakes
    · exact .put tid t ha (by rw [← hpc]) (by rw [← hputs]) htakes
  · rw [he] at hs
    have ha : InTake q a tid := hp.imp (fun h => ⟨h.1,h.2.1⟩) (fun h => ⟨h.1,h.2.1⟩)
    have hsame : p.pc = q.pc ∧ p.puts = q.puts ∧ p.takes = q.takes := by
      obtain ⟨-,-,rfl⟩ | ⟨-,-,-,rfl⟩ := hp <;> exact ⟨rfl,rfl,rfl⟩
    obtain ⟨hpc,hputs,htakes⟩ := hsame
    obtain ⟨-,rfl,rfl⟩ | ⟨front,_,-,rfl,-,rfl⟩ := take_cases hs
    · exact .sleepTake tid ha (by rw [← hpc]) hputs htakes
    · exact .take tid front ha (by rw [← hpc]) hputs (by rw [← htakes])
  · rw [he] at hs
    cases hs
    exact .wake ⟨tid,ha⟩ rfl rfl rfl

/-- A call of Put sleeps in it, or its value is in the queue. -/
theorem Effect.ofPut {v : Option T} (h : Effect q (.put tid t woken) r v) : q.pc tid = .idle ∧
    (r.puts = q.puts ∧ r.pc = Function.update q.pc tid (.putting t) ∨
      r.puts = q.puts ++ [t] ∧ r.pc = Function.update q.pc tid .idle) := by
  cases h with
  | sleepPut u w ha hpc hputs _ =>
    obtain ⟨⟨_,heq⟩,hidle⟩ | ⟨⟨_,heq⟩,-⟩ := ha
    · cases heq
      exact ⟨hidle,.inl ⟨hputs,hpc⟩⟩
    · cases heq
  | put u w ha hpc hputs _ =>
    obtain ⟨⟨_,heq⟩,hidle⟩ | ⟨⟨_,heq⟩,-⟩ := ha
    · cases heq
      exact ⟨hidle,.inr ⟨hputs,hpc⟩⟩
    · cases heq
  | sleepTake u ha _ _ _ | take u _ ha _ _ _ => obtain ⟨⟨_,heq⟩,-⟩ | ⟨⟨_,heq⟩,-⟩ := ha <;> cases heq
  | wake hlabel _ _ _ =>
    obtain ⟨_,heq⟩ := hlabel
    cases heq

private theorem putting_update {p p' : QueuePc T} (hp : q.pc tid = p) (h : ∀ w, p' = .putting w ↔ p = .putting w)
    (u : Tid) (w : T) : Function.update q.pc tid p' u = .putting w ↔ q.pc u = .putting w := by
  by_cases hu : u = tid
  · rw [hu,Function.update_self,hp,h]
  · rw [Function.update_of_ne hu]

/-- Any other step leaves all values where they are, or one that waited goes in. -/
theorem Effect.notPut {a : QueueLabel T} {v : Option T} (h : Effect q a r v) (ha : ∀ u w x, a ≠ .put u w x) :
    r.puts = q.puts ∧ (∀ u w, r.pc u = .putting w ↔ q.pc u = .putting w) ∨
      ∃ u w, q.pc u = .putting w ∧ r.puts = q.puts ++ [w] ∧ r.pc = Function.update q.pc u .idle := by
  have htake : ∀ {u : Tid} {p' : QueuePc T}, InTake q a u → (∀ w, p' ≠ .putting w) →
      ∀ u' w, Function.update q.pc u p' u' = .putting w ↔ q.pc u' = .putting w := by
    intro u p' hin hp' u' w
    obtain ⟨-,hp⟩ | ⟨-,hp⟩ := hin
    · exact putting_update hp (fun w => by simp [hp' w]) u' w
    · exact putting_update hp (fun w => by simp [hp' w]) u' w
  cases h with
  | sleepPut u w hin hpc hputs _ =>
    obtain ⟨⟨_,heq⟩,-⟩ | ⟨-,hp⟩ := hin
    · exact absurd heq (ha u w _)
    · refine .inl ⟨hputs,?_⟩
      rw [hpc]
      exact putting_update hp fun _ => Iff.rfl
  | put u w hin hpc hputs _ =>
    obtain ⟨⟨_,heq⟩,-⟩ | ⟨-,hp⟩ := hin
    · exact absurd heq (ha u w _)
    · exact .inr ⟨u,w,hp,hputs,hpc⟩
  | sleepTake u hin hpc hputs _ =>
    refine .inl ⟨hputs,?_⟩
    rw [hpc]
    exact htake hin fun _ => by simp
  | take u _ hin hpc hputs _ =>
    refine .inl ⟨hputs,?_⟩
    rw [hpc]
    exact htake hin fun _ => by simp
  | wake _ hpc hputs _ =>
    refine .inl ⟨hputs,fun u w => ?_⟩
    rw [hpc]

/-- The thread that takes, and the value it returns with, are the label's. -/
theorem Effect.taken {a : QueueLabel T} {v : Option T} (h : Effect q a r v) :
    (r.takes = q.takes ∧ v = none ∧ ∀ u, r.pc u = .taking → q.pc u = .taking ∨ InTake q a u) ∨
      ∃ u w, InTake q a u ∧ v = some w ∧ r.takes = q.takes ++ [w] ∧ r.pc = Function.update q.pc u .idle := by
  cases h with
  | sleepPut u w hin hpc _ htakes =>
    refine .inl ⟨htakes,rfl,fun u' hu' => .inl ?_⟩
    rw [hpc,Function.update_apply] at hu'
    split at hu'
    · cases hu'
    · exact hu'
  | put u w hin hpc _ htakes =>
    refine .inl ⟨htakes,rfl,fun u' hu' => .inl ?_⟩
    rw [hpc,Function.update_apply] at hu'
    split at hu'
    · cases hu'
    · exact hu'
  | sleepTake u hin hpc _ htakes =>
    refine .inl ⟨htakes,rfl,fun u' hu' => ?_⟩
    rw [hpc,Function.update_apply] at hu'
    split at hu'
    · rename_i heq
      exact .inr (heq ▸ hin)
    · exact .inl hu'
  | take u w hin hpc _ htakes => exact .inr ⟨u,w,hin,rfl,htakes,hpc⟩
  | wake _ hpc _ htakes => exact .inl ⟨htakes,rfl,fun u' hu' => .inl (by rwa [← hpc])⟩

theorem advance_capacity {a : QueueLabel T} {v : Option T} (hs : q.advance a = .ok (r,v)) :
    r.queue.capacity = q.queue.capacity := by
  obtain he | ⟨p,tid,t,woken,hp,he⟩ | ⟨p,tid,woken,hp,he⟩ | ⟨tid,ha,he⟩ := advance_cases q a
  · rw [he] at hs
    cases hs
  · rw [he] at hs
    obtain ⟨r',hput,hr⟩ := (map_ok_iff _ _ _).mp hs
    cases hr
    have hcap : p.queue.capacity = q.queue.capacity := by
      obtain ⟨-,-,rfl⟩ | ⟨-,-,-,rfl⟩ := hp <;> rfl
    obtain ⟨-,rfl⟩ | ⟨-,-,rfl⟩ := put_cases hput <;> exact hcap
  · rw [he] at hs
    have hcap : p.queue.capacity = q.queue.capacity := by
      obtain ⟨-,-,rfl⟩ | ⟨-,-,-,rfl⟩ := hp <;> rfl
    obtain ⟨-,-,rfl⟩ | ⟨_,_,-,-,-,rfl⟩ := take_cases hs <;> exact hcap
  · rw [he] at hs
    cases hs
    rfl

theorem put_ne_assertion (q : Queue T) (tid : Tid) (t : T) (woken : Option Tid) (text : String) :
    q.put tid t woken ≠ .error (.assertion text) := by
  intro h
  unfold put at h
  by_cases hfull : q.queue.full = true
  · rw [if_pos hfull] at h
    cases h
  · rw [if_neg hfull,ensure_of _ (Bool.eq_false_of_not_eq_true hfull)] at h
    by_cases hn : q.notEmptyCond.CanNotify woken
    · rw [ensure_of _ hn] at h
      cases h
    · rw [ensure_not _ hn] at h
      cases h

theorem take_ne_assertion (q : Queue T) (tid : Tid) (woken : Option Tid) (text : String) :
    q.take tid woken ≠ .error (.assertion text) := by
  intro h
  unfold take at h
  by_cases hempty : q.queue.empty = true
  · rw [if_pos hempty] at h
    cases h
  · rw [if_neg hempty,ensure_of _ (Bool.eq_false_of_not_eq_true hempty),ok_bind] at h
    cases hitems : q.queue.items with
    | nil =>
      rw [hitems] at h
      cases h
    | cons front rest =>
      rw [hitems] at h
      by_cases hn : q.notFullCond.CanNotify woken
      · simp only [ok_bind,ensure_of _ hn] at h
        cases h
      · simp only [ensure_not _ hn] at h
        cases h

/-- The assertions stand behind loops with the same test. -/
theorem advance_ne_assertion (q : Queue T) (a : QueueLabel T) (text : String) :
    q.advance a ≠ .error (.assertion text) := by
  intro h
  obtain he | ⟨p,tid,t,woken,-,he⟩ | ⟨p,tid,woken,-,he⟩ | ⟨tid,ha,he⟩ := advance_cases q a
  · rw [he] at h
    cases h
  · rw [he] at h
    exact put_ne_assertion p tid t woken text ((map_error_iff _ _ _).mp h)
  · rw [he] at h
    exact take_ne_assertion p tid woken text h
  · rw [he] at h
    cases h

end Queue

namespace BoundedBlockingQueue
open Queue
variable {T : Type} {nMaxSize : Nat} {q : Queue T}

theorem reachable_inv (h : (machine T nMaxSize).Reachable q) :
    Inv q ∧ q.queue.capacity = some nMaxSize := by
  refine h.invariant (P := fun q => Inv q ∧ q.queue.capacity = some nMaxSize) ?_ ?_
  · intro q hq
    rw [show q = .initial (.circularBuffer nMaxSize) from hq]
    exact ⟨inv_initial rfl,rfl⟩
  · intro q a r hq hs
    obtain ⟨⟨r',v⟩,hadv,hr⟩ := (map_ok_iff _ _ _).mp hs
    cases hr
    exact ⟨inv_advance hq.1 hadv,(advance_capacity hadv).trans hq.2⟩

/-- For every capacity and in every interleaving of the critical sections: what was
taken and what is stored is what was put, in that order; no more than the capacity
is stored and no assertion fails; and whoever sleeps while there is an item, or a
free slot, has a woken thread of his side before him. -/
theorem bounded_fifo_never_stalls (h : (machine T nMaxSize).Reachable q) :
    q.takes ++ q.queue.items = q.puts ∧ q.queue.items.length ≤ nMaxSize ∧
      (∀ a text, q.step a ≠ .error (.assertion text)) ∧
      (q.queue.items ≠ [] → q.notEmptyCond.waiting.Nonempty → q.notEmptyCond.woken.Nonempty) ∧
      (q.queue.items.length < nMaxSize → q.notFullCond.waiting.Nonempty → q.notFullCond.woken.Nonempty) := by
  obtain ⟨hi,hcap⟩ := reachable_inv h
  refine ⟨hi.fifo,q.queue.fits _ hcap,fun a text h => advance_ne_assertion q a text ((map_error_iff _ _ _).mp h),fun hne hw => ?_,fun hlt hw => ?_⟩
  · exact hi.items.woken_nonempty (List.length_pos_iff.mpr hne) hw
  · exact (hi.slots _ hcap).woken_nonempty (Nat.sub_pos_of_lt hlt) hw

/-- Two producers wait for the only slot; a consumer frees it and wakes one of them. -/
theorem bounded_fifo_never_stalls_twoProducers :
    ∃ q, (machine Nat 1).Reachable q ∧ q.takes = [5] ∧ q.queue.items = [] ∧ q.notFullCond.waiting = {3} ∧
      q.notFullCond.woken.Nonempty := by
  let labels : List (QueueLabel Nat) := [.put 1 5 none,.put 2 6 none,.put 3 7 none,.take 4 (some 2)]
  obtain ⟨q,hr,hv⟩ := (machine Nat 1).exists_reachable rfl labels
    (fun q => (q.takes,q.queue.items,q.notFullCond.waiting)) (b := ([5],[],{3})) (by decide +kernel)
  simp only [Prod.mk.injEq] at hv
  obtain ⟨htakes,hitems,hwait⟩ := hv
  refine ⟨q,hr,htakes,hitems,hwait,(bounded_fifo_never_stalls hr).2.2.2.2 ?_ ?_⟩
  · rw [hitems]
    exact Nat.one_pos
  · rw [hwait]
    exact Finset.singleton_nonempty 3

end BoundedBlockingQueue
end LinuxServer.Thread
