import LinuxServer.Lib.Machine

/-! The event loop: producers in any thread, the functor queue, the wake-up
descriptor and the loop's own passes, interleaved step by step. -/
namespace LinuxServer.Reactor
open LinuxServer.Lib

abbrev Thread := Nat

namespace EventLoop

/-- A queued functor. Who queued it, as which call, after how many polls and
whether a batch was running is recorded for the statements only. -/
structure Entry (F : Type) where
  callBack : F
  producer : Thread
  ticket : Nat
  polls : Nat
  duringBatch : Bool
  deriving DecidableEq

/-- Where a thread is in QueueInLoop or Quit: between the change and the wake-up. -/
inductive Pc where
  | idle
  | queued (ticket : Nat)
  | quitting
  deriving DecidableEq

inductive Channel where
  | wakeUp
  | other (fd : Nat)
  deriving DecidableEq

/-- Where the loop thread is in Loop() and doPendingFunctors(). -/
inductive Phase where
  | outside
  | test
  | poll
  | events (activeChannels : List Channel)
  | inEvent (activeChannels : List Channel)
  | swap
  | batch
  | running
  deriving DecidableEq

/-- From the return of Poll to the swap: the queue will still be drained in this pass. -/
def Phase.drains : Phase → Bool
  | .events _ | .inEvent _ | .swap => true
  | _ => false

/-- doPendingFunctors() has set its flag and not yet cleared it. -/
def Phase.calling : Phase → Bool
  | .swap | .batch | .running => true
  | _ => false

/-- A batch has been swapped out and not yet finished. -/
def Phase.inBatch : Phase → Bool
  | .batch | .running => true
  | _ => false

/-- User code runs in the loop thread. -/
def Phase.inCallBack : Phase → Bool
  | .inEvent _ | .running => true
  | _ => false

structure State (F : Type) where
  looping : Bool
  quit : Bool
  callingFunctors : Bool
  phase : Phase
  pendingFunctors : List (Entry F)
  /-- What is left of the swapped-out vector. -/
  functors : List (Entry F)
  /-- The counter of the wake-up descriptor, which is readable when not zero. -/
  wakeUpFd : Nat
  pc : Thread → Pc
  /-- All calls of QueueInLoop so far, and the executions with their pass. -/
  queued : List (Entry F)
  executed : List (Entry F × Nat)
  polls : Nat

inductive Label (F : Type) where
  /-- QueueInLoop up to the end of its critical section. -/
  | queueInLoop (t : Thread) (rCallBack : F)
  | quit (t : Thread)
  /-- The rest of QueueInLoop or Quit. -/
  | wakeUp (t : Thread)
  | loop
  | testQuit
  | pollReturn (active : List Channel)
  | handleEvent
  | endEvent
  | callingFunctors
  | swap
  | callFunctor
  | endFunctor
  | endBatch

section Machine
variable {F : Type} (threadId : Thread)

/-- The write to the wake-up descriptor adds one, or fails when the counter is full. -/
def writeWakeUp (n : Nat) : Nat := if n + 1 ≤ 2 ^ 64 - 2 then n + 1 else n

def step (s : State F) : Label F → Except Halt (State F)
  | .queueInLoop t rCallBack => do
    ensure .notEnabled (s.pc t = .idle ∧ (t = threadId → s.phase.inCallBack = true))
    let e : Entry F := ⟨rCallBack,t,s.queued.length,s.polls,s.phase.inBatch⟩
    .ok { s with
      pendingFunctors := s.pendingFunctors ++ [e]
      queued := s.queued ++ [e]
      pc := Function.update s.pc t (.queued e.ticket) }
  | .quit t => do
    ensure .notEnabled (s.pc t = .idle ∧ (t = threadId → s.phase.inCallBack = true))
    if t = threadId then .ok { s with quit := true }
    else .ok { s with quit := true, pc := Function.update s.pc t .quitting }
  | .wakeUp t => do
    ensure .notEnabled (s.pc t ≠ .idle)
    let wakes := t ≠ threadId ∨ s.callingFunctors = true
    .ok { s with
      wakeUpFd := if wakes then writeWakeUp s.wakeUpFd else s.wakeUpFd
      pc := Function.update s.pc t .idle }
  | .loop => do
    ensure .notEnabled (s.phase = .outside ∧ s.pc threadId = .idle)
    ensure (.assertion "!m_bLooping") (s.looping = false)
    .ok { s with looping := true, quit := false, phase := .test }
  | .testQuit => do
    ensure .notEnabled (s.phase = .test)
    if s.quit then .ok { s with looping := false, phase := .outside }
    else .ok { s with phase := .poll }
  | .pollReturn active => do
    ensure .notEnabled (s.phase = .poll ∧ (.wakeUp ∈ active → 0 < s.wakeUpFd))
    .ok { s with phase := .events active, polls := s.polls + 1 }
  | .handleEvent =>
    match s.phase with
    | .events (.wakeUp :: rest) => .ok { s with wakeUpFd := 0, phase := .events rest }
    | .events (.other _ :: rest) => .ok { s with phase := .inEvent rest }
    | _ => .error .notEnabled
  | .endEvent =>
    match s.phase with
    | .inEvent rest => do
      ensure .notEnabled (s.pc threadId = .idle)
      .ok { s with phase := .events rest }
    | _ => .error .notEnabled
  | .callingFunctors => do
    ensure .notEnabled (s.phase = .events [])
    .ok { s with callingFunctors := true, phase := .swap }
  | .swap => do
    ensure .notEnabled (s.phase = .swap)
    .ok { s with functors := s.pendingFunctors, pendingFunctors := [], phase := .batch }
  | .callFunctor =>
    match s.phase, s.functors with
    | .batch, e :: rest => .ok { s with
        functors := rest
        executed := s.executed ++ [(e,s.polls)]
        phase := .running }
    | _, _ => .error .notEnabled
  | .endFunctor => do
    ensure .notEnabled (s.phase = .running ∧ s.pc threadId = .idle)
    .ok { s with phase := .batch }
  | .endBatch => do
    ensure .notEnabled (s.phase = .batch ∧ s.functors = [])
    .ok { s with callingFunctors := false, phase := .test }

def initial : State F := {
  looping := false
  quit := false
  callingFunctors := false
  phase := .outside
  pendingFunctors := []
  functors := []
  wakeUpFd := 0
  pc := fun _ => .idle
  queued := []
  executed := []
  polls := 0 }

def machine : Machine (State F) (Label F) Halt := ⟨fun s => s = initial,step threadId⟩

/-- What holds between any two steps of any threads. -/
structure Inv (s : State F) : Prop where
  fifo : s.queued = s.executed.map Prod.fst ++ s.functors ++ s.pendingFunctors
  tickets : s.queued.map Entry.ticket = List.range s.queued.length
  batch : s.phase.inBatch = false → s.functors = []
  calling : s.phase.calling = true → s.callingFunctors = true
  caller : s.phase.inCallBack = false → s.pc threadId = .idle
  /-- Outside the draining part of a pass, whoever queued a pending functor has
  made the descriptor readable or is still going to. -/
  woken : s.phase.drains = false → ∀ e ∈ s.pendingFunctors,
    0 < s.wakeUpFd ∨ s.pc e.producer = .queued e.ticket
  polled : ∀ e ∈ s.pendingFunctors, e.duringBatch = true →
    e.polls ≤ s.polls ∧ (s.phase.drains = true → e.polls < s.polls)
  later : ∀ e ∈ s.functors, e.duringBatch = true → e.polls < s.polls
  laterExecuted : ∀ p ∈ s.executed, p.1.duringBatch = true → p.1.polls < p.2

variable {threadId}

theorem inv_initial : Inv threadId (initial : State F) := by
  constructor <;> simp [initial,Phase.calling]

theorem writeWakeUp_pos (n : Nat) : 0 < writeWakeUp n := by
  unfold writeWakeUp
  split <;> omega

private theorem inv_queue {s t : State F} {u : Thread} {f : F} (h : Inv threadId s)
    (hs : step threadId s (.queueInLoop u f) = .ok t) : Inv threadId t := by
  simp only [step,bind_ok_iff,ensure_ok_iff,Except.ok.injEq] at hs
  obtain ⟨-,⟨hidle,hme⟩,rfl⟩ := hs
  refine ⟨?_,?_,h.batch,h.calling,?_,?_,?_,h.later,h.laterExecuted⟩
  · simp only [h.fifo,List.append_assoc]
  · simp only [List.map_append,List.map_cons,List.map_nil,h.tickets,List.length_append,
      List.length_singleton,List.range_succ]
  · intro hc
    have hne : threadId ≠ u := fun he => by
      rw [hme he.symm] at hc
      cases hc
    simpa only [Function.update_of_ne hne] using h.caller hc
  · intro hd e he
    rcases List.mem_append.mp he with he | he
    · refine (h.woken hd e he).imp_right fun hp => ?_
      have hne : e.producer ≠ u := fun he => by
        rw [he,hidle] at hp
        cases hp
      simpa only [Function.update_of_ne hne] using hp
    · rw [List.mem_singleton.mp he]
      exact .inr (Function.update_self ..)
  · intro e he hb
    rcases List.mem_append.mp he with he | he
    · exact h.polled e he hb
    · rw [List.mem_singleton.mp he] at hb ⊢
      refine ⟨le_rfl,fun hd => ?_⟩
      -- a batch is not running in the draining part
      simp only at hb
      cases hp : s.phase <;> rw [hp] at hb hd <;> simp [Phase.inBatch,Phase.drains] at hb hd

private theorem inv_wakeUp {s t : State F} {u : Thread} (h : Inv threadId s)
    (hs : step threadId s (.wakeUp u) = .ok t) : Inv threadId t := by
  simp only [step,bind_ok_iff,ensure_ok_iff,Except.ok.injEq] at hs
  obtain ⟨-,hbusy,rfl⟩ := hs
  refine ⟨h.fifo,h.tickets,h.batch,h.calling,?_,?_,h.polled,h.later,h.laterExecuted⟩
  · intro hc
    simp only [Function.update_apply]
    split
    · rfl
    · exact h.caller hc
  · intro hd e he
    by_cases hwakes : u ≠ threadId ∨ s.callingFunctors = true
    · rw [if_pos hwakes]
      exact .inl (writeWakeUp_pos _)
    · -- the loop thread skips the wake-up only where the pass will drain
      simp only [not_or,not_not] at hwakes
      obtain ⟨rfl,hcalling⟩ := hwakes
      have hquiet : s.phase.calling ≠ true := fun hc => hcalling (h.calling hc)
      have hcall : s.phase.inCallBack ≠ false := fun hc => hbusy (h.caller hc)
      cases hp : s.phase <;> simp [hp,Phase.calling,Phase.inCallBack,Phase.drains] at hquiet hcall hd

private theorem inv_quit {s t : State F} {u : Thread} (h : Inv threadId s)
    (hs : step threadId s (.quit u) = .ok t) : Inv threadId t := by
  simp only [step,bind_ok_iff,ensure_ok_iff] at hs
  obtain ⟨-,⟨hidle,-⟩,hs⟩ := hs
  by_cases hu : u = threadId
  · rw [if_pos hu] at hs
    cases hs
    exact ⟨h.fifo,h.tickets,h.batch,h.calling,h.caller,h.woken,h.polled,h.later,h.laterExecuted⟩
  · rw [if_neg hu] at hs
    cases hs
    refine ⟨h.fifo,h.tickets,h.batch,h.calling,?_,?_,h.polled,h.later,h.laterExecuted⟩
    · intro hc
      simpa only [Function.update_of_ne (Ne.symm hu)] using h.caller hc
    · intro hd e he
      refine (h.woken hd e he).imp_right fun hp => ?_
      have hne : e.producer ≠ u := fun he => by
        rw [he,hidle] at hp
        cases hp
      simpa only [Function.update_of_ne hne] using hp

/-- A move of the loop thread between two points where no batch is out. It may
read the descriptor only on its way to the swap. -/
private theorem Inv.move {s : State F} (h : Inv threadId s) (hs : s.phase.inBatch = false)
    {looping quit calling : Bool} {phase : Phase} {fd polls : Nat} (hcalling : phase.calling = true → calling = true)
    (hidle : phase.inCallBack = false → s.pc threadId = .idle)
    (hfd : phase.drains = false → s.phase.drains = false ∧ fd = s.wakeUpFd)
    (hle : s.polls ≤ polls) (hlt : phase.drains = true → s.phase.drains = true ∨ s.polls < polls) :
    Inv threadId { s with
      looping := looping, quit := quit, callingFunctors := calling, phase := phase
      wakeUpFd := fd, polls := polls } := by
  refine ⟨h.fifo,h.tickets,fun _ => h.batch hs,hcalling,hidle,?_,?_,?_,
    h.laterExecuted⟩
  · intro hd e he
    rw [(hfd hd).2]
    exact h.woken (hfd hd).1 e he
  · intro e he hb
    obtain ⟨hp,hq⟩ := h.polled e he hb
    refine ⟨hp.trans hle,fun hd => ?_⟩
    rcases hlt hd with hd | hd
    · exact (hq hd).trans_le hle
    · exact hp.trans_lt hd
  · exact fun e he hb => (h.later e he hb).trans_le hle

/-- The loop thread's steps from the test to the calling flag. -/
private theorem inv_pass {s t : State F} {a : Label F} (h : Inv threadId s)
    (ha : a ∈ [.loop,.testQuit,.handleEvent,.endEvent,.callingFunctors] ∨ ∃ active, a = .pollReturn active)
    (hs : step threadId s a = .ok t) : Inv threadId t := by
  simp only [List.mem_cons,List.not_mem_nil,or_false] at ha
  rcases ha with (rfl | rfl | rfl | rfl | rfl) | ⟨active,rfl⟩
  · simp only [step,bind_ok_iff,ensure_ok_iff,Except.ok.injEq] at hs
    obtain ⟨-,⟨hp,hidle⟩,-,-,rfl⟩ := hs
    exact h.move (by rw [hp]; rfl) (fun hc => (by cases hc)) (fun _ => hidle) (fun _ => ⟨by rw [hp]; rfl,rfl⟩) le_rfl (fun hd => (by cases hd))
  · simp only [step,bind_ok_iff,ensure_ok_iff] at hs
    obtain ⟨-,hp,hs⟩ := hs
    have hidle := h.caller (by rw [hp]; rfl)
    split at hs
    all_goals
      cases hs
      exact h.move (by rw [hp]; rfl) (fun hc => (by cases hc)) (fun _ => hidle) (fun _ => ⟨by rw [hp]; rfl,rfl⟩) le_rfl (fun hd => (by cases hd))
  · simp only [step] at hs
    split at hs
    · rename_i hp
      cases hs
      exact h.move (by rw [hp]; rfl) (fun hc => (by cases hc)) (fun _ => h.caller (by rw [hp]; rfl)) (fun hd => (by cases hd)) le_rfl
        (fun _ => .inl (by rw [hp]; rfl))
    · rename_i hp
      cases hs
      exact h.move (by rw [hp]; rfl) (fun hc => (by cases hc)) (fun hc => (by cases hc)) (fun hd => (by cases hd)) le_rfl
        (fun _ => .inl (by rw [hp]; rfl))
    · cases hs
  · simp only [step] at hs
    split at hs
    · rename_i rest hp
      simp only [bind_ok_iff,ensure_ok_iff,Except.ok.injEq] at hs
      obtain ⟨-,hidle,rfl⟩ := hs
      exact h.move (by rw [hp]; rfl) (fun hc => (by cases hc)) (fun _ => hidle) (fun hd => (by cases hd)) le_rfl
        (fun _ => .inl (by rw [hp]; rfl))
    · cases hs
  · simp only [step,bind_ok_iff,ensure_ok_iff,Except.ok.injEq] at hs
    obtain ⟨-,hp,rfl⟩ := hs
    exact h.move (by rw [hp]; rfl) (fun _ => rfl) (fun _ => h.caller (by rw [hp]; rfl)) (fun hd => (by cases hd)) le_rfl
      (fun _ => .inl (by rw [hp]; rfl))
  · simp only [step,bind_ok_iff,ensure_ok_iff,Except.ok.injEq] at hs
    obtain ⟨-,⟨hp,-⟩,rfl⟩ := hs
    exact h.move (by rw [hp]; rfl) (fun hc => (by cases hc)) (fun _ => h.caller (by rw [hp]; rfl)) (fun hd => (by cases hd))
      (Nat.le_succ _) (fun _ => .inr (Nat.lt_succ_self _))

/-- Its steps through a batch. -/
private theorem inv_batch {s t : State F} {a : Label F} (h : Inv threadId s)
    (ha : a ∈ [.swap,.callFunctor,.endFunctor,.endBatch]) (hs : step threadId s a = .ok t) : Inv threadId t := by
  simp only [List.mem_cons,List.not_mem_nil,or_false] at ha
  rcases ha with rfl | rfl | rfl | rfl
  · simp only [step,bind_ok_iff,ensure_ok_iff,Except.ok.injEq] at hs
    obtain ⟨-,hp,rfl⟩ := hs
    have hempty := h.batch (by rw [hp]; rfl)
    refine ⟨?_,h.tickets,fun hb => (by cases hb),fun _ => ?_,fun _ => h.caller (by rw [hp]; rfl),
      fun _ e he => (by cases he),fun e he => (by cases he),?_,h.laterExecuted⟩
    · simpa only [hempty,List.append_nil] using h.fifo
    · exact h.calling (by rw [hp]; rfl)
    · -- what is swapped out was queued before the last poll, or by no batch
      exact fun e he hb => (h.polled e he hb).2 (by rw [hp]; rfl)
  · simp only [step] at hs
    split at hs
    · rename_i e rest hp hf
      cases hs
      refine ⟨?_,h.tickets,fun hb => (by cases hb),fun _ => h.calling (by rw [hp]; rfl),fun hc => (by cases hc),
        fun _ => h.woken (by rw [hp]; rfl),fun e he hb => ⟨(h.polled e he hb).1,fun hd => (by cases hd)⟩,?_,?_⟩
      · simpa only [hf,List.map_append,List.map_cons,List.map_nil,List.append_assoc,List.singleton_append,
          List.cons_append,List.nil_append] using h.fifo
      · exact fun e' he hb => h.later e' (by rw [hf]; exact List.mem_cons_of_mem _ he) hb
      · intro p hmem hb
        rcases List.mem_append.mp hmem with hmem | hmem
        · exact h.laterExecuted p hmem hb
        · rw [List.mem_singleton.mp hmem] at hb ⊢
          exact h.later e (by rw [hf]; exact List.mem_cons_self) hb
    · cases hs
  · simp only [step,bind_ok_iff,ensure_ok_iff,Except.ok.injEq] at hs
    obtain ⟨-,⟨hp,hidle⟩,rfl⟩ := hs
    exact ⟨h.fifo,h.tickets,fun hb => (by cases hb),fun _ => h.calling (by rw [hp]; rfl),fun _ => hidle,
      fun _ => h.woken (by rw [hp]; rfl),fun e he hb => ⟨(h.polled e he hb).1,fun hd => (by cases hd)⟩,
      h.later,h.laterExecuted⟩
  · simp only [step,bind_ok_iff,ensure_ok_iff,Except.ok.injEq] at hs
    obtain ⟨-,⟨hp,hempty⟩,rfl⟩ := hs
    exact ⟨h.fifo,h.tickets,fun _ => hempty,fun hb => (by cases hb),fun _ => h.caller (by rw [hp]; rfl),
      fun _ => h.woken (by rw [hp]; rfl),fun e he hb => ⟨(h.polled e he hb).1,fun hd => (by cases hd)⟩,
      h.later,h.laterExecuted⟩

theorem inv_step {s t : State F} {a : Label F} (h : Inv threadId s) (hs : step threadId s a = .ok t) :
    Inv threadId t := by
  cases a with
  | queueInLoop u f => exact inv_queue h hs
  | quit u => exact inv_quit h hs
  | wakeUp u => exact inv_wakeUp h hs
  | loop | testQuit | handleEvent | endEvent | callingFunctors => exact inv_pass h (.inl (by simp)) hs
  | pollReturn active => exact inv_pass h (.inr ⟨active,rfl⟩) hs
  | swap | callFunctor | endFunctor | endBatch => exact inv_batch h (by simp) hs

theorem Reachable.inv {s : State F} (h : (machine threadId).Reachable s) : Inv threadId s := by
  refine h.invariant (P := Inv threadId) (fun s hs => ?_) (fun s a t hi hs => inv_step hi hs)
  rw [show s = initial from hs]
  exact inv_initial

/-- In every interleaving: functors are executed in the order of the calls that
queued them, each call at most once; while the loop waits in Poll a pending
functor has made the descriptor readable, or its producer, another thread, is
still on the way to its wake-up; and what is queued during a batch is executed
after a later poll. -/
theorem functors_in_order_and_woken {s : State F} (h : (machine threadId).Reachable s) :
    s.queued = s.executed.map Prod.fst ++ s.functors ++ s.pendingFunctors ∧
      (s.executed.map fun p => p.1.ticket).Nodup ∧
      (s.phase = .poll → ∀ e ∈ s.pendingFunctors, 0 < s.wakeUpFd ∨
        e.producer ≠ threadId ∧ s.pc e.producer = .queued e.ticket) ∧
      ∀ p ∈ s.executed, p.1.duringBatch = true → p.1.polls < p.2 := by
  have hi := Reachable.inv h
  refine ⟨hi.fifo,?_,?_,hi.laterExecuted⟩
  · have hall : (s.queued.map Entry.ticket).Nodup := by
      rw [hi.tickets]
      exact List.nodup_range
    rw [hi.fifo,List.append_assoc,List.map_append,List.map_map] at hall
    exact (List.nodup_append.mp hall).1
  · intro hp e he
    refine (hi.woken (by rw [hp]; rfl) e he).imp_right fun hq => ⟨fun hme => ?_,hq⟩
    rw [hme,hi.caller (by rw [hp]; rfl)] at hq
    cases hq

/-- Another thread queues while a functor of the loop thread queues too; both
are pending when the loop waits again, and the descriptor is readable. -/
theorem functors_in_order_and_woken_twice :
    ∃ s, (machine 0 (F := Nat)).Reachable s ∧ s.phase = .poll ∧
      s.pendingFunctors.map Entry.callBack = [8,9] ∧ s.pc 1 = .queued 2 ∧
      ∀ e ∈ s.pendingFunctors, 0 < s.wakeUpFd ∨ e.producer ≠ 0 ∧ s.pc e.producer = .queued e.ticket := by
  let labels : List (Label Nat) := [.queueInLoop 1 7,.loop,.testQuit,.wakeUp 1,.pollReturn [.wakeUp],
    .handleEvent,.callingFunctors,.swap,.callFunctor,.queueInLoop 0 8,.queueInLoop 1 9,.wakeUp 0,
    .endFunctor,.endBatch,.testQuit]
  obtain ⟨s,hr,hv⟩ := (machine 0 (F := Nat)).exists_reachable rfl labels
    (fun s => (s.phase,s.pendingFunctors.map Entry.callBack,s.pc 1)) (b := (.poll,[8,9],.queued 2)) (by decide +kernel)
  simp only [Prod.mk.injEq] at hv
  exact ⟨s,hr,hv.1,hv.2.1,hv.2.2,(functors_in_order_and_woken hr).2.2.1 hv.1⟩

end Machine
end EventLoop
end LinuxServer.Reactor
