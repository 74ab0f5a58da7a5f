import LinuxServer.Reactor.EventLoop

/-! A loop in a thread of its own: its owner starts it, gets the pointer, and tells
it to quit. -/
namespace LinuxServer.Reactor.EventLoopThread
open LinuxServer.Lib

/-- What the thread does next in threadFunc(); `looping` is from the entry of Loop() to the
end of the function. -/
inductive ThreadPc where
  | construct
  | publish
  | published
  | looping
  | finished
  deriving DecidableEq,Repr

/-- Where the owner is in StartLoop() and in the destructor. -/
inductive OwnerPc where
  | idle
  | starting
  | waiting
  | returned
  | exiting
  | joining
  | joined
  deriving DecidableEq,Repr

/-- StartLoop() has returned the pointer, and the object is still there. -/
def OwnerPc.handedOut : OwnerPc → Bool
  | .returned | .exiting | .joining => true
  | _ => false

structure State (F : Type) where
  /-- m_pEventLoop is not NULL. -/
  pEventLoop : Bool
  exiting : Bool
  started : Bool
  joined : Bool
  thread : ThreadPc
  owner : OwnerPc
  loop : EventLoop.State F
  /-- How often the loop had polled when the owner first called Quit(). -/
  requested : Option Nat

inductive Label (F : Type) where
  /-- StartLoop() up to its loop, and one turn of that. -/
  | startLoop
  | checkStarted
  | wakeSpuriously
  | construct
  /-- The critical section of threadFunc(). -/
  | publish
  /-- A step on the loop, by its own thread or by another. -/
  | run (a : EventLoop.Label F)
  | endThread
  /-- The destructor up to its call of Quit(), and Join() behind it. -/
  | destroy
  | join

section Machine
variable {F : Type} (threadId owner : Thread)

def caller : EventLoop.Label F → Thread
  | .queueInLoop t _ | .quit t | .wakeUp t => t
  | _ => threadId

/-- In the destructor the owner calls nothing but Quit(). -/
def mayCall (s : State F) : EventLoop.Label F → Prop
  | .quit t => s.owner.handedOut = true ∧ (t = owner → s.owner = .returned ∨ s.owner = .exiting)
  | .queueInLoop t _ => s.owner.handedOut = true ∧ (t = owner → s.owner = .returned)
  | _ => True

instance (s : State F) (a : EventLoop.Label F) : Decidable (mayCall owner s a) := by
  cases a <;> unfold mayCall <;> infer_instance

def ownRun (s : State F) (a : EventLoop.Label F) : Except Halt (State F) :=
  match a with
  | .loop => do
    ensure .notEnabled (s.thread = .published)
    let loop ← EventLoop.step threadId s.loop .loop
    .ok { s with loop := loop, thread := .looping }
  | a => do
    ensure .notEnabled (s.thread = .looping)
    let loop ← EventLoop.step threadId s.loop a
    .ok { s with loop := loop }

/-- The loop object lives on the thread's stack. -/
def otherRun (s : State F) (a : EventLoop.Label F) : Except Halt (State F) := do
  ensure .notEnabled (mayCall owner s a)
  ensure .freed (s.thread ≠ .finished)
  let loop ← EventLoop.step threadId s.loop a
  .ok { s with
    loop := loop
    owner := if caller threadId a = owner ∧ s.owner = .exiting then .joining else s.owner
    requested := match a with
      | .quit t => if t = owner then s.requested.or (some s.loop.polls) else s.requested
      | _ => s.requested }

def step (s : State F) : Label F → Except Halt (State F)
  | .startLoop => do
    ensure .notEnabled (s.owner = .idle)
    ensure (.assertion "!m_Thread.Started()") (s.started = false)
    .ok { s with started := true, owner := .starting }
  | .checkStarted => do
    ensure .notEnabled (s.owner = .starting)
    .ok { s with owner := if s.pEventLoop then .returned else .waiting }
  | .wakeSpuriously => do
    ensure .notEnabled (s.owner = .waiting)
    .ok { s with owner := .starting }
  | .construct => do
    ensure .notEnabled (s.started = true ∧ s.thread = .construct)
    .ok { s with loop := EventLoop.initial, thread := .publish }
  | .publish => do
    ensure .notEnabled (s.thread = .publish)
    .ok { s with
      pEventLoop := true
      thread := .published
      owner := if s.owner = .waiting then .starting else s.owner }
  | .run a => if caller threadId a = threadId then ownRun threadId s a else otherRun threadId owner s a
  | .endThread => do
    ensure .notEnabled (s.thread = .looping ∧ s.loop.phase = .outside)
    ensure (.assertion "!m_bLooping") (s.loop.looping = false)
    .ok { s with thread := .finished }
  | .destroy => do
    ensure .notEnabled (s.owner = .idle ∨ s.owner = .returned ∧ s.loop.pc owner = .idle)
    ensure .outOfBounds (s.pEventLoop = true)
    .ok { s with exiting := true, owner := .exiting }
  | .join => do
    ensure .notEnabled (s.owner = .joining ∧ s.loop.pc owner = .idle)
    ensure (.assertion "m_bStarted") (s.started = true)
    ensure (.assertion "!m_bJoined") (s.joined = false)
    ensure .notEnabled (s.thread = .finished)
    .ok { s with joined := true, owner := .joined }

def initial : State F := {
  pEventLoop := false
  exiting := false
  started := false
  joined := false
  thread := .construct
  owner := .idle
  loop := EventLoop.initial
  requested := none }

def machine : Machine (State F) (Label F) Halt := ⟨fun s => s = initial,step threadId owner⟩

/-- When the owner calls Quit(), the thread is in Loop() and its m_bQuit = false is done. -/
def QuitsInLoop (s : State F) : Label F → Prop
  | .run (.quit t) => t = owner → s.thread = .looping ∨ s.thread = .finished
  | _ => True

instance (s : State F) (a : Label F) : Decidable (QuitsInLoop owner s a) := by
  cases a with
  | run a => cases a <;> unfold QuitsInLoop <;> infer_instance
  | _ => unfold QuitsInLoop; infer_instance

/-! Steps of the loop alone. -/

variable {threadId owner}

/-- What a step does to the two flags, the phase and the number of polls. -/
inductive Control (s t : EventLoop.State F) : EventLoop.Label F → Prop where
  | call (a : EventLoop.Label F) (hquit : t.quit = s.quit ∨ t.quit = true) (hlooping : t.looping = s.looping)
      (hphase : t.phase = s.phase) (hpolls : t.polls = s.polls) : Control s t a
  | enter (hlooping : t.looping = true) (hquit : t.quit = false) (hphase : t.phase = .test) : Control s t .loop
  | leave (hquit : t.quit = s.quit) (hlooping : t.looping = false) (hphase : t.phase = .outside)
      (hpolls : t.polls = s.polls) : Control s t .testQuit
  | goOn (hset : s.quit = false) (hphase : t.phase = .poll) : Control s t .testQuit
  | pollReturn (active : List EventLoop.Channel) (hquit : t.quit = s.quit) (hpoll : s.phase = .poll)
      (hphase : t.phase = .events active) (hpolls : t.polls = s.polls + 1) : Control s t (.pollReturn active)
  | pass (a : EventLoop.Label F) (hquit : t.quit = s.quit) (hphase : t.phase ≠ .outside ∧ t.phase ≠ .poll)
      (hpolls : t.polls = s.polls) : Control s t a

private theorem control_step {s t : EventLoop.State F} {a : EventLoop.Label F} (hs : EventLoop.step threadId s a = .ok t) :
    Control s t a := by
  cases a with
  | queueInLoop u f | wakeUp u =>
    simp only [EventLoop.step,bind_ok_iff,Except.ok.injEq] at hs
    obtain ⟨_,-,rfl⟩ := hs
    exact .call _ (.inl rfl) rfl rfl rfl
  | quit u =>
    simp only [EventLoop.step,bind_ok_iff] at hs
    obtain ⟨_,-,hs⟩ := hs
    split at hs <;> cases hs <;> exact .call _ (.inr rfl) rfl rfl rfl
  | loop =>
    simp only [EventLoop.step,bind_ok_iff,Except.ok.injEq] at hs
    obtain ⟨_,-,_,-,rfl⟩ := hs
    exact .enter rfl rfl rfl
  | testQuit =>
    simp only [EventLoop.step,bind_ok_iff] at hs
    obtain ⟨_,-,hs⟩ := hs
    split at hs
    · cases hs
      exact .leave rfl rfl rfl rfl
    · rename_i hset
      cases hs
      exact .goOn (Bool.eq_false_iff.mpr hset) rfl
  | pollReturn active =>
    simp only [EventLoop.step,bind_ok_iff,ensure_ok_iff,Except.ok.injEq] at hs
    obtain ⟨-,⟨hp,-⟩,rfl⟩ := hs
    exact .pollReturn active rfl hp rfl rfl
  | callingFunctors | swap | endFunctor | endBatch =>
    simp only [EventLoop.step,bind_ok_iff,Except.ok.injEq] at hs
    obtain ⟨_,-,rfl⟩ := hs
    exact .pass _ rfl (by simp) rfl
  | handleEvent | callFunctor =>
    simp only [EventLoop.step] at hs
    split at hs <;> cases hs <;> exact .pass _ rfl (by simp) rfl
  | endEvent =>
    simp only [EventLoop.step] at hs
    split at hs
    · simp only [bind_ok_iff,Except.ok.injEq] at hs
      obtain ⟨_,-,rfl⟩ := hs
      exact .pass _ rfl (by simp) rfl
    · cases hs

/-- Once the flag is set only the entry of Loop() clears it, and no further pass begins. -/
private theorem quit_step {s t : EventLoop.State F} {a : EventLoop.Label F} (ha : a ≠ .loop)
    (hs : EventLoop.step threadId s a = .ok t) (hq : s.quit = true) :
    t.quit = true ∧ (t.polls = s.polls ∧ (t.phase = .poll → s.phase = .poll) ∨
      t.polls = s.polls + 1 ∧ s.phase = .poll ∧ t.phase ≠ .poll) := by
  cases control_step hs with
  | call a hquit hlooping hphase hpolls =>
    refine ⟨?_,.inl ⟨hpolls,fun hp => hphase ▸ hp⟩⟩
    rcases hquit with hquit | hquit
    · exact hquit.trans hq
    · exact hquit
  | enter => exact absurd rfl ha
  | leave hquit hlooping hphase hpolls =>
    refine ⟨hquit.trans hq,.inl ⟨hpolls,fun hp => ?_⟩⟩
    rw [hphase] at hp
    cases hp
  | goOn hset => rw [hq] at hset; cases hset
  | pollReturn active hquit hpoll hphase hpolls =>
    refine ⟨hquit.trans hq,.inr ⟨hpolls,hpoll,?_⟩⟩
    rw [hphase]
    exact fun hp => (by cases hp)
  | pass a hquit hphase hpolls => exact ⟨hquit.trans hq,.inl ⟨hpolls,fun hp => absurd hp hphase.2⟩⟩

/-- Outside Loop() the loop is not looping. -/
private theorem outside_step {s t : EventLoop.State F} {a : EventLoop.Label F} (hs : EventLoop.step threadId s a = .ok t)
    (h : s.phase = .outside → s.looping = false) : t.phase = .outside → t.looping = false := by
  intro hp
  cases control_step hs with
  | call a hquit hlooping hphase hpolls => exact hlooping.trans (h (hphase.symm.trans hp))
  | enter hlooping hquit hphase => cases hphase.symm.trans hp
  | leave hquit hlooping => exact hlooping
  | goOn hset hphase => cases hphase.symm.trans hp
  | pollReturn active hquit hpoll hphase => cases hphase.symm.trans hp
  | pass a hquit hphase => exact absurd hp hphase.1

/-! With the flag set the thread runs to the end of Loop() by itself. -/

/-- A step of the loop's own thread behind the entry of Loop(), at most the end of a call. -/
def Own (threadId : Thread) : EventLoop.Label F → Prop
  | .loop | .queueInLoop _ _ | .quit _ => False
  | .wakeUp t => t = threadId
  | _ => True

def Ends (threadId : Thread) (s : EventLoop.State F) : Prop :=
  ∃ as t, (∀ a ∈ as, Own threadId a) ∧ (EventLoop.machine threadId).run s as = .ok t ∧
    t.phase = .outside ∧ t.looping = false

private theorem Ends.before {s t : EventLoop.State F} {a : EventLoop.Label F} (h : Ends threadId t)
    (hs : EventLoop.step threadId s a = .ok t) (ha : Own threadId a) : Ends threadId s := by
  obtain ⟨as,u,hown,hrun,hu⟩ := h
  refine ⟨a :: as,u,?_,?_,hu⟩
  · intro b hb
    rcases List.mem_cons.mp hb with rfl | hb
    · exact ha
    · exact hown b hb
  · rw [Machine.run_cons]
    change EventLoop.step threadId s a >>= _ = _
    rw [hs,ok_bind]
    exact hrun

private theorem ends_test {s : EventLoop.State F} (hp : s.phase = .test) (hq : s.quit = true) : Ends threadId s := by
  have hstep : EventLoop.step threadId s .testQuit = .ok { s with looping := false, phase := .outside } := by
    rw [EventLoop.step,ensure_of _ hp,ok_bind,if_pos hq]
  refine Ends.before ⟨[],_,?_,rfl,rfl,rfl⟩ hstep trivial
  exact fun a ha => absurd ha List.not_mem_nil

private theorem ends_batch {s : EventLoop.State F} (hp : s.phase = .batch) (hq : s.quit = true)
    (hidle : s.pc threadId = .idle) : Ends threadId s := by
  generalize hf : s.functors = fs
  induction fs generalizing s with
  | nil =>
    have hstep : EventLoop.step threadId s .endBatch = .ok { s with callingFunctors := false, phase := .test } := by
      rw [EventLoop.step,ensure_of _ ⟨hp,hf⟩,ok_bind]
    have htest : Ends threadId { s with callingFunctors := false, phase := .test } := ends_test rfl hq
    exact htest.before hstep trivial
  | cons e fs ih =>
    have hcall : EventLoop.step threadId s .callFunctor = .ok { s with
        functors := fs
        executed := s.executed ++ [(e,s.polls)]
        phase := .running } := by
      simp only [EventLoop.step,hp,hf]
    have hend : EventLoop.step threadId { s with
        functors := fs
        executed := s.executed ++ [(e,s.polls)]
        phase := .running } .endFunctor = .ok { s with
        functors := fs
        executed := s.executed ++ [(e,s.polls)]
        phase := .batch } := by
      rw [EventLoop.step,ensure_of _ ⟨rfl,hidle⟩,ok_bind]
    have hrest : Ends threadId { s with
        functors := fs
        executed := s.executed ++ [(e,s.polls)]
        phase := .batch } := ih rfl hq hidle rfl
    exact (hrest.before hend trivial).before hcall trivial

private theorem ends_swap {s : EventLoop.State F} (hp : s.phase = .swap) (hq : s.quit = true)
    (hidle : s.pc threadId = .idle) : Ends threadId s := by
  have hstep : EventLoop.step threadId s .swap =
      .ok { s with functors := s.pendingFunctors, pendingFunctors := [], phase := .batch } := by
    rw [EventLoop.step,ensure_of _ hp,ok_bind]
  have hbatch : Ends threadId { s with functors := s.pendingFunctors, pendingFunctors := [], phase := .batch } :=
    ends_batch rfl hq hidle
  exact hbatch.before hstep trivial

private theorem ends_events {active : List EventLoop.Channel} {s : EventLoop.State F} (hp : s.phase = .events active)
    (hq : s.quit = true) (hidle : s.pc threadId = .idle) : Ends threadId s := by
  induction active generalizing s with
  | nil =>
    have hstep : EventLoop.step threadId s .callingFunctors = .ok { s with callingFunctors := true, phase := .swap } := by
      rw [EventLoop.step,ensure_of _ hp,ok_bind]
    have hswap : Ends threadId { s with callingFunctors := true, phase := .swap } := ends_swap rfl hq hidle
    exact hswap.before hstep trivial
  | cons channel active ih =>
    cases channel with
    | wakeUp =>
      have hstep : EventLoop.step threadId s .handleEvent = .ok { s with wakeUpFd := 0, phase := .events active } := by
        simp only [EventLoop.step,hp]
      have hrest : Ends threadId { s with wakeUpFd := 0, phase := .events active } := ih rfl hq hidle
      exact hrest.before hstep trivial
    | other fd =>
      have hstep : EventLoop.step threadId s .handleEvent = .ok { s with phase := .inEvent active } := by
        simp only [EventLoop.step,hp]
      have hend : EventLoop.step threadId { s with phase := .inEvent active } .endEvent =
          .ok { s with phase := .events active } := by
        simp only [EventLoop.step,ensure_of _ hidle,ok_bind]
      have hrest : Ends threadId { s with phase := .events active } := ih rfl hq hidle
      exact (hrest.before hend trivial).before hstep trivial

/-- User code that is in the middle of a call finishes the call and returns. -/
private theorem ends_callBack {s : EventLoop.State F} (hp : s.phase.inCallBack = true) (hq : s.quit = true)
    (hidle : s.pc threadId = .idle) : Ends threadId s := by
  cases hphase : s.phase with
  | inEvent active =>
    have hstep : EventLoop.step threadId s .endEvent = .ok { s with phase := .events active } := by
      simp only [EventLoop.step,hphase,ensure_of _ hidle,ok_bind]
    have hrest : Ends threadId { s with phase := .events active } := ends_events rfl hq hidle
    exact hrest.before hstep trivial
  | running =>
    have hstep : EventLoop.step threadId s .endFunctor = .ok { s with phase := .batch } := by
      rw [EventLoop.step,ensure_of _ ⟨hphase,hidle⟩,ok_bind]
    have hrest : Ends threadId { s with phase := .batch } := ends_batch rfl hq hidle
    exact hrest.before hstep trivial
  | _ =>
    rw [hphase] at hp
    cases hp

private theorem ends_of_quit {s : EventLoop.State F} (hi : EventLoop.Inv threadId s)
    (ho : s.phase = .outside → s.looping = false) (hq : s.quit = true) : Ends threadId s := by
  by_cases hcall : s.phase.inCallBack = true
  · by_cases hidle : s.pc threadId = .idle
    · exact ends_callBack hcall hq hidle
    · have hreturned : Ends threadId { s with
          wakeUpFd := if threadId ≠ threadId ∨ s.callingFunctors = true then EventLoop.writeWakeUp s.wakeUpFd else s.wakeUpFd
          pc := Function.update s.pc threadId .idle } :=
        ends_callBack hcall hq (Function.update_self ..)
      refine hreturned.before (a := .wakeUp threadId) ?_ rfl
      rw [EventLoop.step,ensure_of _ hidle,ok_bind]
  · have hidle := hi.caller (Bool.eq_false_iff.mpr hcall)
    cases hphase : s.phase with
    | outside => exact ⟨[],s,fun a ha => absurd ha List.not_mem_nil,rfl,hphase,ho hphase⟩
    | test => exact ends_test hphase hq
    | poll =>
      have hready : s.phase = .poll ∧ (.wakeUp ∈ ([] : List EventLoop.Channel) → 0 < s.wakeUpFd) :=
        ⟨hphase,fun h => absurd h List.not_mem_nil⟩
      have hstep : EventLoop.step threadId s (.pollReturn []) = .ok { s with phase := .events [], polls := s.polls + 1 } := by
        rw [EventLoop.step,ensure_of _ hready,ok_bind]
      have hrest : Ends threadId { s with phase := .events [], polls := s.polls + 1 } := ends_events rfl hq hidle
      exact hrest.before hstep trivial
    | events active => exact ends_events hphase hq hidle
    | swap => exact ends_swap hphase hq hidle
    | batch => exact ends_batch hphase hq hidle
    | inEvent active | running =>
      rw [hphase] at hcall
      exact absurd rfl hcall

/-! The thread and its owner. -/

/-- All that a step on the loop can do. -/
inductive RunMove (threadId owner : Thread) (s : State F) : EventLoop.Label F → State F → Prop where
  | enter (l : EventLoop.State F) (hp : s.thread = .published) (hl : EventLoop.step threadId s.loop .loop = .ok l) :
      RunMove threadId owner s .loop { s with loop := l, thread := .looping }
  | own (a : EventLoop.Label F) (l : EventLoop.State F) (ha : a ≠ .loop) (hp : s.thread = .looping)
      (hl : EventLoop.step threadId s.loop a = .ok l) : RunMove threadId owner s a { s with loop := l }
  | call (a : EventLoop.Label F) (l : EventLoop.State F) (o : OwnerPc) (r : Option Nat) (ha : caller threadId a ≠ threadId)
      (hmay : mayCall owner s a) (hl : EventLoop.step threadId s.loop a = .ok l)
      (ho : o = s.owner ∨ s.owner = .exiting ∧ o = .joining)
      (hr : a ≠ .quit owner ∧ r = s.requested ∨ a = .quit owner ∧ r = s.requested.or (some s.loop.polls)) :
      RunMove threadId owner s a { s with loop := l, owner := o, requested := r }

private theorem ownRun_move {s t : State F} {a : EventLoop.Label F} (hs : ownRun threadId s a = .ok t) :
    RunMove threadId owner s a t := by
  by_cases ha : a = .loop
  · subst ha
    simp only [ownRun,bind_ok_iff,ensure_ok_iff,Except.ok.injEq] at hs
    obtain ⟨-,hp,l,hl,rfl⟩ := hs
    exact .enter l hp hl
  · have hown : ownRun threadId s a = (do
        ensure .notEnabled (s.thread = .looping)
        let loop ← EventLoop.step threadId s.loop a
        .ok { s with loop := loop }) := by
      cases a with
      | loop => exact absurd rfl ha
      | _ => rfl
    simp only [hown,bind_ok_iff,ensure_ok_iff,Except.ok.injEq] at hs
    obtain ⟨-,hp,l,hl,rfl⟩ := hs
    exact .own a l ha hp hl

private theorem run_move {s t : State F} {a : EventLoop.Label F} (hs : step threadId owner s (.run a) = .ok t) :
    RunMove threadId owner s a t := by
  simp only [step] at hs
  split at hs
  · exact ownRun_move hs
  · rename_i ha
    simp only [otherRun,bind_ok_iff,ensure_ok_iff,Except.ok.injEq] at hs
    obtain ⟨-,hmay,_,-,l,hl,rfl⟩ := hs
    refine .call a l _ _ ha hmay hl ?_ ?_
    · split
      · rename_i h
        exact .inr ⟨h.2,rfl⟩
      · exact .inl rfl
    · cases a with
      | quit u =>
        by_cases hu : u = owner
        · rw [hu]
          exact .inr ⟨rfl,if_pos rfl⟩
        · exact .inl ⟨fun h => hu (EventLoop.Label.quit.inj h),if_neg hu⟩
      | _ => exact .inl ⟨fun h => (by cases h),rfl⟩

/-- All that a step can do. -/
inductive Move (threadId owner : Thread) (s : State F) : Label F → State F → Prop where
  | run (a : EventLoop.Label F) (t : State F) (hm : RunMove threadId owner s a t) : Move threadId owner s (.run a) t
  | startLoop (ho : s.owner = .idle) : Move threadId owner s .startLoop { s with started := true, owner := .starting }
  | checkStarted (ho : s.owner = .starting) :
      Move threadId owner s .checkStarted { s with owner := if s.pEventLoop then .returned else .waiting }
  | wakeSpuriously (ho : s.owner = .waiting) : Move threadId owner s .wakeSpuriously { s with owner := .starting }
  | construct (hstarted : s.started = true) (hthread : s.thread = .construct) :
      Move threadId owner s .construct { s with loop := EventLoop.initial, thread := .publish }
  | publish (hthread : s.thread = .publish) :
      Move threadId owner s .publish { s with
        pEventLoop := true, thread := .published, owner := if s.owner = .waiting then .starting else s.owner }
  | endThread (hthread : s.thread = .looping) : Move threadId owner s .endThread { s with thread := .finished }
  | destroy (ho : s.owner = .idle ∨ s.owner = .returned) (hgiven : s.pEventLoop = true) :
      Move threadId owner s .destroy { s with exiting := true, owner := .exiting }
  | join (hstarted : s.started = true) : Move threadId owner s .join { s with joined := true, owner := .joined }

private theorem move_of_step {s t : State F} {a : Label F} (hs : step threadId owner s a = .ok t) : Move threadId owner s a t := by
  cases a with
  | run a => exact .run a t (run_move hs)
  | startLoop =>
    simp only [step,bind_ok_iff,ensure_ok_iff,Except.ok.injEq] at hs
    obtain ⟨-,ho,-,-,rfl⟩ := hs
    exact .startLoop ho
  | checkStarted =>
    simp only [step,bind_ok_iff,ensure_ok_iff,Except.ok.injEq] at hs
    obtain ⟨-,ho,rfl⟩ := hs
    exact .checkStarted ho
  | wakeSpuriously =>
    simp only [step,bind_ok_iff,ensure_ok_iff,Except.ok.injEq] at hs
    obtain ⟨-,ho,rfl⟩ := hs
    exact .wakeSpuriously ho
  | construct =>
    simp only [step,bind_ok_iff,ensure_ok_iff,Except.ok.injEq] at hs
    obtain ⟨-,⟨hstarted,hthread⟩,rfl⟩ := hs
    exact .construct hstarted hthread
  | publish =>
    simp only [step,bind_ok_iff,ensure_ok_iff,Except.ok.injEq] at hs
    obtain ⟨-,hthread,rfl⟩ := hs
    exact .publish hthread
  | endThread =>
    simp only [step,bind_ok_iff,ensure_ok_iff,Except.ok.injEq] at hs
    obtain ⟨-,⟨hthread,-⟩,-,-,rfl⟩ := hs
    exact .endThread hthread
  | destroy =>
    simp only [step,bind_ok_iff,ensure_ok_iff,Except.ok.injEq] at hs
    obtain ⟨-,ho,-,hgiven,rfl⟩ := hs
    exact .destroy (ho.imp_right And.left) hgiven
  | join =>
    simp only [step,bind_ok_iff,ensure_ok_iff,Except.ok.injEq] at hs
    obtain ⟨-,-,-,hstarted,-,-,-,-,rfl⟩ := hs
    exact .join hstarted

structure Inv (threadId : Thread) (s : State F) : Prop where
  loop : EventLoop.Inv threadId s.loop
  idle : s.loop.phase = .outside → s.loop.looping = false
  outside : s.thread = .publish ∨ s.thread = .published → s.loop.phase = .outside
  given : s.pEventLoop = true → s.thread ≠ .construct ∧ s.thread ≠ .publish
  handed : s.owner.handedOut = true → s.pEventLoop = true
  started : s.owner ≠ .idle ∨ s.thread ≠ .construct ∨ s.pEventLoop = true → s.started = true
  joined : s.owner ≠ .joined → s.joined = false

private theorem inv_initial : Inv threadId (initial : State F) where
  loop := EventLoop.inv_initial
  idle _ := rfl
  outside h := by rcases h with h | h <;> cases h
  given h := by cases h
  handed h := by cases h
  started h := by
    rcases h with h | h | h
    · exact absurd rfl h
    · exact absurd rfl h
    · cases h
  joined _ := rfl

/-- A call by another thread leaves the loop where it is. -/
private theorem call_phase {s t : EventLoop.State F} {a : EventLoop.Label F} (ha : caller threadId a ≠ threadId)
    (hs : EventLoop.step threadId s a = .ok t) : t.phase = s.phase := by
  cases a with
  | queueInLoop u f | wakeUp u =>
    simp only [EventLoop.step,bind_ok_iff,Except.ok.injEq] at hs
    obtain ⟨_,-,rfl⟩ := hs
    rfl
  | quit u =>
    simp only [EventLoop.step,bind_ok_iff] at hs
    obtain ⟨_,-,hs⟩ := hs
    split at hs <;> cases hs <;> rfl
  | _ => exact absurd rfl ha

private theorem inv_run {s t : State F} {a : EventLoop.Label F} (h : Inv threadId s) (hm : RunMove threadId owner s a t) :
    Inv threadId t := by
  cases hm with
  | enter l hp hl =>
    refine ⟨EventLoop.inv_step h.loop hl,outside_step hl h.idle,fun h => ?_,fun _ => by simp,h.handed,fun _ => ?_,h.joined⟩
    · rcases h with h | h <;> cases h
    · exact h.started (.inr (.inl (by simp [hp])))
  | own a l ha hp hl =>
    refine ⟨EventLoop.inv_step h.loop hl,outside_step hl h.idle,fun h => ?_,h.given,h.handed,h.started,h.joined⟩
    rcases h with h | h <;> cases hp.symm.trans h
  | call a l o r ha hmay hl ho hr =>
    refine ⟨EventLoop.inv_step h.loop hl,outside_step hl h.idle,?_,h.given,?_,?_,?_⟩
    · exact fun hthread => (call_phase ha hl).trans (h.outside hthread)
    · rcases ho with rfl | ⟨hexiting,-⟩
      · exact h.handed
      · exact fun _ => h.handed (by simp [hexiting,OwnerPc.handedOut])
    · rcases ho with rfl | ⟨hexiting,-⟩
      · exact h.started
      · exact fun _ => h.started (.inl (by simp [hexiting]))
    · rcases ho with rfl | ⟨hexiting,-⟩
      · exact h.joined
      · exact fun _ => h.joined (by simp [hexiting])

/-- The owner moves between points where it has not joined. -/
private theorem Inv.move {s : State F} (h : Inv threadId s) (hne : s.owner ≠ .joined) (hstarted : s.started = true)
    (o : OwnerPc) (ho : o.handedOut = true → s.pEventLoop = true) (e : Bool) :
    Inv threadId { s with owner := o, exiting := e } :=
  ⟨h.loop,h.idle,h.outside,h.given,ho,fun _ => hstarted,fun _ => h.joined hne⟩

theorem inv_step {s t : State F} {a : Label F} (h : Inv threadId s) (hs : step threadId owner s a = .ok t) :
    Inv threadId t := by
  cases move_of_step hs with
  | run a t hm => exact inv_run h hm
  | startLoop ho =>
    exact ⟨h.loop,h.idle,h.outside,h.given,fun h => (by cases h),fun _ => rfl,fun _ => h.joined (by simp [ho])⟩
  | checkStarted ho =>
    refine h.move (by simp [ho]) (h.started (.inl (by simp [ho]))) _ (fun hout => ?_) s.exiting
    by_contra hgiven
    rw [if_neg hgiven] at hout
    cases hout
  | wakeSpuriously ho => exact h.move (by simp [ho]) (h.started (.inl (by simp [ho]))) _ (fun h => (by cases h)) s.exiting
  | construct hstarted hthread =>
    exact ⟨EventLoop.inv_initial,fun _ => rfl,fun _ => rfl,fun hgiven => absurd hthread (h.given hgiven).1,h.handed,
      fun _ => hstarted,h.joined⟩
  | publish hthread =>
    refine ⟨h.loop,h.idle,fun _ => h.outside (.inl hthread),fun _ => by simp,fun _ => rfl,
      fun _ => h.started (.inr (.inl (by simp [hthread]))),fun hne => ?_⟩
    refine h.joined fun howner => hne ?_
    simp [howner]
  | endThread hthread =>
    refine ⟨h.loop,h.idle,fun h => ?_,fun _ => by simp,h.handed,fun _ => h.started (.inr (.inl (by simp [hthread]))),h.joined⟩
    rcases h with h | h <;> cases h
  | destroy ho hgiven =>
    have hne : s.owner ≠ .joined := by rcases ho with ho | ho <;> simp [ho]
    exact h.move hne (h.started (.inr (.inr hgiven))) _ (fun _ => hgiven) true
  | join hstarted =>
    exact ⟨h.loop,h.idle,h.outside,h.given,fun h => (by cases h),fun _ => hstarted,fun h => absurd rfl h⟩

/-- What a request keeps, from when it is made in Loop(). -/
def Kept (s : State F) : Prop :=
  ∀ p, s.requested = some p → (s.thread = .looping ∨ s.thread = .finished) ∧ s.loop.quit = true ∧
    (s.loop.polls = p ∨ s.loop.polls = p + 1 ∧ s.loop.phase ≠ .poll)

private theorem quit_sets {s l : EventLoop.State F} {u : Thread} (hl : EventLoop.step threadId s (.quit u) = .ok l) :
    l.quit = true ∧ l.polls = s.polls := by
  simp only [EventLoop.step,bind_ok_iff] at hl
  obtain ⟨_,-,hl⟩ := hl
  split at hl <;> cases hl <;> exact ⟨rfl,rfl⟩

private theorem kept_loop {s l : EventLoop.State F} {a : EventLoop.Label F} (ha : a ≠ .loop)
    (hl : EventLoop.step threadId s a = .ok l) {p : Nat} (hq : s.quit = true)
    (hpolls : s.polls = p ∨ s.polls = p + 1 ∧ s.phase ≠ .poll) :
    l.quit = true ∧ (l.polls = p ∨ l.polls = p + 1 ∧ l.phase ≠ .poll) := by
  obtain ⟨hquit,⟨hsame,hphase⟩ | ⟨hmore,hpoll,hphase⟩⟩ := quit_step ha hl hq
  · rw [hsame]
    exact ⟨hquit,hpolls.imp_right fun h => ⟨h.1,fun hp => h.2 (hphase hp)⟩⟩
  · rcases hpolls with hpolls | ⟨-,hno⟩
    · exact ⟨hquit,.inr ⟨by rw [hmore,hpolls],hphase⟩⟩
    · exact absurd hpoll hno

private theorem kept_run {s t : State F} {a : EventLoop.Label F} (h : Kept s) (hc : QuitsInLoop owner s (.run a))
    (hm : RunMove threadId owner s a t) : Kept t := by
  intro p hp
  cases hm with
  | enter l hthread hl =>
    obtain ⟨hin | hin,-⟩ := h p hp <;> cases hthread.symm.trans hin
  | own a l ha hthread hl =>
    obtain ⟨hin,hq,hpolls⟩ := h p hp
    exact ⟨hin,kept_loop ha hl hq hpolls⟩
  | call a l o r ha hmay hl ho hr =>
    have hne : a ≠ .loop := fun h => ha (by rw [h]; rfl)
    rcases hr with ⟨-,rfl⟩ | ⟨rfl,rfl⟩
    · obtain ⟨hin,hq,hpolls⟩ := h p hp
      exact ⟨hin,kept_loop hne hl hq hpolls⟩
    · cases hreq : s.requested with
      | some q =>
        rw [hreq] at hp
        cases hp
        obtain ⟨hin,hq,hpolls⟩ := h p hreq
        exact ⟨hin,kept_loop hne hl hq hpolls⟩
      | none =>
        rw [hreq] at hp
        cases hp
        obtain ⟨hquit,hpolls⟩ := quit_sets hl
        exact ⟨hc rfl,hquit,.inl hpolls⟩

private theorem kept_step {s t : State F} {a : Label F} (h : Kept s) (hc : QuitsInLoop owner s a)
    (hs : step threadId owner s a = .ok t) : Kept t := by
  cases move_of_step hs with
  | run a t hm => exact kept_run h hc hm
  | startLoop | checkStarted | wakeSpuriously | destroy | join => exact h
  | construct _ hthread | publish hthread =>
    intro p hp
    obtain ⟨hin | hin,-⟩ := h p hp <;> cases hthread.symm.trans hin
  | endThread =>
    intro p hp
    exact ⟨.inr rfl,(h p hp).2⟩

private theorem own_step {s : State F} (hthread : s.thread = .looping) {a : EventLoop.Label F} {l : EventLoop.State F}
    (ha : Own threadId a) (hl : EventLoop.step threadId s.loop a = .ok l) :
    step threadId owner s (.run a) = .ok { s with loop := l } := by
  cases a with
  | loop | queueInLoop u f | quit u => exact absurd ha id
  | wakeUp u =>
    have hcaller : caller threadId (EventLoop.Label.wakeUp u : EventLoop.Label F) = threadId := ha
    simp only [step,hcaller,if_true,ownRun,ensure_of _ hthread,ok_bind,hl]
  | _ => simp only [step,caller,if_true,ownRun,ensure_of _ hthread,ok_bind,hl]

private theorem own_pc {s l : EventLoop.State F} {a : EventLoop.Label F} (ha : Own threadId a)
    (hl : EventLoop.step threadId s a = .ok l) {u : Thread} (hu : s.pc u = .idle) : l.pc u = .idle := by
  cases a with
  | loop | queueInLoop v f | quit v => exact absurd ha id
  | wakeUp v =>
    simp only [EventLoop.step,bind_ok_iff,Except.ok.injEq] at hl
    obtain ⟨_,-,rfl⟩ := hl
    simp only [Function.update_apply]
    split
    · rfl
    · exact hu
  | testQuit =>
    simp only [EventLoop.step,bind_ok_iff] at hl
    obtain ⟨_,-,hl⟩ := hl
    split at hl <;> cases hl <;> exact hu
  | handleEvent | callFunctor =>
    simp only [EventLoop.step] at hl
    split at hl <;> cases hl <;> exact hu
  | endEvent =>
    simp only [EventLoop.step] at hl
    split at hl
    · simp only [bind_ok_iff,Except.ok.injEq] at hl
      obtain ⟨_,-,rfl⟩ := hl
      exact hu
    · cases hl
  | pollReturn active | callingFunctors | swap | endFunctor | endBatch =>
    simp only [EventLoop.step,bind_ok_iff,Except.ok.injEq] at hl
    obtain ⟨_,-,rfl⟩ := hl
    exact hu

/-- Steps of the loop's own thread are steps of the whole, and end no other thread's peace. -/
private theorem run_own (owner : Thread) {s : State F} (hthread : s.thread = .looping) {as : List (EventLoop.Label F)}
    {l : EventLoop.State F} (hown : ∀ a ∈ as, Own threadId a) (hr : (EventLoop.machine threadId).run s.loop as = .ok l) :
    (machine threadId owner).run s (as.map .run) = .ok { s with loop := l } ∧
      ∀ u, s.loop.pc u = .idle → l.pc u = .idle := by
  induction as generalizing s with
  | nil => cases hr; exact ⟨rfl,fun _ hu => hu⟩
  | cons a as ih =>
    obtain ⟨l₁,hl,hr⟩ := (bind_ok_iff _ _ _).mp hr
    have ha := hown a List.mem_cons_self
    have hstep : step threadId owner s (.run a) = .ok { s with loop := l₁ } := own_step hthread ha hl
    obtain ⟨hrun,hpc⟩ := ih (s := { s with loop := l₁ }) hthread (fun a ha => hown a (List.mem_cons_of_mem _ ha)) hr
    refine ⟨?_,fun u hu => hpc u (own_pc ha hl hu)⟩
    rw [List.map_cons,Machine.run_cons]
    change step threadId owner s (.run a) >>= _ = _
    rw [hstep,ok_bind]
    exact hrun

/-- The thread can finish, and then nothing keeps the owner in Join(). -/
def CanFinish (threadId owner : Thread) (s : State F) : Prop :=
  ∃ more t, (machine threadId owner).run s more = .ok t ∧ t.thread = .finished ∧
    (s.owner = .joining → s.loop.pc owner = .idle → ∃ u, step threadId owner t .join = .ok u)

private theorem canFinish_of_kept {s : State F} (h : Inv threadId s) (hk : Kept s) {p : Nat} (hp : s.requested = some p) :
    CanFinish threadId owner s := by
  have hjoin : ∀ l : EventLoop.State F, s.owner = .joining → l.pc owner = .idle →
      ∃ u, step threadId owner { s with loop := l, thread := .finished } .join = .ok u := by
    intro l howner hpc
    have hjoined := h.joined (by simp [howner])
    have hstarted := h.started (.inl (by simp [howner]))
    refine ⟨{ s with loop := l, thread := .finished, joined := true, owner := .joined },?_⟩
    rw [step,ensure_of _ ⟨howner,hpc⟩,ensure_of _ hstarted,ensure_of _ hjoined,ensure_of _ rfl]
    rfl
  obtain ⟨hthread | hthread,hq,-⟩ := hk p hp
  · obtain ⟨as,l,hown,hr,hout,hlooping⟩ := ends_of_quit h.loop h.idle hq
    obtain ⟨hrun,hpc⟩ := run_own owner hthread hown hr
    have hend : step threadId owner { s with loop := l } .endThread = .ok { s with loop := l, thread := .finished } := by
      rw [step,ensure_of _ ⟨hthread,hout⟩,ensure_of _ hlooping]
      rfl
    refine ⟨as.map .run ++ [.endThread],{ s with loop := l, thread := .finished },?_,rfl,?_⟩
    · rw [Machine.run_append,hrun,ok_bind,Machine.run_cons]
      change step threadId owner { s with loop := l } .endThread >>= _ = _
      rw [hend]
      rfl
    · exact fun howner hidle => hjoin l howner (hpc owner hidle)
  · refine ⟨[],s,rfl,hthread,fun howner hidle => ?_⟩
    have hsame : { s with loop := s.loop, thread := .finished } = s := by rw [← hthread]
    have hgo := hjoin s.loop howner hidle
    rwa [hsame] at hgo

/-- A request of the owner that is not lost: the flag stays set, at most one pass is
begun after it, and the thread can finish. -/
def RequestKept (threadId owner : Thread) (s : State F) : Prop :=
  ∀ p, s.requested = some p → s.loop.quit = true ∧ s.loop.polls ≤ p + 1 ∧ CanFinish threadId owner s

/-- In every run in which the owner calls Quit() only after the thread has passed the
m_bQuit = false of Loop(), no request is lost. Called in the window before that, Quit()
is undone by the thread's next step. -/
theorem quit_kept_iff_in_loop :
    (∀ (as : List (Label F)) s, (machine threadId owner).run initial as = .ok s →
      (machine threadId owner).Along (QuitsInLoop owner) initial as → RequestKept threadId owner s) ∧
    ∀ s u : State F, (machine threadId owner).Reachable s → step threadId owner s (.run (.quit owner)) = .ok u →
      ¬ QuitsInLoop owner s (.run (.quit owner)) →
      ∃ t, step threadId owner u (.run .loop) = .ok t ∧ t.requested ≠ none ∧ t.loop.quit = false := by
  constructor
  · intro as s hr hc p hp
    have hinit : Inv threadId (initial : State F) ∧ Kept (initial : State F) :=
      ⟨inv_initial,fun p hp => (by cases hp)⟩
    obtain ⟨hi,hk⟩ := (machine threadId owner).run_along (P := fun s => Inv threadId s ∧ Kept s)
      (fun s a t h ha hs => ⟨inv_step h.1 hs,kept_step h.2 ha hs⟩) hinit hc hr
    obtain ⟨-,hq,hpolls⟩ := hk p hp
    refine ⟨hq,?_,canFinish_of_kept hi hk hp⟩
    rcases hpolls with hpolls | ⟨hpolls,-⟩ <;> omega
  · intro s u hreach hs hearly
    have hi : Inv threadId s := by
      refine hreach.invariant (P := Inv threadId) (fun s hs => ?_) fun s a t h hs => inv_step h hs
      rw [show s = initial from hs]
      exact inv_initial
    have hu := inv_step hi hs
    have hin : s.thread ≠ .looping ∧ s.thread ≠ .finished :=
      ⟨fun h => hearly fun _ => .inl h,fun h => hearly fun _ => .inr h⟩
    have hm := run_move hs
    generalize hlabel : (EventLoop.Label.quit owner : EventLoop.Label F) = a at hm
    cases hm with
    | enter => cases hlabel
    | own a l ha hp => exact absurd hp hin.1
    | call a l o r ha hmay hl ho hr =>
      subst hlabel
      obtain ⟨hconstruct,hpublish⟩ := hi.given (hi.handed hmay.1)
      have hthread : s.thread = .published := by
        cases hp : s.thread with
        | published => rfl
        | construct => exact absurd hp hconstruct
        | publish => exact absurd hp hpublish
        | looping => exact absurd hp hin.1
        | finished => exact absurd hp hin.2
      have hphase : l.phase = .outside := hu.outside (.inr hthread)
      have hidle : l.pc threadId = .idle := hu.loop.caller (by rw [hphase]; rfl)
      have hloop : EventLoop.step threadId l .loop = .ok { l with looping := true, quit := false, phase := .test } := by
        rw [EventLoop.step,ensure_of _ ⟨hphase,hidle⟩,ensure_of _ (hu.idle hphase)]
        rfl
      let t : State F := { s with
        loop := { l with looping := true, quit := false, phase := .test }
        owner := o
        requested := r
        thread := .looping }
      refine ⟨t,?_,?_,rfl⟩
      · simp only [step,caller,if_true,ownRun,hthread,ensure_of,ok_bind,hloop,t]
      · rcases hr with ⟨hne,-⟩ | ⟨-,rfl⟩
        · exact absurd rfl hne
        · change s.requested.or (some s.loop.polls) ≠ none
          cases s.requested <;> simp

/-- The loop is in Poll() when the owner destroys the object. -/
theorem quit_kept_iff_in_loop_polling : ∃ s, (machine 1 0 (F := Nat)).Reachable s ∧ s.requested = some 0 ∧
    s.owner = .joining ∧ CanFinish 1 0 s := by
  let labels : List (Label Nat) := [.startLoop,.construct,.publish,.checkStarted,.run .loop,.run .testQuit,.destroy,
    .run (.quit 0),.run (.wakeUp 0)]
  obtain ⟨s,hr,hv⟩ := (machine 1 0 (F := Nat)).exists_run_eq (s := initial) labels (fun s => (s.requested,s.owner))
    (b := (some 0,.joining)) (by decide +kernel)
  simp only [Prod.mk.injEq] at hv
  obtain ⟨-,-,hfinish⟩ := quit_kept_iff_in_loop.1 labels s hr (by decide +kernel) 0 hv.1
  exact ⟨s,⟨initial,labels,rfl,hr⟩,hv.1,hv.2,hfinish⟩

/-- The owner destroys the object as soon as StartLoop() has returned; the loop waits in
Poll() without the flag, and the owner in Join(). -/
theorem early_quit_lost : ∃ s, (machine 1 0 (F := Nat)).Reachable s ∧ s.requested = some 0 ∧ s.loop.quit = false ∧
    s.loop.phase = .poll ∧ s.owner = .joining ∧ s.loop.pc 0 = .idle := by
  let labels : List (Label Nat) := [.startLoop,.construct,.publish,.checkStarted,.destroy,.run (.quit 0),.run (.wakeUp 0),
    .run .loop,.run .testQuit]
  obtain ⟨s,hr,hv⟩ := (machine 1 0 (F := Nat)).exists_reachable rfl labels
    (fun s => (s.requested,s.loop.quit,s.loop.phase,s.owner,s.loop.pc 0)) (b := (some 0,false,.poll,.joining,.idle))
    (by decide +kernel)
  simp only [Prod.mk.injEq] at hv
  exact ⟨s,hr,hv⟩

end Machine
end LinuxServer.Reactor.EventLoopThread
