import LinuxServer.Reactor.Connector

/-! The connector's assertions. A retry leaves state Connected, which the callback of
its own timer does not accept; all other assertions hold. The timer cannot be taken back. -/
namespace LinuxServer.Reactor.Connector
open LinuxServer.Lib

section Assertions
variable {s t : State} {a : Label}

/-- The callback of a retry timer runs. -/
def RetryTimerFires (s : State) : Label → Prop
  | .fire => s.loop = .idle ∧ s.phase = .events ∧ s.expired ≠ []
  | _ => False

/-- The step runs startInLoop for Start or Restart. -/
def RunsStart (s : State) : Label → Prop
  | .loop => s.loop = .startInLoop
  | .functor => s.loop = .idle ∧ s.phase = .functors ∧ s.functors.head? = some .startInLoop
  | _ => False

/-- No retry timer fires, and a start comes before any attempt, or from Restart. -/
def Legal (s : State) (a : Label) : Prop := ¬ RetryTimerFires s a ∧ (RunsStart s a → s.attempted = false)

/-- An assertion fails or a null pointer is used. -/
def Fails (x : Except Halt State) : Prop := ∃ e, x = .error e ∧ e ≠ .notEnabled

private theorem not_fails_ok : ¬ Fails (.ok s) := by
  rintro ⟨e,he,-⟩
  cases he

private theorem not_fails_notEnabled : ¬ Fails (.error .notEnabled) := by
  rintro ⟨e,he,hne⟩
  cases he
  exact hne rfl

private theorem fails_guarded {p : Prop} [Decidable p] {x : Except Halt State} :
    Fails (do ensure .notEnabled p; x) ↔ p ∧ Fails x := by
  by_cases hp : p
  · rw [ensure_of _ hp,ok_bind]
    exact (and_iff_right hp).symm
  · rw [ensure_not _ hp]
    exact iff_of_false not_fails_notEnabled fun h => hp h.1

private theorem fails_startInLoop : Fails s.startInLoop ↔ s.state ≠ .disconnected := by
  by_cases hs : s.state = .disconnected
  · rw [State.startInLoop,ensure_of _ hs]
    exact iff_of_false not_fails_ok (not_not.mpr hs)
  · rw [State.startInLoop,ensure_not _ hs]
    exact iff_of_true ⟨_,rfl,by simp⟩ hs

private theorem not_fails_connect {errno : Errno} (hc : s.channel = none) : ¬ Fails (s.connect errno) := by
  cases errno with
  | success | EINPROGRESS | EINTR | EISCONN =>
    rw [State.connect,State.connecting,ensure_of _ hc]
    exact not_fails_ok
  | _ => exact not_fails_ok

private theorem not_fails_lost (h : Inv s) {fd : Nat} (hlive : fd ∈ s.live) : ¬ Fails (s.removeConnection fd) := by
  rcases h.live with hl | ⟨fd',hl,hu⟩
  · rw [hl] at hlive
    cases hlive
  · rw [hl,List.mem_singleton] at hlive
    rw [State.removeConnection,hu.tcpConnection]
    simp only [ensure_of _ hlive,ok_bind]
    exact not_fails_ok

/-- No retry timer, no call and no functor but these bring an assertion down. -/
theorem fails_iff (h : Inv s) : Fails (step s a) ↔ ¬ Legal s a := by
  have hstate : ∀ {s' : State}, s'.state = s.state → (Fails s'.startInLoop ↔ s.attempted ≠ false) := by
    intro s' hs'
    rw [fails_startInLoop,hs']
    exact (not_congr h.attempted).symm
  have hlegal : (¬ RetryTimerFires s a) → (¬ RunsStart s a) → ¬ Fails (step s a) → (Fails (step s a) ↔ ¬ Legal s a) := by
    intro hfire hruns hok
    exact iff_of_false hok (not_not.mpr ⟨hfire,fun hr => absurd hr hruns⟩)
  cases a with
  | enableRetry | disConnect | stopCall => exact hlegal id id not_fails_ok
  | connectCall | start | queueStart | stopConnector | queueCancel | loopConnect | loopStop | poll | expire | doPendingFunctors =>
    exact hlegal id id fun hf => not_fails_ok (fails_guarded.mp hf).2
  | connect errno =>
    refine hlegal id id fun hf => ?_
    obtain ⟨hloop,hf⟩ := fails_guarded.mp hf
    exact not_fails_connect (h.fresh (h.connect hloop)).1 hf
  | lost fd =>
    refine hlegal id id fun hf => ?_
    obtain ⟨⟨-,-,-,hlive⟩,hf⟩ := fails_guarded.mp hf
    exact not_fails_lost h hlive hf
  | handleEvent error write soError selfConnect =>
    refine hlegal id id fun hf => ?_
    simp only [step] at hf
    split at hf
    · exact not_fails_notEnabled hf
    · rename_i c hc
      obtain ⟨fd,registered⟩ := c
      obtain ⟨⟨-,-,rfl,-⟩,hf⟩ := fails_guarded.mp hf
      obtain ⟨-,hstate,-⟩ := h.attempt_of_registered hc
      obtain ⟨u,hu,-⟩ := handleEvent_event (s := { s with active := s.active.filter (· ≠ fd) }) error write soError
        selfConnect hc hstate
      rw [hu] at hf
      exact not_fails_ok hf
  | loop =>
    by_cases hl : s.loop = .startInLoop
    · have hstep : step s .loop = s.startInLoop := by simp only [step,hl]
      rw [hstep,hstate rfl]
      simp only [Legal,RetryTimerFires,RunsStart,not_false_eq_true,hl,forall_const,true_and,ne_eq]
    · refine hlegal id hl ?_
      cases hloop : s.loop with
      | startInLoop => exact absurd hloop hl
      | start | stop | restart =>
        simp only [step,hloop]
        exact not_fails_ok
      | idle | connect =>
        simp only [step,hloop]
        exact not_fails_notEnabled
  | fire =>
    cases hexpired : s.expired with
    | nil =>
      refine hlegal (fun hfire => hfire.2.2 hexpired) id ?_
      simp only [step,hexpired]
      exact not_fails_notEnabled
    | cons timerId rest =>
      -- a timer was pending, so the connector is not fresh
      have hbusy : s.attempted ≠ false := by
        intro hatt
        cases hexpired.symm.trans (h.fresh (h.attempted.mp hatt)).2.1.2
      have hstep : Fails (step s .fire) ↔ (s.loop = .idle ∧ s.phase = .events) ∧ s.attempted ≠ false := by
        simp only [step,hexpired]
        exact fails_guarded.trans (and_congr_right fun _ => hstate rfl)
      rw [hstep,and_iff_left hbusy]
      simp [Legal,RetryTimerFires,RunsStart,hexpired]
  | functor =>
    cases hfunctors : s.functors with
    | nil =>
      refine hlegal id (fun hr => ?_) ?_
      · have hhead := hr.2.2
        rw [hfunctors] at hhead
        cases hhead
      · simp only [step,hfunctors]
        exact not_fails_notEnabled
    | cons f rest =>
      cases f with
      | startInLoop =>
        have hstep : Fails (step s .functor) ↔ (s.loop = .idle ∧ s.phase = .functors) ∧ s.attempted ≠ false := by
          simp only [step,hfunctors,State.runFunctor]
          exact fails_guarded.trans (and_congr_right fun _ => hstate rfl)
        rw [hstep]
        simp [Legal,RetryTimerFires,RunsStart,hfunctors,and_assoc]
      | resetChannel | cancelInLoop =>
        refine hlegal id (fun hr => ?_) ?_
        · have hhead := hr.2.2
          rw [hfunctors] at hhead
          cases hhead
        · simp only [step,hfunctors,State.runFunctor]
          exact fun hf => not_fails_ok (fails_guarded.mp hf).2

/-- For every run: an assertion of the connector fails, or a null pointer is used,
exactly if at some step a retry timer fires, or a start comes behind an attempt that
went beyond the hard errors without a Restart in between. -/
theorem assertions_hold_iff (labels : List Label) :
    (∀ e, machine.run initial labels = .error e → e = .notEnabled) ↔ machine.Along Legal initial labels := by
  have hrun : Fails (machine.run initial labels) ↔ ¬ machine.Along Legal initial labels :=
    machine.run_fails_iff (· ≠ .notEnabled) (fun _ _ _ => inv_step) (fun _ _ => fails_iff) inv_initial
  rw [← not_iff_not,← hrun,Fails]
  push Not
  rfl

/-- A refused attempt, and its retry timer fires while the connector is still wanted. -/
theorem retry_fails_assertion : ∃ s, machine.Reachable s ∧ s.bConnect = true ∧ s.closed = [0] ∧ s.expired = [1] ∧
    step s .fire = .error (.assertion "eCS_Disconnected == m_eConnectState") := by
  let labels : List Label := [.connectCall,.start,.queueStart,.poll,.doPendingFunctors,.functor,.connect .ECONNREFUSED,.poll,.expire 1]
  obtain ⟨s,hr,hv⟩ := machine.exists_reachable rfl labels
    (fun s => (s.bConnect,s.closed,s.expired,(step s .fire).map fun _ => ()))
    (b := (true,[0],[1],.error (.assertion "eCS_Disconnected == m_eConnectState"))) (by decide +kernel)
  simp only [Prod.mk.injEq] at hv
  exact ⟨s,hr,hv.1,hv.2.1,hv.2.2.1,(map_error_iff _ _ _).mp hv.2.2.2⟩

end Assertions

section RetryTimers
variable {s t : State} {a : Label}

/-- What a step makes of the retry timers. -/
inductive Timed (s : State) (a : Label) (t : State) : Prop where
  | kept (ht : t.timers = s.timers) (hid : t.timerId = s.timerId) (hn : t.nextTimer = s.nextTimer) (he : t.expired = s.expired)
  | added (delayMs : Nat) (ht : t.timers = s.timers ++ [(s.nextTimer,delayMs)]) (hid : t.timerId = ⟨s.nextTimer,0⟩)
      (hn : t.nextTimer = s.nextTimer + 1) (he : t.expired = s.expired)
  | cancelled (id : TimerId) (hc : id = s.timerId ∨ .cancelInLoop id ∈ s.functors) (ht : t.timers = (s.cancelInLoop id).timers)
      (hid : t.timerId = s.timerId) (hn : t.nextTimer = s.nextTimer) (he : t.expired = s.expired)
  | expired (timerId : Nat) (ha : a = .expire timerId) (ht : t.timers = s.timers.filter (·.1 ≠ timerId))
      (hid : t.timerId = s.timerId) (hn : t.nextTimer = s.nextTimer) (he : t.expired = s.expired ++ [timerId])

/-- A Cancel is queued with the id that the connector holds. -/
def Held (s t : State) : Prop := ∀ id, .cancelInLoop id ∈ t.functors ++ t.pendingFunctors →
  id = s.timerId ∨ .cancelInLoop id ∈ s.functors ++ s.pendingFunctors

private theorem held_same (hf : t.functors = s.functors) (hp : t.pendingFunctors = s.pendingFunctors) : Held s t := by
  intro id hm
  rw [hf,hp] at hm
  exact .inr hm

private theorem held_push {f : Functor} (hid : ∀ id, f = .cancelInLoop id → id = s.timerId) (hf : t.functors = s.functors)
    (hp : t.pendingFunctors = s.pendingFunctors ++ [f]) : Held s t := by
  intro id hm
  rw [hf,hp,← List.append_assoc] at hm
  rcases List.mem_append.mp hm with hm | hm
  · exact .inr hm
  · exact .inl (hid id (List.mem_singleton.mp hm).symm)

private theorem held_popped {f : Functor} {rest : List Functor} (hf : s.functors = f :: rest) (hf' : t.functors = rest)
    (hp : t.pendingFunctors = s.pendingFunctors) : Held s t := by
  intro id hm
  rw [hf',hp] at hm
  rw [hf]
  exact .inr (List.mem_cons_of_mem _ hm)

private theorem timed_retry {u : State} (fd : Nat) (ht : u.timers = s.timers) (hid : u.timerId = s.timerId)
    (hn : u.nextTimer = s.nextTimer) (he : u.expired = s.expired) : Timed s a (u.retry fd) := by
  by_cases hc : u.bConnect = true
  · simp only [State.retry,hc,if_true]
    exact .added u.retryDelayMs (by rw [ht,hn]) (by rw [hn]) (by rw [hn]) he
  · simp only [State.retry,if_neg hc]
    exact .kept ht hid hn he

private theorem timed_connect {errno : Errno} (hs : s.connect errno = .ok t) : Timed s a t ∧ Held s t := by
  rcases connect_cases hs with ⟨-,rfl⟩ | rfl | rfl
  · exact ⟨.kept rfl rfl rfl rfl,held_same rfl rfl⟩
  · refine ⟨timed_retry _ rfl rfl rfl rfl,?_⟩
    obtain ⟨_,_,_,_,heq⟩ := retry_eq { s with nextFd := s.nextFd + 1, loop := .idle } s.nextFd
    rw [heq]
    exact held_same rfl rfl
  · exact ⟨.kept rfl rfl rfl rfl,held_same rfl rfl⟩

private theorem timed_event {fd soError : Nat} {error write : Bool} {active : List Nat}
    (hs : Event { s with active := active } fd error write soError t) : Timed s a t ∧ Held s t := by
  have hreset : ∀ id, Functor.resetChannel = .cancelInLoop id → id = s.timerId := fun id h => by cases h
  cases hs with
  | nothing => exact ⟨.kept rfl rfl rfl rfl,held_same rfl rfl⟩
  | retried =>
    refine ⟨timed_retry _ rfl rfl rfl rfl,?_⟩
    obtain ⟨_,_,_,_,heq⟩ := retry_eq (State.removed { s with active := active } fd) fd
    rw [heq]
    exact held_push hreset rfl rfl
  | kept | passed | closed => exact ⟨.kept rfl rfl rfl rfl,held_push hreset rfl rfl⟩

private theorem timed_startInLoop (hs : s.startInLoop = .ok t) : Timed s a t ∧ Held s t := by
  obtain ⟨-,rfl⟩ := startInLoop_ok_iff.mp hs
  exact ⟨.kept rfl rfl rfl rfl,held_same rfl rfl⟩

private theorem timed_runFunctor {f : Functor} {rest : List Functor} (hf : s.functors = f :: rest)
    (hs : State.runFunctor { s with functors := rest } f = .ok t) : Timed s a t ∧ Held s t := by
  cases f with
  | startInLoop =>
    obtain ⟨-,rfl⟩ := startInLoop_ok_iff.mp hs
    exact ⟨.kept rfl rfl rfl rfl,held_popped hf rfl rfl⟩
  | resetChannel =>
    cases hs
    exact ⟨.kept rfl rfl rfl rfl,held_popped hf rfl rfl⟩
  | cancelInLoop id =>
    cases hs
    exact ⟨.cancelled id (.inr (hf ▸ List.mem_cons_self)) rfl rfl rfl rfl,held_popped hf rfl rfl⟩

theorem timed_of_step (h : Inv s) (hs : step s a = .ok t) : Timed s a t ∧ Held s t := by
  cases a with
  | enableRetry | disConnect | stopCall =>
    cases hs
    exact ⟨.kept rfl rfl rfl rfl,held_same rfl rfl⟩
  | connectCall | start | stopConnector | loopConnect | loopStop | poll =>
    simp only [step,bind_ok_iff,ensure_ok_iff,Except.ok.injEq] at hs
    obtain ⟨-,-,rfl⟩ := hs
    exact ⟨.kept rfl rfl rfl rfl,held_same rfl rfl⟩
  | queueStart =>
    simp only [step,bind_ok_iff,ensure_ok_iff,Except.ok.injEq] at hs
    obtain ⟨-,-,rfl⟩ := hs
    exact ⟨.kept rfl rfl rfl rfl,held_push (f := .startInLoop) (fun id h => by cases h) rfl rfl⟩
  | queueCancel =>
    simp only [step,bind_ok_iff,ensure_ok_iff,Except.ok.injEq] at hs
    obtain ⟨-,-,rfl⟩ := hs
    refine ⟨.kept rfl rfl rfl rfl,held_push (f := .cancelInLoop s.timerId) (fun id h => ?_) rfl rfl⟩
    cases h
    rfl
  | loop =>
    simp only [step] at hs
    split at hs
    · cases hs
      exact ⟨.kept rfl rfl rfl rfl,held_same rfl rfl⟩
    · cases hs
      exact ⟨.cancelled s.timerId (.inl rfl) rfl rfl rfl rfl,held_same rfl rfl⟩
    · cases hs
      exact ⟨.kept rfl rfl rfl rfl,held_same rfl rfl⟩
    · exact timed_startInLoop hs
    · cases hs
    · cases hs
  | connect errno =>
    simp only [step,bind_ok_iff,ensure_ok_iff] at hs
    obtain ⟨-,-,hs⟩ := hs
    exact timed_connect hs
  | handleEvent error write soError selfConnect =>
    obtain ⟨fd,-,-,-,hevent⟩ := event_of_step h hs
    exact timed_event hevent
  | lost fd =>
    simp only [step,bind_ok_iff,ensure_ok_iff] at hs
    obtain ⟨-,-,hs⟩ := hs
    unfold State.removeConnection at hs
    split at hs
    · simp only [bind_ok_iff,ensure_ok_iff,Except.ok.injEq] at hs
      obtain ⟨-,-,rfl⟩ := hs
      exact ⟨.kept rfl rfl rfl rfl,held_same rfl rfl⟩
    · cases hs
  | expire timerId =>
    simp only [step,bind_ok_iff,ensure_ok_iff,Except.ok.injEq] at hs
    obtain ⟨-,-,rfl⟩ := hs
    exact ⟨.expired timerId rfl rfl rfl rfl rfl,held_same rfl rfl⟩
  | fire => exact absurd hs (fire_not_ok h)
  | doPendingFunctors =>
    simp only [step,bind_ok_iff,ensure_ok_iff,Except.ok.injEq] at hs
    obtain ⟨-,-,rfl⟩ := hs
    refine ⟨.kept rfl rfl rfl rfl,fun id hm => .inr ?_⟩
    rw [List.append_nil] at hm
    exact List.mem_append_right _ hm
  | functor =>
    simp only [step] at hs
    split at hs
    · cases hs
    · rename_i f rest hf
      simp only [bind_ok_iff,ensure_ok_iff] at hs
      obtain ⟨-,-,hs⟩ := hs
      exact timed_runFunctor hf hs

/-- Every timer has a sequence, and no id that is held or queued has one. -/
structure Unnamed (s : State) : Prop where
  inv : Inv s
  timerId : s.timerId.seq = 0
  queued : ∀ id, .cancelInLoop id ∈ s.functors ++ s.pendingFunctors → id.seq = 0
  next : 0 < s.nextTimer
  timers : ∀ timer ∈ s.timers, 0 < timer.1

/-- Cancel finds no retry timer. -/
theorem cancelInLoop_timers (h : Unnamed s) {id : TimerId} (hid : id.seq = 0) : (s.cancelInLoop id).timers = s.timers := by
  refine List.filter_eq_self.mpr fun timer hm => ?_
  have hpos := h.timers timer hm
  simp only [hid,decide_eq_true_eq]
  omega

private theorem seq_of_cancelled (h : Unnamed s) {id : TimerId} (hc : id = s.timerId ∨ .cancelInLoop id ∈ s.functors) :
    id.seq = 0 := by
  rcases hc with rfl | hc
  · exact h.timerId
  · exact h.queued id (List.mem_append_left _ hc)

theorem unnamed_step (h : Unnamed s) (hs : step s a = .ok t) : Unnamed t := by
  obtain ⟨htimed,hheld⟩ := timed_of_step h.inv hs
  have hqueued : ∀ id, .cancelInLoop id ∈ t.functors ++ t.pendingFunctors → id.seq = 0 := by
    intro id hm
    rcases hheld id hm with rfl | hm
    · exact h.timerId
    · exact h.queued id hm
  have hinv := inv_step h.inv hs
  cases htimed with
  | kept ht hid hn => exact ⟨hinv,hid ▸ h.timerId,hqueued,hn ▸ h.next,ht ▸ h.timers⟩
  | added delayMs ht hid hn =>
    refine ⟨hinv,by rw [hid],hqueued,by omega,fun timer hm => ?_⟩
    rw [ht] at hm
    rcases List.mem_append.mp hm with hm | hm
    · exact h.timers timer hm
    · cases List.mem_singleton.mp hm
      exact h.next
  | cancelled id hc ht hid hn =>
    rw [cancelInLoop_timers h (seq_of_cancelled h hc)] at ht
    exact ⟨hinv,hid ▸ h.timerId,hqueued,hn ▸ h.next,ht ▸ h.timers⟩
  | expired timerId ha ht hid hn =>
    refine ⟨hinv,hid ▸ h.timerId,hqueued,hn ▸ h.next,fun timer hm => ?_⟩
    rw [ht] at hm
    exact h.timers timer (List.mem_filter.mp hm).1

theorem unnamed_initial : Unnamed initial :=
  ⟨inv_initial,rfl,fun _ hm => (by cases hm),by decide,fun _ hm => (by cases hm)⟩

/-- A retry timer waits for its expiration, or its callback for its turn. -/
def Pending (timer : Nat × Nat) (s : State) : Prop := timer ∈ s.timers ∨ timer.1 ∈ s.expired

theorem pending_step {timer : Nat × Nat} (h : Unnamed s) (hp : Pending timer s) (hs : step s a = .ok t) : Pending timer t := by
  cases (timed_of_step h.inv hs).1 with
  | kept ht _ _ he => exact hp.imp (ht ▸ ·) (he ▸ ·)
  | added delayMs ht _ _ he => exact hp.imp (fun hm => ht ▸ List.mem_append_left _ hm) (he ▸ ·)
  | cancelled id hc ht _ _ he =>
    rw [cancelInLoop_timers h (seq_of_cancelled h hc)] at ht
    exact hp.imp (ht ▸ ·) (he ▸ ·)
  | expired timerId ha ht _ _ he =>
    rcases hp with hm | hm
    · by_cases heq : timer.1 = timerId
      · exact .inr (he ▸ List.mem_append_right _ (List.mem_singleton.mpr heq))
      · exact .inl (ht ▸ List.mem_filter.mpr ⟨hm,by simpa using heq⟩)
    · exact .inr (he ▸ List.mem_append_left _ hm)

theorem unnamed_reachable (h : machine.Reachable s) : Unnamed s := by
  refine h.invariant (P := Unnamed) (fun u hu => ?_) fun _ _ _ hu hs => unnamed_step hu hs
  cases hu
  exact unnamed_initial

/-- No run takes a retry timer back, with Stop or otherwise: it waits to expire, or its
callback for its turn, and then the callback does not come through. -/
theorem retryTimer_pending {timer : Nat × Nat} {labels : List Label} (h : machine.Reachable s) (hm : timer ∈ s.timers)
    (hr : machine.run s labels = .ok t) : Pending timer t ∧ ∀ u, step t .fire ≠ .ok u := by
  have hrun : Unnamed t ∧ Pending timer t :=
    machine.run_invariant (P := fun u => Unnamed u ∧ Pending timer u)
      (fun _ _ _ hu hs => ⟨unnamed_step hu.1 hs,pending_step hu.1 hu.2 hs⟩) ⟨unnamed_reachable h,.inl hm⟩ hr
  exact ⟨hrun.2,fun _ => fire_not_ok hrun.1.inv⟩

end RetryTimers

end LinuxServer.Reactor.Connector
