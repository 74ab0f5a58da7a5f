import LinuxServer.Reactor.TcpSend

/-! The half-close against sends under way. shutDownInLoop looks at the channel's
writing flag only, so it may run while an earlier Send is still in a thread or
in the functor queue; nothing else goes wrong. -/
namespace LinuxServer.Reactor.TcpConnection
open LinuxServer.Lib
variable {threadId : Thread} {cb : CallBacks}

/-- The step executes ShutDownWrite. -/
def ShutsDown (threadId : Thread) (s : State) : Label → Prop
  | .shutDown t => s.connectState = .connected ∧ t = threadId ∧ s.writing = false
  | .runFunctor _ => s.functors.head? = some .shutDownInLoop ∧ s.writing = false
  | .handleWrite (.ok n) =>
    s.writing = true ∧ n = s.outputBuffer.readable.length ∧ s.connectState = .disconnecting
  | _ => False

instance (s : State) : ∀ a, Decidable (ShutsDown threadId s a)
  | .shutDown _ | .handleWrite (.ok _) => inferInstanceAs (Decidable (_ ∧ _ ∧ _))
  | .runFunctor _ => inferInstanceAs (Decidable (_ ∧ _))
  | .handleWrite (.error _) | .send .. | .proceed _ | .connectedEstablished | .handleRead _ | .handleClose
  | .queueConnectedDestroyed | .swapFunctors => inferInstanceAs (Decidable False)

/-- No Send that found Connected is still in its thread or in the queue, none
with bytes was given up, and no output is left behind by a closed channel. -/
structure Settled (s : State) : Prop where
  noThread : ∀ c ∈ s.calls, s.pc c.thread ≠ .sending c
  notQueued : sends s.functors ++ sends s.pendingFunctors = []
  noLoss : ∀ c ∈ s.givenUp, c.payload = []
  notStranded : s.writing = false → s.outputBuffer.readable = []

instance (s : State) : Decidable (Settled s) :=
  decidable_of_iff ((∀ c ∈ s.calls, s.pc c.thread ≠ .sending c) ∧
      sends s.functors ++ sends s.pendingFunctors = [] ∧ (∀ c ∈ s.givenUp, c.payload = []) ∧
      (s.writing = false → s.outputBuffer.readable = []))
    ⟨fun h => ⟨h.1,h.2.1,h.2.2.1,h.2.2.2⟩,fun h => ⟨h.noThread,h.notQueued,h.noLoss,h.notStranded⟩⟩

/-- All bytes of the send are on the wire, behind those of the sends accepted before it. -/
def Written (s : State) (c : Call) : Prop :=
  c.payload = [] ∨ ∃ before after, s.accepted = before ++ c :: after ∧
    before.flatMap Call.payload ++ c.payload <+: s.wire

/-- The connection was established and a shutdown or its destruction has begun. -/
def State.Past (s : State) : Prop := s.connectState = .disconnecting ∨ s.connectState = .disconnected

structure HalfInv (threadId : Thread) (s : State) : Prop where
  stream : StreamInv threadId s
  /-- A Send that found Connected is somewhere. -/
  conserved : ∀ c ∈ s.calls, c ∈ s.accepted ∨ c ∈ s.givenUp ∨
    c ∈ sends s.functors ++ sends s.pendingFunctors ∨ s.pc c.thread = .sending c
  /-- A shutdown in the queue has set the state first. -/
  closing : .shutDownInLoop ∈ s.functors ++ s.pendingFunctors ∨ (∃ t, s.pc t = .shutDownQueueing) → s.Past
  quiet : s.shutDown = true → s.Past ∧ Settled s ∧ s.writing = false
  noLate : s.lateWrites = 0

theorem halfInv_initial : HalfInv threadId initial :=
  ⟨streamInv_initial,fun _ hc => (by cases hc),by simp [initial],fun h => (by cases h),rfl⟩

private theorem not_mem_completions (done : Prop) [Decidable done] : .shutDownInLoop ∉ completions cb done := by
  unfold completions
  split <;> simp

/-- A send runs only while the socket is open for writing, and adds no obstacle. -/
private theorem half_sendInLoop {s t : State} {c : Call} {answer : Except Int Nat} (hb : s.outputBuffer.WF)
    (ht : StreamInv threadId t) (hopen : s.shutDown = false) (hlate : s.lateWrites = 0)
    (hcons : ∀ d ∈ s.calls, d = c ∨ d ∈ s.accepted ∨ d ∈ s.givenUp ∨
      d ∈ sends s.functors ++ sends s.pendingFunctors ∨ s.pc d.thread = .sending d)
    (hclosing : .shutDownInLoop ∈ s.functors ++ s.pendingFunctors ∨ (∃ u, s.pc u = .shutDownQueueing) → s.Past)
    (hs : s.sendInLoop cb c answer = .ok t) : HalfInv threadId t := by
  have hattempted : s.attempted = s.lateWrites := by rw [State.attempted,hopen]; rfl
  rcases sendInLoop_cases hb hs with ⟨-,rfl⟩ | ⟨-,n,b,-,-,-,-,rfl⟩
  · refine ⟨ht,fun d hd => ?_,hclosing,fun h => (by cases hopen.symm.trans h),hlate⟩
    rcases hcons d hd with rfl | hd | hd | hd
    · exact .inr (.inl (List.mem_append_right _ (List.mem_singleton_self _)))
    · exact .inl hd
    · exact .inr (.inl (List.mem_append_left _ hd))
    · exact .inr (.inr hd)
  · refine ⟨ht,fun d hd => ?_,?_,fun h => (by cases hopen.symm.trans h),?_⟩
    · simp only [sends_append,sends_completions,List.append_nil]
      rcases hcons d hd with rfl | hd | hd
      · exact .inl (List.mem_append_right _ (List.mem_singleton_self _))
      · exact .inl (List.mem_append_left _ hd)
      · exact .inr hd
    · rintro (hf | hf)
      · rw [← List.append_assoc] at hf
        exact hclosing (.inl ((List.mem_append.mp hf).resolve_right (not_mem_completions _)))
      · exact hclosing (.inr hf)
    · change (if s.Direct then s.attempted else s.lateWrites) = 0
      rw [hattempted,ite_self,hlate]

private theorem half_send {s t : State} {u : Thread} {m : Message} {answer : Except Int Nat}
    (h : HalfInv threadId s) (hs : step threadId cb s (.send u m answer) = .ok t) : HalfInv threadId t := by
  have ht := streamInv_step h.stream hs
  obtain ⟨hidle,⟨rfl,-⟩ | ⟨bytes,-,hconnected,hs⟩⟩ := send_cases hs
  · exact h
  · have hopen : s.shutDown = false := by
      cases hsd : s.shutDown with
      | false => rfl
      | true =>
        rcases (h.quiet hsd).1 with hp | hp <;> rw [hconnected] at hp <;> cases hp
    rcases hs with ⟨-,hs⟩ | ⟨-,rfl⟩
    · refine half_sendInLoop (s := { s with calls := s.calls ++ [⟨u,s.calls.length,bytes⟩] })
        h.stream.buffer ht hopen h.noLate (fun d hd => ?_) h.closing hs
      rcases List.mem_append.mp hd with hd | hd
      · exact .inr (h.conserved d hd)
      · exact .inl (List.mem_singleton.mp hd)
    · have hother : ∀ v, s.pc v ≠ .idle → v ≠ u := fun v hv he => hv (he ▸ hidle)
      refine ⟨ht,fun d hd => ?_,?_,fun hsd => (by cases hopen.symm.trans hsd),h.noLate⟩
      · rcases List.mem_append.mp hd with hd | hd
        · refine (h.conserved d hd).imp_right (Or.imp_right (Or.imp_right fun hp => ?_))
          simp only [Function.update_of_ne (hother d.thread (by rw [hp]; simp))]
          exact hp
        · rw [List.mem_singleton.mp hd]
          exact .inr (.inr (.inr (Function.update_self ..)))
      · rintro (hf | ⟨v,hv⟩)
        · exact h.closing (.inl hf)
        · simp only [Function.update_apply] at hv
          split at hv
          · cases hv
          · exact h.closing (.inr ⟨v,hv⟩)

/-- Steps of the loop thread that run no send and shut nothing down. -/
private theorem HalfInv.frame {s t : State} (h : HalfInv threadId s) (ht : StreamInv threadId t)
    (hcalls : t.calls = s.calls) (haccepted : t.accepted = s.accepted) (hgiven : t.givenUp = s.givenUp)
    (hpc : t.pc = s.pc) (hbuffer : t.outputBuffer = s.outputBuffer)
    (hsends : sends t.functors ++ sends t.pendingFunctors = sends s.functors ++ sends s.pendingFunctors)
    (hqueue : .shutDownInLoop ∈ t.functors ++ t.pendingFunctors → .shutDownInLoop ∈ s.functors ++ s.pendingFunctors)
    (hpast : s.Past → t.Past) (hwriting : s.writing = false → t.writing = false)
    (hshut : t.shutDown = s.shutDown) (hlate : t.lateWrites = s.lateWrites) : HalfInv threadId t := by
  refine ⟨ht,?_,?_,fun hsd => ?_,hlate.trans h.noLate⟩
  · rw [hcalls,haccepted,hgiven,hsends,hpc]
    exact h.conserved
  · rw [hpc]
    exact fun hc => hpast (h.closing (hc.imp_left hqueue))
  · obtain ⟨hp,hset,hw⟩ := h.quiet (hshut.symm.trans hsd)
    refine ⟨hpast hp,⟨?_,by rw [hsends]; exact hset.notQueued,by rw [hgiven]; exact hset.noLoss,fun _ => ?_⟩,hwriting hw⟩
    · rw [hcalls,hpc]
      exact hset.noThread
    · rw [hbuffer]
      exact hset.notStranded hw

/-- What ShutDownWrite needs and leaves. -/
private theorem HalfInv.shut {s t : State} (h : HalfInv threadId s) (ht : StreamInv threadId t)
    (hset : Settled s) (hw : s.writing = false) (hpast : t.Past) (hfunctors : sends t.functors = sends s.functors)
    (he : t = { s with connectState := t.connectState, functors := t.functors, shutDown := true }) :
    HalfInv threadId t := by
  have hq : sends t.functors ++ sends t.pendingFunctors = sends s.functors ++ sends s.pendingFunctors := by
    rw [hfunctors,he]
  refine ⟨ht,?_,fun _ => hpast,fun _ => ⟨hpast,⟨?_,by rw [hq]; exact hset.notQueued,?_,?_⟩,?_⟩,?_⟩
  · rw [hq,he]
    exact h.conserved
  all_goals rw [he]
  · exact hset.noThread
  · exact hset.noLoss
  · exact hset.notStranded
  · exact hw
  · exact h.noLate

theorem shutDownInLoop_idle {s : State} (h : s.writing = false) :
    s.shutDownInLoop = { s with shutDown := true } := if_pos h
theorem shutDownInLoop_busy {s : State} (h : ¬ s.writing = false) : s.shutDownInLoop = s := if_neg h

private theorem half_shutDown {s t : State} {u : Thread} (h : HalfInv threadId s)
    (hc : ShutsDown threadId s (.shutDown u) → Settled s) (hs : step threadId cb s (.shutDown u) = .ok t) :
    HalfInv threadId t := by
  have ht := streamInv_step h.stream hs
  simp only [step,bind_ok_iff,ensure_ok_iff] at hs
  obtain ⟨-,hidle,hs⟩ := hs
  split at hs
  · rename_i hconnected
    have hopen : s.shutDown ≠ true := fun hsd => by
      rcases (h.quiet hsd).1 with hp | hp <;> rw [hconnected] at hp <;> cases hp
    split at hs
    · rename_i hu
      cases hs
      by_cases hw : s.writing = false
      · rw [shutDownInLoop_idle (s := { s with connectState := .disconnecting }) hw] at ht ⊢
        exact h.shut ht (hc ⟨hconnected,hu,hw⟩) hw (.inl rfl) rfl rfl
      · rw [shutDownInLoop_busy (s := { s with connectState := .disconnecting }) hw] at ht ⊢
        exact ⟨ht,h.conserved,fun _ => .inl rfl,fun hsd => absurd hsd hopen,h.noLate⟩
    · cases hs
      refine ⟨ht,fun d hd => ?_,?_,fun hsd => absurd hsd hopen,h.noLate⟩
      · refine (h.conserved d hd).imp_right (Or.imp_right (Or.imp_right fun hp => ?_))
        have hne : d.thread ≠ u := fun he => by
          rw [he,hidle] at hp
          cases hp
        simp only [Function.update_of_ne hne]
        exact hp
      · rintro (hf | ⟨v,hv⟩)
        · exact h.closing (.inl hf)
        · simp only [Function.update_apply] at hv
          split at hv
          · cases hv
          · exact h.closing (.inr ⟨v,hv⟩)
  · cases hs
    exact h

private theorem half_handleWrite {s t : State} {answer : Except Int Nat} (h : HalfInv threadId s)
    (hc : ShutsDown threadId s (.handleWrite answer) → Settled s)
    (hs : step threadId cb s (.handleWrite answer) = .ok t) : HalfInv threadId t := by
  have ht := streamInv_step h.stream hs
  rcases handleWrite_cases h.stream.buffer hs with ⟨-,rfl⟩ | ⟨hw,n,b,rfl,-,-,-,hread,rfl⟩
  · exact h
  · have hopen : s.shutDown ≠ true := fun hsd => by
      rw [(h.quiet hsd).2.2] at hw
      cases hw
    have hattempted : s.attempted = s.lateWrites := by simp [State.attempted,hopen]
    refine ⟨ht,?_,?_,fun hsd => ?_,hattempted.trans h.noLate⟩
    · simp only [sends_append,sends_completions,List.append_nil]
      exact h.conserved
    · rintro (hf | hf)
      · rw [← List.append_assoc] at hf
        exact h.closing (.inl ((List.mem_append.mp hf).resolve_right (not_mem_completions _)))
      · exact h.closing (.inr hf)
    · -- the drained buffer brings the deferred half-close
      by_cases hall : n = s.outputBuffer.readable.length ∧ s.connectState = .disconnecting
      · have hset := hc ⟨hw,hall.1,hall.2⟩
        refine ⟨.inl hall.2,⟨hset.noThread,?_,hset.noLoss,fun _ => ?_⟩,if_pos hall.1⟩
        · simpa only [sends_append,sends_completions,List.append_nil] using hset.notQueued
        · rw [hread,hall.1,List.drop_length]
      · rw [if_neg hall] at hsd
        exact absurd hsd hopen

private theorem half_proceed {s t : State} {u : Thread} (h : HalfInv threadId s)
    (hs : step threadId cb s (.proceed u) = .ok t) : HalfInv threadId t := by
  have ht := streamInv_step h.stream hs
  have hupdate : ∀ (pc : Pc) (d : Call), s.pc d.thread = .sending d → d.thread ≠ u →
      Function.update s.pc u pc d.thread = .sending d := fun pc d hp hne => by
    rw [Function.update_of_ne hne]
    exact hp
  simp only [step] at hs
  split at hs
  · cases hs
  · rename_i c hpc
    cases hs
    have hthread := (h.stream.inFlight u c (by rw [hpc]; exact List.mem_singleton_self c)).1
    have hcall : c ∈ s.calls := by
      have hmem : c ∈ s.pipeline u := List.mem_append_right _ (by rw [hpc]; exact List.mem_singleton_self c)
      exact List.mem_of_mem_filter ((h.stream.order u).subset hmem)
    have hopen : s.shutDown ≠ true := fun hsd =>
      (h.quiet hsd).2.1.noThread c hcall (by rw [hthread]; exact hpc)
    refine ⟨ht,fun d hd => ?_,?_,fun hsd => absurd hsd hopen,h.noLate⟩
    · simp only [State.queueInLoop,sends_append,sends_send,← List.append_assoc]
      rcases h.conserved d hd with hd | hd | hd | hd
      · exact .inl hd
      · exact .inr (.inl hd)
      · exact .inr (.inr (.inl (List.mem_append_left _ hd)))
      · by_cases hu : d.thread = u
        · rw [hu,hpc] at hd
          cases hd
          exact .inr (.inr (.inl (List.mem_append_right _ (List.mem_singleton_self _))))
        · exact .inr (.inr (.inr (hupdate .idle d hd hu)))
    · rintro (hf | ⟨v,hv⟩)
      · simp only [State.queueInLoop,← List.append_assoc] at hf
        exact h.closing (.inl ((List.mem_append.mp hf).resolve_right (by simp)))
      · simp only [State.queueInLoop,Function.update_apply] at hv
        split at hv
        · cases hv
        · exact h.closing (.inr ⟨v,hv⟩)
  · rename_i hpc
    cases hs
    have hne : ∀ d : Call, s.pc d.thread = .sending d → d.thread ≠ u := fun d hd he => by
      rw [he,hpc] at hd
      cases hd
    refine ⟨ht,fun d hd => ?_,fun _ => .inl rfl,fun hsd => ?_,h.noLate⟩
    · exact (h.conserved d hd).imp_right (Or.imp_right (Or.imp_right fun hp => hupdate _ d hp (hne d hp)))
    · obtain ⟨-,hset,hw⟩ := h.quiet hsd
      refine ⟨.inl rfl,⟨fun d hd => ?_,hset.notQueued,hset.noLoss,hset.notStranded⟩,hw⟩
      simp only [Function.update_apply]
      split
      · simp
      · exact hset.noThread d hd
  · rename_i hpc
    cases hs
    have hne : ∀ d : Call, s.pc d.thread = .sending d → d.thread ≠ u := fun d hd he => by
      rw [he,hpc] at hd
      cases hd
    have hpast := h.closing (.inr ⟨u,hpc⟩)
    have hq : sends s.functors ++ sends (s.pendingFunctors ++ [.shutDownInLoop]) =
        sends s.functors ++ sends s.pendingFunctors := by simp [sends]
    refine ⟨ht,fun d hd => ?_,fun _ => hpast,fun hsd => ?_,h.noLate⟩
    · change _ ∨ _ ∨ d ∈ sends s.functors ++ sends (s.pendingFunctors ++ [.shutDownInLoop]) ∨ _
      rw [hq]
      exact (h.conserved d hd).imp_right (Or.imp_right (Or.imp_right fun hp => hupdate _ d hp (hne d hp)))
    · obtain ⟨-,hset,hw⟩ := h.quiet hsd
      refine ⟨hpast,⟨fun d hd => ?_,hq.trans hset.notQueued,hset.noLoss,hset.notStranded⟩,hw⟩
      simp only [State.queueInLoop,Function.update_apply]
      split
      · simp
      · exact hset.noThread d hd

private theorem half_runFunctor {s t : State} {answer : Except Int Nat} (h : HalfInv threadId s)
    (hc : ShutsDown threadId s (.runFunctor answer) → Settled s)
    (hs : step threadId cb s (.runFunctor answer) = .ok t) : HalfInv threadId t := by
  have ht := streamInv_step h.stream hs
  simp only [step] at hs
  split at hs
  · cases hs
  · rename_i f rest hf
    have hsends : sends s.functors = sends [f] ++ sends rest := by
      rw [hf,← sends_append,List.singleton_append]
    have hmem : ∀ g, g ∈ rest ++ s.pendingFunctors → g ∈ s.functors ++ s.pendingFunctors := fun g hg => by
      rw [hf,List.cons_append]
      exact List.mem_cons_of_mem _ hg
    cases f with
    | sendInLoop c =>
      have hopen : s.shutDown = false := by
        cases hsd : s.shutDown with
        | false => rfl
        | true =>
          have hq := (h.quiet hsd).2.1.notQueued
          rw [hsends] at hq
          cases hq
      refine half_sendInLoop (s := { s with functors := rest }) h.stream.buffer ht hopen h.noLate (fun d hd => ?_)
        (fun hq => h.closing (hq.imp_left (hmem _))) hs
      have hcons := h.conserved d hd
      rw [hsends,sends_send,List.append_assoc] at hcons
      rcases hcons with hd | hd | hd | hd
      · exact .inr (.inl hd)
      · exact .inr (.inr (.inl hd))
      · rcases List.mem_append.mp hd with hd | hd
        · exact .inl (List.mem_singleton.mp hd)
        · exact .inr (.inr (.inr (.inl hd)))
      · exact .inr (.inr (.inr (.inr hd)))
    | shutDownInLoop =>
      cases hs
      have hpast := h.closing (.inl (by rw [hf]; exact List.mem_cons_self))
      have hsame : sends rest = sends s.functors := by rw [hsends]; rfl
      change StreamInv threadId (State.shutDownInLoop { s with functors := rest }) at ht
      change HalfInv threadId (State.shutDownInLoop { s with functors := rest })
      by_cases hw : s.writing = false
      · rw [shutDownInLoop_idle (s := { s with functors := rest }) hw] at ht ⊢
        exact h.shut ht (hc ⟨by rw [hf]; rfl,hw⟩) hw hpast hsame rfl
      · rw [shutDownInLoop_busy (s := { s with functors := rest }) hw] at ht ⊢
        exact h.frame ht rfl rfl rfl rfl rfl (by rw [hsame]) (hmem _) id id rfl rfl
    | writeComplete =>
      cases hs
      exact h.frame ht rfl rfl rfl rfl rfl (by rw [hsends]; rfl) (hmem _) id id rfl rfl
    | connectedDestroyed =>
      simp only [State.runFunctor,State.connectedDestroyed,bind_ok_iff,Except.ok.injEq] at hs
      obtain ⟨-,-,rfl⟩ := hs
      exact h.frame ht rfl rfl rfl rfl rfl (by rw [hsends]; rfl) (hmem _) (fun _ => .inr rfl) (fun _ => rfl) rfl rfl

private theorem half_events {s t : State} {a : Label} (h : HalfInv threadId s)
    (ha : a = .connectedEstablished ∨ (∃ answer, a = .handleRead answer) ∨
      a = .handleClose ∨ a = .queueConnectedDestroyed ∨ a = .swapFunctors)
    (hs : step threadId cb s a = .ok t) : HalfInv threadId t := by
  have ht := streamInv_step h.stream hs
  rcases ha with rfl | ⟨answer,rfl⟩ | rfl | rfl | rfl
  · simp only [step,State.connectedEstablished,bind_ok_iff,ensure_ok_iff,Except.ok.injEq] at hs
    obtain ⟨-,hconnecting,rfl⟩ := hs
    have hpast : ¬ s.Past := fun hp => by
      rcases hp with hp | hp <;> rw [hconnecting] at hp <;> cases hp
    exact h.frame ht rfl rfl rfl rfl rfl rfl id (fun hp => absurd hp hpast) id rfl rfl
  · simp only [step,State.handleRead,bind_ok_iff] at hs
    obtain ⟨-,-,⟨b,n,e⟩,-,hs⟩ := hs
    simp only at hs
    split at hs
    · split at hs <;> cases hs <;> exact h.frame ht rfl rfl rfl rfl rfl rfl id id id rfl rfl
    · split at hs
      · simp only [State.handleClose,bind_ok_iff,Except.ok.injEq] at hs
        obtain ⟨-,-,rfl⟩ := hs
        exact h.frame ht rfl rfl rfl rfl rfl rfl id id (fun _ => rfl) rfl rfl
      · cases hs
        exact h.frame ht rfl rfl rfl rfl rfl rfl id id id rfl rfl
  · simp only [step,State.handleClose,bind_ok_iff,Except.ok.injEq] at hs
    obtain ⟨-,-,-,-,rfl⟩ := hs
    exact h.frame ht rfl rfl rfl rfl rfl rfl id id (fun _ => rfl) rfl rfl
  · simp only [step,bind_ok_iff,Except.ok.injEq] at hs
    obtain ⟨-,-,rfl⟩ := hs
    exact h.frame ht rfl rfl rfl rfl rfl (by simp [State.queueInLoop,sends]) (by simp [State.queueInLoop]) id id rfl rfl
  · simp only [step,bind_ok_iff,ensure_ok_iff,Except.ok.injEq] at hs
    obtain ⟨-,hempty,rfl⟩ := hs
    exact h.frame ht rfl rfl rfl rfl rfl (by simp [hempty]) (by simp [hempty]) id id rfl rfl

theorem halfInv_step {s t : State} {a : Label} (h : HalfInv threadId s) (hc : ShutsDown threadId s a → Settled s)
    (hs : step threadId cb s a = .ok t) : HalfInv threadId t := by
  cases a with
  | send u m answer => exact half_send h hs
  | shutDown u => exact half_shutDown h hc hs
  | proceed u => exact half_proceed h hs
  | handleWrite answer => exact half_handleWrite h hc hs
  | runFunctor answer => exact half_runFunctor h hc hs
  | connectedEstablished | handleRead | handleClose | queueConnectedDestroyed | swapFunctors =>
    exact half_events h (by simp) hs

/-- Where nothing is under way, everything accepted is on the wire. -/
theorem HalfInv.written {s : State} (h : HalfInv threadId s) (hset : Settled s) (hw : s.writing = false)
    {c : Call} (hc : c ∈ s.calls) : Written s c := by
  have hwire := h.stream.stream
  rw [hset.notStranded hw,List.append_nil] at hwire
  rcases h.conserved c hc with ha | hg | hq | hp
  · obtain ⟨before,after,he⟩ := List.append_of_mem ha
    refine .inr ⟨before,after,he,after.flatMap Call.payload,?_⟩
    rw [hwire,he,List.flatMap_append,List.flatMap_cons,List.append_assoc]
  · exact .inl (hset.noLoss c hg)
  · rw [hset.notQueued] at hq
    cases hq
  · exact absurd hp (hset.noThread c hc)

/-- In every run whose half-closes come when no Send is under way: once SHUT_WR
is executed all bytes of every Send that found Connected are on the wire, and no
write is attempted any more. -/
theorem halfClose_after_settled {labels : List Label} {s : State}
    (hrun : (machine threadId cb).run initial labels = .ok s)
    (hc : (machine threadId cb).Along (fun s a => ShutsDown threadId s a → Settled s) initial labels) :
    (s.shutDown = true → ∀ c ∈ s.calls, Written s c) ∧ s.lateWrites = 0 := by
  have h := (machine threadId cb).run_along (P := HalfInv threadId)
    (fun s a t hi hc hs => halfInv_step hi hc hs) halfInv_initial hc hrun
  refine ⟨fun hsd c hmem => ?_,h.noLate⟩
  obtain ⟨-,hset,hw⟩ := h.quiet hsd
  exact h.written hset hw hmem

/-- A message in two parts, then a shutdown that waits for the output to drain. -/
theorem halfClose_after_settled_deferred :
    let labels : List Label := [.connectedEstablished,.send 1 (.string [1,2]) (.ok 0),.proceed 1,.swapFunctors,
      .runFunctor (.ok 1),.shutDown 0,.handleWrite (.ok 1)]
    ∃ s, (machine 0 ⟨true,none,true⟩).run initial labels = .ok s ∧ s.shutDown = true ∧
      (∀ c ∈ s.calls, Written s c) ∧ s.lateWrites = 0 := by
  intro labels
  have hc : (machine 0 ⟨true,none,true⟩).Along (fun s a => ShutsDown 0 s a → Settled s) initial labels := by
    decide +kernel
  have hsd : ((machine 0 ⟨true,none,true⟩).run initial labels).toOption.map State.shutDown = some true := by
    decide +kernel
  cases hrun : (machine 0 ⟨true,none,true⟩).run initial labels with
  | error e => rw [hrun] at hsd; cases hsd
  | ok s =>
    rw [hrun] at hsd
    have hsd := Option.some.inj hsd
    have h := halfClose_after_settled hrun hc
    exact ⟨s,rfl,hsd,h.1 hsd,h.2⟩

private def twoSendsThenShutDown : List Label :=
  [.connectedEstablished,.send 1 (.string [1,2]) (.ok 0),.proceed 1,.swapFunctors,.runFunctor (.ok 1),
    .send 1 (.string [3]) (.ok 0),.proceed 1,.shutDown 1,.proceed 1,.proceed 1,.handleWrite (.ok 1)]

/-- One thread sends twice and shuts down. The rest of its first message drains
while the second is still queued: the socket is half-closed before the second
message, and a write is attempted afterwards. -/
theorem halfClose_truncates :
    (∃ s, (machine 0 ⟨true,none,true⟩).Reachable s ∧ s.shutDown = true ∧ ∃ c ∈ s.calls, ¬ Written s c) ∧
      ∃ s, (machine 0 ⟨true,none,true⟩).Reachable s ∧ 0 < s.lateWrites := by
  constructor
  · obtain ⟨s,hr,hv⟩ := (machine 0 ⟨true,none,true⟩).exists_reachable rfl twoSendsThenShutDown
      (fun s => (s.shutDown,s.accepted,s.calls)) (b := (true,[⟨1,0,[1,2]⟩],[⟨1,0,[1,2]⟩,⟨1,1,[3]⟩]))
      (by decide +kernel)
    simp only [Prod.mk.injEq] at hv
    obtain ⟨hsd,haccepted,hcalls⟩ := hv
    refine ⟨s,hr,hsd,⟨1,1,[3]⟩,by rw [hcalls]; decide,?_⟩
    rintro (he | ⟨before,after,he,-⟩)
    · cases he
    · have hmem : (⟨1,1,[3]⟩ : Call) ∈ s.accepted := by
        rw [he]
        exact List.mem_append_right _ List.mem_cons_self
      rw [haccepted] at hmem
      exact absurd hmem (by decide)
  · obtain ⟨s,hr,hv⟩ := (machine 0 ⟨true,none,true⟩).exists_reachable rfl
      (twoSendsThenShutDown ++ [.swapFunctors,.runFunctor (.error 32)]) State.lateWrites (b := 1) (by decide +kernel)
    exact ⟨s,hr,by rw [hv]; decide⟩

end LinuxServer.Reactor.TcpConnection
