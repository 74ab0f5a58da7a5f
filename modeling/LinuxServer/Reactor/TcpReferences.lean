import LinuxServer.Reactor.TcpLifetime

/-! Who keeps a connection alive: its owner and the queue up to the teardown, behind it
whoever has a pointer still. -/
namespace LinuxServer.Reactor.TcpLifetime
open LinuxServer.Lib
open TcpConnection (CallBacks Functor)
variable {threadId : Thread} {cb : CallBacks} {nSockFd : Int} {s t : State} {c d : TcpConnection.State}

/-- ConnectedDestroyed has not yet been taken from the queue: the owner has the
connection, or its removal or ConnectedDestroyed is waiting. -/
def State.Ahead (s : State) : Prop :=
  .owner ∈ s.refs ∨ 0 < s.conn.closed ∨ 0 < s.strayed ∨ .connectedDestroyed ∈ s.conn.pendingFunctors

instance (s : State) : Decidable s.Ahead := inferInstanceAs (Decidable (_ ∨ _ ∨ _ ∨ _))

/-- Some of the functors are bound to the bare this, some to a pointer. -/
def Bare (fs : List Functor) : Prop := ∃ f ∈ fs, owns f = false
def Owning (fs : List Functor) : Prop := ∃ f ∈ fs, owns f = true

instance (fs : List Functor) : Decidable (Bare fs) := inferInstanceAs (Decidable (∃ f ∈ fs, owns f = false))
instance (fs : List Functor) : Decidable (Owning fs) := inferInstanceAs (Decidable (∃ f ∈ fs, owns f = true))

/-! References that keep the connection alive. -/

theorem alive_of_ref {r : Ref} (h : r ∈ s.refs) : s.Alive := by
  have hpos := List.length_pos_of_mem h
  unfold State.Alive State.useCount
  omega

theorem alive_of_refs (h : s.refs ≠ []) : s.Alive := by
  obtain ⟨r,hr⟩ := List.exists_mem_of_ne_nil _ h
  exact alive_of_ref hr

private theorem Owning.length_pos {fs : List Functor} (h : Owning fs) : 0 < (fs.filter owns).length := by
  obtain ⟨f,hf,ho⟩ := h
  exact List.length_pos_of_mem (List.mem_filter.mpr ⟨hf,ho⟩)

theorem Owning.mono {fs fs' : List Functor} (h : Owning fs) (hsub : ∀ f ∈ fs, f ∈ fs') : Owning fs' := by
  obtain ⟨f,hf,ho⟩ := h
  exact ⟨f,hsub f hf,ho⟩

theorem Owning.alive (h : Owning (s.vFunctors ++ s.conn.pendingFunctors)) : s.Alive := by
  have hpos := h.length_pos
  rw [List.filter_append,List.length_append] at hpos
  unfold State.Alive State.useCount
  omega

theorem State.Ahead.alive (ha : s.Ahead) (h : Inv cb nSockFd s) : s.Alive := by
  rcases ha with howner | hclosed | hstrayed | hpending
  · exact alive_of_ref howner
  · exact alive_of_ref (List.count_pos_iff.mp (hclosed.trans_le h.removals))
  · unfold State.Alive State.useCount
    omega
  · have hpos := Owning.length_pos ⟨_,hpending,rfl⟩
    unfold State.Alive State.useCount
    omega

/-! How the steps change them. -/

theorem frame_connectedEstablished (hs : c.connectedEstablished cb = .ok d) : Frame none c d := by
  simp only [TcpConnection.State.connectedEstablished,bind_ok_iff,Except.ok.injEq] at hs
  obtain ⟨-,-,rfl⟩ := hs
  exact .quiet rfl rfl (fun _ => .inl rfl) (le_refl _)

theorem frame_connectedDestroyed (hs : c.connectedDestroyed = .ok d) : Frame none c d := by
  simp only [TcpConnection.State.connectedDestroyed,bind_ok_iff,Except.ok.injEq] at hs
  obtain ⟨-,-,rfl⟩ := hs
  exact .quiet rfl rfl (fun _ => .inl rfl) (le_refl _)

/-- While the connection's code runs, the teardown does not come nearer. -/
theorem ahead_ran {u : Option Thread} {calls : List (EPoller.Call Unit)} (ha : s.Ahead) (hd : Frame u s.conn d)
    (hs : s.ran threadId nSockFd d calls = .ok t) : t.Ahead := by
  obtain ⟨poller,rs,-,-,rfl⟩ := ran_cases hs
  obtain ⟨fs,hpending,-⟩ := hd.pending
  rcases ha with howner | hclosed | hstrayed | hmem
  · exact .inl (List.mem_append_left _ howner)
  · exact .inr (.inl (hclosed.trans_le hd.closed))
  · exact .inr (.inr (.inl hstrayed))
  · refine .inr (.inr (.inr ?_))
    show Functor.connectedDestroyed ∈ d.pendingFunctors
    rw [hpending]
    exact List.mem_append_left _ hmem

theorem ahead_removeConnection (hs : s.removeConnection = .ok t) : t.Ahead := by
  obtain ⟨owner,rfl | rfl⟩ := removeConnection_cases hs
  · exact .inr (.inr (.inr (List.mem_append_right _ (List.mem_singleton_self _))))
  · exact .inr (.inr (.inl (Nat.succ_pos _)))

/-- Pointers go that are not the owner's. -/
theorem ahead_refs {refs : List Ref} (ha : s.Ahead) (howner : .owner ∈ s.refs → .owner ∈ refs) :
    State.Ahead { s with refs := refs } := by
  rcases ha with hmem | hrest
  · exact .inl (howner hmem)
  · exact .inr hrest

/-! Functors bound to the bare this. -/

/-- A functor with a bare this waits, and none with a pointer will be there when it runs. -/
def State.Exposed (s : State) : Prop :=
  (Bare s.conn.pendingFunctors ∧ ¬ Owning s.conn.pendingFunctors) ∨
    (Bare s.conn.functors ∧ ¬ Owning (s.vFunctors ++ s.conn.pendingFunctors))

instance (s : State) : Decidable s.Exposed := inferInstanceAs (Decidable (_ ∧ _ ∨ _ ∧ _))

/-- Without this pointer the teardown is still ahead, or there is another pointer, or no
bare this is exposed. -/
def State.Spares (s : State) (r : Ref) : Prop :=
  State.Ahead { s with refs := s.refs.erase r } ∨ s.refs.erase r ≠ [] ∨ ¬ s.Exposed

instance (s : State) (r : Ref) : Decidable (s.Spares r) := inferInstanceAs (Decidable (_ ∨ _ ∨ ¬ _))

/-- Whoever drops a pointer, it can be spared. -/
def Patient (s : State) : Label → Prop
  | .newConnectionReturns => s.Spares .newConnection
  | .removeConnectionReturns => s.Spares .removal
  | .release u => s.Spares (.user u)
  | .destroyOwner => s.Spares .owner
  | _ => True

instance (s : State) (a : Label) : Decidable (Patient s a) := by
  cases a <;> (dsimp only [Patient]; infer_instance)

/-- Behind the teardown there is a pointer for a functor with a bare this, or one is bound
in a functor that goes no earlier. -/
structure Kept (s : State) : Prop where
  pending : ¬ s.Ahead → Bare s.conn.pendingFunctors → s.refs ≠ [] ∨ Owning s.conn.pendingFunctors
  functors : ¬ s.Ahead → Bare s.conn.functors → s.refs ≠ [] ∨ Owning (s.vFunctors ++ s.conn.pendingFunctors)

theorem kept_initial (owner : Owner) : Kept (initial owner) := by
  refine ⟨fun hahead => ?_,fun hahead => ?_⟩ <;> exact absurd (.inl List.mem_cons_self) hahead

private theorem kept_ran {u : Option Thread} {calls : List (EPoller.Call Unit)} (h : Kept s) (hd : Frame u s.conn d)
    (hu : ∀ v, u = some v → .user v ∈ s.refs) (hs : s.ran threadId nSockFd d calls = .ok t) : Kept t := by
  have hahead : ¬ t.Ahead → ¬ s.Ahead := fun hn ha => hn (ahead_ran ha hd hs)
  obtain ⟨poller,rs,-,-,rfl⟩ := ran_cases hs
  have hrefs : s.refs ≠ [] → s.refs ++ rs ≠ [] := fun hne => List.append_ne_nil_of_left_ne_nil hne rs
  obtain ⟨fs,hpending,hfs⟩ := hd.pending
  refine ⟨fun hn hbare => ?_,fun hn hbare => ?_⟩
  · obtain ⟨f,hf,ho⟩ := hbare
    rw [show d.pendingFunctors = s.conn.pendingFunctors ++ fs from hpending] at hf ⊢
    rcases List.mem_append.mp hf with hf | hf
    · exact (h.pending (hahead hn) ⟨f,hf,ho⟩).imp hrefs fun howning => howning.mono fun g hg => List.mem_append_left _ hg
    · -- what a thread has queued it has a pointer for
      rcases hfs f hf with rfl | ⟨-,hsome⟩
      · cases ho
      · obtain ⟨v,hv⟩ := Option.isSome_iff_exists.mp hsome
        exact .inl (hrefs (List.ne_nil_of_mem (hu v hv)))
  · rw [show d.functors = s.conn.functors from hd.functors] at hbare
    refine (h.functors (hahead hn) hbare).imp hrefs fun howning => ?_
    show Owning (s.vFunctors ++ d.pendingFunctors)
    rw [hpending,← List.append_assoc]
    exact howning.mono fun g hg => List.mem_append_left _ hg

private theorem Kept.cons (h : Kept s) (u : Thread) : Kept { s with refs := .user u :: s.refs } := by
  have hahead : ¬ State.Ahead { s with refs := .user u :: s.refs } → ¬ s.Ahead :=
    fun hn ha => hn (ahead_refs ha (List.mem_cons_of_mem _))
  refine ⟨fun hn hbare => ?_,fun hn hbare => ?_⟩
  · exact (h.pending (hahead hn) hbare).imp_left fun _ => List.cons_ne_nil _ _
  · exact (h.functors (hahead hn) hbare).imp_left fun _ => List.cons_ne_nil _ _

private theorem kept_popped {f : Functor} {rest : List Functor} (h : Kept s) (hf : s.conn.functors = f :: rest) : Kept (s.popped rest) := by
  refine ⟨h.pending,fun hn hbare => h.functors hn ?_⟩
  obtain ⟨g,hg,ho⟩ := hbare
  exact ⟨g,by rw [hf]; exact List.mem_cons_of_mem _ hg,ho⟩

private theorem kept_swapFunctors (h : Kept s) : Kept { s with
    conn := { s.conn with functors := s.conn.pendingFunctors, pendingFunctors := [] }
    vFunctors := s.conn.pendingFunctors
    inEvents := false } := by
  refine ⟨fun _ hbare => ?_,fun hn hbare => ?_⟩
  · obtain ⟨f,hf,-⟩ := hbare
    cases hf
  · by_cases hmem : .connectedDestroyed ∈ s.conn.pendingFunctors
    · exact .inr ⟨_,List.mem_append_left _ hmem,rfl⟩
    · refine (h.pending (fun ha => hn ?_) hbare).imp_right fun howning => howning.mono fun g hg => List.mem_append_left _ hg
      rcases ha with howner | hclosed | hstrayed | hpending
      · exact .inl howner
      · exact .inr (.inl hclosed)
      · exact .inr (.inr (.inl hstrayed))
      · exact absurd hpending hmem

private theorem kept_drop {r : Ref} (b : Bool) (hc : s.Spares r) : Kept { s with ownerAlive := b, refs := s.refs.erase r } := by
  refine ⟨fun hn hbare => ?_,fun hn hbare => ?_⟩
  · rcases hc with ha | hrefs | hsafe
    · exact absurd ha hn
    · exact .inl hrefs
    · by_contra hnone
      rw [not_or] at hnone
      exact hsafe (.inl ⟨hbare,hnone.2⟩)
  · rcases hc with ha | hrefs | hsafe
    · exact absurd ha hn
    · exact .inl hrefs
    · by_contra hnone
      rw [not_or] at hnone
      exact hsafe (.inr ⟨hbare,hnone.2⟩)

theorem kept_move {a : Label} (h : Kept s) (hc : Patient s a) (hm : Move threadId cb nSockFd s a t) : Kept t := by
  cases hm with
  | call huser hd hquiet hran => exact kept_ran h hd.toFrame (fun v hv => by cases hv; exact huser) hran
  | connectedEstablished hcon hd hran => exact kept_ran h (frame_connectedEstablished hd) (by simp) hran
  | newConnectionReturns => exact kept_drop s.ownerAlive hc
  | poll mask hreports => exact ⟨h.pending,h.functors⟩
  | branch readAnswer writeAnswer hhandling hd hran =>
    have hkept := kept_ran h hd.toFrame (by simp) hran
    exact ⟨hkept.pending,hkept.functors⟩
  | swapFunctors hhandling hbatch hempty => exact kept_swapFunctors h
  | runFunctor answer hf hne hd heffect hran => exact kept_ran (kept_popped h hf) heffect.toFrame (by simp) hran
  | connectedDestroyed answer hevents hf hd hran =>
    have hkept := kept_ran (kept_popped h hf) (frame_connectedDestroyed hd) (by simp) hran
    exact ⟨hkept.pending,hkept.functors⟩
  | doPendingFunctorsReturns hempty =>
    refine ⟨h.pending,fun _ hbare => ?_⟩
    obtain ⟨f,hf,-⟩ := hbare
    rw [show s.conn.functors = [] from hempty] at hf
    cases hf
  | removeConnection hremove =>
    exact ⟨fun hn => absurd (ahead_removeConnection hremove) hn,fun hn => absurd (ahead_removeConnection hremove) hn⟩
  | removeConnectionReturns hlt => exact kept_drop s.ownerAlive hc
  | otherConnection owner => exact ⟨h.pending,h.functors⟩
  | gives u => exact h.cons u
  | release u huser hidle => exact kept_drop s.ownerAlive hc
  | destroyOwner => exact kept_drop false hc

private theorem kept_run {owner : Owner} {labels : List Label}
    (hc : (machine threadId cb nSockFd).Along Patient (initial owner) labels)
    (hr : (machine threadId cb nSockFd).run (initial owner) labels = .ok s) : Inv cb nSockFd s ∧ Kept s := by
  refine (machine threadId cb nSockFd).run_along (P := fun s => Inv cb nSockFd s ∧ Kept s) ?_
    ⟨inv_initial owner,kept_initial owner⟩ hc hr
  intro s a t h hp hs
  exact ⟨inv_step h.1 hs,kept_move h.2 hp (move_of_step h.1.output hs)⟩

/-- In every run in which no pointer is dropped impatiently, whenever the loop comes to a functor its
connection has not been destroyed. -/
theorem queued_work_alive {owner : Owner} {labels : List Label}
    (hc : (machine threadId cb nSockFd).Along Patient (initial owner) labels)
    (hr : (machine threadId cb nSockFd).run (initial owner) labels = .ok s) {f : Functor} {rest : List Functor}
    (hf : s.conn.functors = f :: rest) : s.Alive := by
  obtain ⟨hi,hk⟩ := kept_run hc hr
  have hmem : f ∈ s.conn.functors := by
    rw [hf]
    exact List.mem_cons_self
  by_cases hahead : s.Ahead
  · exact hahead.alive hi
  · cases ho : owns f with
    | true => exact Owning.alive ⟨f,List.mem_append_left _ (hi.batch f hmem),ho⟩
    | false =>
      rcases hk.functors hahead ⟨f,hmem,ho⟩ with hrefs | howning
      · exact alive_of_refs hrefs
      · exact howning.alive

/-- The peer's end of stream closes a server's connection, of which thread 7 has a pointer. -/
def closing : List Label := [.connectedEstablished,.copy 1 7,.release 1,.newConnectionReturns,
  .poll (some ⟨false,false,true,false,false⟩),.branch (.ok []) (.ok 0),.branch (.ok []) (.ok 0),.branch (.ok []) (.ok 0),
  .removeConnection,.removeConnectionReturns,.branch (.ok []) (.ok 0),.send 7 (.string [1]) (.ok 0)]

/-- The thread queues its message behind ConnectedDestroyed, in the same batch. -/
theorem queued_work_alive_inTime : ∃ s, (machine 1 ⟨true,none,false⟩ 9).run (initial (.server 0 ⟨0,[],0⟩))
    (closing ++ [.proceed 7,.release 7,.swapFunctors,.runFunctor (.ok 0)]) = .ok s ∧
      s.conn.functors = [.sendInLoop ⟨7,0,[1]⟩] ∧ s.Alive := by
  obtain ⟨s,hr,hf⟩ := (machine 1 ⟨true,none,false⟩ 9).exists_run_eq (s := initial (.server 0 ⟨0,[],0⟩))
    (closing ++ [.proceed 7,.release 7,.swapFunctors,.runFunctor (.ok 0)]) (fun s => s.conn.functors)
    (b := [.sendInLoop ⟨7,0,[1]⟩]) (by decide +kernel)
  have hc : (machine 1 ⟨true,none,false⟩ 9).Along Patient (initial (.server 0 ⟨0,[],0⟩))
      (closing ++ [.proceed 7,.release 7,.swapFunctors,.runFunctor (.ok 0)]) := by decide +kernel
  exact ⟨s,hr,hf,queued_work_alive hc hr hf⟩

/-- The batch with ConnectedDestroyed has been taken when the thread queues its message and
drops its pointer; the next batch runs sendInLoop on a connection that is gone. -/
theorem queued_work_outlives : ∃ s, (machine 1 ⟨true,none,false⟩ 9).Reachable s ∧
    s.conn.functors = [.sendInLoop ⟨7,0,[1]⟩] ∧ ¬ s.Alive ∧ step 1 ⟨true,none,false⟩ 9 s (.runFunctor (.ok 1)) = .error .freed := by
  obtain ⟨s,hr,hv⟩ := (machine 1 ⟨true,none,false⟩ 9).exists_reachable ⟨.server 0 ⟨0,[],0⟩,rfl⟩
    (closing ++ [.swapFunctors,.proceed 7,.release 7,.runFunctor (.ok 0),.doPendingFunctorsReturns,.poll none,.swapFunctors])
    (fun s => (s.conn.functors,decide s.Alive,(step 1 ⟨true,none,false⟩ 9 s (.runFunctor (.ok 1))).map fun _ => ()))
    (b := ([.sendInLoop ⟨7,0,[1]⟩],false,.error .freed)) (by decide +kernel)
  simp only [Prod.mk.injEq,decide_eq_false_iff_not] at hv
  obtain ⟨hf,hdead,hstep⟩ := hv
  exact ⟨s,hr,hf,hdead,(map_error_iff _ _ _).mp hstep⟩

private theorem not_bare {fs : List Functor} (h : ¬ Owning fs) {f : Functor} (hf : f ∈ fs) : owns f = false := by
  by_contra ho
  exact h ⟨f,hf,Bool.not_eq_false _ ▸ ho⟩

/-- And without patience: once the batch with ConnectedDestroyed is over and the last
pointer dropped, the loop comes to the functor that waited, and the connection is gone. -/
theorem exposed_dies {u : Thread} (hc : ¬ Patient s (.release u)) (hrefs : s.refs = [.user u]) (hidle : s.conn.pc u = .idle)
    (hbatch : s.inEvents = false ∧ s.conn.functors = []) : ∃ t f rest,
      (machine threadId cb nSockFd).run s [.release u,.doPendingFunctorsReturns,.poll none,.swapFunctors] = .ok t ∧
        t.conn.functors = f :: rest ∧ owns f = false ∧ ¬ t.Alive ∧
        ∀ answer, step threadId cb nSockFd t (.runFunctor answer) = .error .freed := by
  obtain ⟨hevents,hfunctors⟩ := hbatch
  simp only [Patient,State.Spares,not_or,not_not] at hc
  obtain ⟨hahead,-,hexposed⟩ := hc
  have hpending : Bare s.conn.pendingFunctors ∧ ¬ Owning s.conn.pendingFunctors := by
    rcases hexposed with h | ⟨⟨f,hf,-⟩,-⟩
    · exact h
    · rw [hfunctors] at hf
      cases hf
  obtain ⟨⟨g,hg,-⟩,hnone⟩ := hpending
  obtain ⟨f,rest,hq⟩ := List.exists_cons_of_ne_nil (List.ne_nil_of_mem hg)
  have hstrayed : s.strayed = 0 := by
    by_contra hpos
    exact hahead (.inr (.inr (.inl (Nat.pos_of_ne_zero hpos))))
  let t : State := { s with
    conn := { s.conn with functors := s.conn.pendingFunctors, pendingFunctors := [] }
    refs := []
    vFunctors := s.conn.pendingFunctors
    handling := none
    inEvents := false }
  have hdead : ¬ t.Alive := by
    have hfilter : s.conn.pendingFunctors.filter owns = [] := by
      rw [List.filter_eq_nil_iff]
      intro f hf ho
      exact hnone ⟨f,hf,ho⟩
    simp [t,State.Alive,State.useCount,hstrayed,hfilter]
  refine ⟨t,f,rest,?_,hq,not_bare hnone (by rw [hq]; exact List.mem_cons_self),hdead,fun answer => ?_⟩
  · simp [machine,step,State.InRemoval,TcpConnection.step,hrefs,hidle,hevents,hfunctors,t]
  · have hfree : ¬ t.InRemoval ∧ t.inEvents = false := ⟨fun h => (by cases h.2),rfl⟩
    have hstep : step threadId cb nSockFd t (.runFunctor answer) =
        (do ensure .notEnabled (¬ t.InRemoval ∧ t.inEvents = false); t.runFunctor threadId cb nSockFd answer f rest) := by
      simp only [step]
      rw [show t.conn.functors = f :: rest from hq]
    rw [hstep,ensure_of _ hfree,ok_bind,State.runFunctor,ensure_not _ hdead]
    rfl

/-! The poller's map. -/

/-- A functor that leaves something to be written when the channel is writable. -/
def Leaves (c : TcpConnection.State) (answer : Except Int Nat) : Functor → Prop
  | .sendInLoop call => c.connectState ≠ .disconnected ∧ call.payload ≠ [] ∧ ¬ (c.Direct ∧ answer = .ok call.payload.length)
  | _ => False

instance (c : TcpConnection.State) (answer : Except Int Nat) : (f : Functor) → Decidable (Leaves c answer f)
  | .sendInLoop _ => inferInstanceAs (Decidable (_ ∧ _ ∧ ¬ (_ ∧ _)))
  | .shutDownInLoop => isFalse id
  | .writeComplete => isFalse id
  | .connectedDestroyed => isFalse id

/-- The owner is gone and has not removed the connection, which nobody tears down. -/
def State.Orphaned (s : State) : Prop :=
  s.ownerAlive = false ∧ ¬ s.Ahead ∧ .connectedDestroyed ∉ s.conn.functors ∧ s.torn = false

instance (s : State) : Decidable s.Orphaned := inferInstanceAs (Decidable (_ ∧ _ ∧ _ ∧ _))

/-- Without this pointer there is another one, or one is bound in a functor. -/
def State.Others (s : State) (r : Ref) : Prop := s.refs.erase r ≠ [] ∨ Owning (s.vFunctors ++ s.conn.pendingFunctors)

instance (s : State) (r : Ref) : Decidable (s.Others r) := inferInstanceAs (Decidable (_ ∨ _))

/-- When the owner is destroyed with the connection, somebody else has it, and has it until
the connection is closed; and behind ConnectedDestroyed no sendInLoop leaves a rest. -/
def Careful (s : State) : Label → Prop
  | .destroyOwner => .owner ∈ s.refs → s.Others .owner
  | .newConnectionReturns => s.Orphaned → s.Others .newConnection
  | .removeConnectionReturns => s.Orphaned → s.Others .removal
  | .release u => s.Orphaned → s.Others (.user u)
  | .doPendingFunctorsReturns => s.Orphaned → s.refs ≠ [] ∨ Owning s.conn.pendingFunctors
  | .runFunctor answer => s.torn = true → ∀ f ∈ s.conn.functors.head?, ¬ Leaves s.conn answer f
  | _ => True

instance (s : State) (a : Label) : Decidable (Careful s a) := by
  cases a <;> (dsimp only [Careful]; infer_instance)

structure Watched (nSockFd : Int) (s : State) : Prop where
  before : s.torn = false → s.Ahead ∨ .connectedDestroyed ∈ s.conn.functors ∨
    s.ownerAlive = false ∧ (s.refs ≠ [] ∨ Owning (s.vFunctors ++ s.conn.pendingFunctors))
  after : s.torn = true → s.poller.mpChannel nSockFd = none ∧ s.handling = none

theorem watched_initial (owner : Owner) : Watched nSockFd (initial owner) :=
  ⟨fun _ => .inl (.inl List.mem_cons_self),fun htorn => (by cases htorn)⟩

private theorem sendInLoop_whole {call : TcpConnection.Call} (h : c.outputBuffer.WF) (hstate : c.connectState ≠ .disconnected)
    (hdirect : c.Direct) (hs : c.sendInLoop cb call (.ok call.payload.length) = .ok d) : d.writing = c.writing ∧ d.closed = c.closed := by
  have hempty := (TcpConnection.direct_iff h).mpr hdirect
  simp only [TcpConnection.State.sendInLoop,if_neg hstate,TcpConnection.State.writeDirectly,if_pos hempty,
    TcpConnection.State.write,bind_ok_iff,ensure_ok_iff,Except.ok.injEq] at hs
  obtain ⟨r,⟨s',⟨-,-,rfl⟩,rfl⟩,hs⟩ := hs
  simp only [sizeSub_of_le (le_refl _),Nat.sub_self,if_true,lt_irrefl,if_false,Except.ok.injEq] at hs
  obtain ⟨-,-,rfl⟩ := hs
  unfold TcpConnection.State.queueWriteComplete
  split <;> exact ⟨rfl,rfl⟩

/-- What leaves nothing to be written does not call the channel. -/
private theorem channelCalls_runFunctor {answer : Except Int Nat} {f : Functor} (h : c.outputBuffer.WF)
    (hf : f ≠ .connectedDestroyed) (hl : ¬ Leaves c answer f) (hs : c.runFunctor cb answer f = .ok d) : channelCalls c d = [] := by
  cases f with
  | sendInLoop call =>
    have hs : c.sendInLoop cb call answer = .ok d := hs
    rcases TcpConnection.sendInLoop_cases h hs with ⟨-,rfl⟩ | ⟨hstate,n,b,-,-,-,-,rfl⟩
    · exact channelCalls_none rfl rfl
    · by_cases hempty : call.payload = []
      · refine channelCalls_none ?_ rfl
        simp [hempty]
      · have hwhole : c.Direct ∧ answer = .ok call.payload.length := by
          by_contra hnot
          exact hl ⟨hstate,hempty,hnot⟩
        obtain ⟨hdirect,rfl⟩ := hwhole
        obtain ⟨hwriting,hclosed⟩ := sendInLoop_whole h hstate hdirect hs
        exact channelCalls_none hwriting hclosed
  | shutDownInLoop =>
    cases hs
    unfold TcpConnection.State.shutDownInLoop
    split <;> exact channelCalls_none rfl rfl
  | writeComplete =>
    cases hs
    exact channelCalls_none rfl rfl
  | connectedDestroyed => exact absurd rfl hf

/-- The connection's code runs, and behind the teardown it leaves the channel alone. -/
private theorem watched_ran {u : Option Thread} {calls : List (EPoller.Call Unit)} (h : Watched nSockFd s) (hd : Frame u s.conn d)
    (hcalls : s.torn = true → calls = []) (hs : s.ran threadId nSockFd d calls = .ok t) : Watched nSockFd t := by
  have hahead : s.Ahead → t.Ahead := fun ha => ahead_ran ha hd hs
  obtain ⟨poller,rs,hpoller,-,rfl⟩ := ran_cases hs
  obtain ⟨fs,hpending,-⟩ := hd.pending
  refine ⟨fun htorn => ?_,fun htorn => ?_⟩
  · rcases h.before htorn with ha | hmem | ⟨hgone,hothers⟩
    · exact .inl (hahead ha)
    · refine .inr (.inl ?_)
      show Functor.connectedDestroyed ∈ d.functors
      rwa [hd.functors]
    · refine .inr (.inr ⟨hgone,hothers.imp (fun hne => List.append_ne_nil_of_left_ne_nil hne rs) fun howning => ?_⟩)
      show Owning (s.vFunctors ++ d.pendingFunctors)
      rw [hpending,← List.append_assoc]
      exact howning.mono fun g hg => List.mem_append_left _ hg
  · rw [hcalls htorn] at hpoller
    cases hpoller
    exact h.after htorn

private theorem Watched.cons (h : Watched nSockFd s) (u : Thread) : Watched nSockFd { s with refs := .user u :: s.refs } := by
  refine ⟨fun htorn => ?_,h.after⟩
  rcases h.before htorn with ha | hmem | ⟨hgone,hothers⟩
  · exact .inl (ahead_refs ha (List.mem_cons_of_mem _))
  · exact .inr (.inl hmem)
  · exact .inr (.inr ⟨hgone,hothers.imp_left fun _ => List.cons_ne_nil _ _⟩)

/-- What is not in the map is not reported. -/
private theorem watched_poll {mask : Option TcpClose.Mask} (hi : Inv cb nSockFd s) (h : Watched nSockFd s)
    (hreports : ∀ m ∈ mask, s.Reports nSockFd m) :
    Watched nSockFd { s with inEvents := true, handling := mask.map fun m => (m,.close) } := by
  refine ⟨h.before,fun htorn => ?_⟩
  have hmap := (h.after htorn).1
  have hkernel : s.poller.kernel nSockFd = none := hi.poller.absent (c := ()) hmap
  cases mask with
  | none => exact ⟨hmap,rfl⟩
  | some m => exact absurd hkernel (hreports m rfl).2.1

private theorem watched_swapFunctors (h : Watched nSockFd s) (hv : s.vFunctors = []) (hempty : s.conn.functors = []) :
    Watched nSockFd { s with
      conn := { s.conn with functors := s.conn.pendingFunctors, pendingFunctors := [] }
      vFunctors := s.conn.pendingFunctors
      inEvents := false } := by
  refine ⟨fun htorn => ?_,h.after⟩
  rcases h.before htorn with (howner | hclosed | hstrayed | hpending) | hmem | ⟨hgone,hothers⟩
  · exact .inl (.inl howner)
  · exact .inl (.inr (.inl hclosed))
  · exact .inl (.inr (.inr (.inl hstrayed)))
  · exact .inr (.inl hpending)
  · rw [hempty] at hmem
    cases hmem
  · rw [hv,List.nil_append] at hothers
    exact .inr (.inr ⟨hgone,hothers.imp_right fun howning => howning.mono fun g hg => List.mem_append_left _ hg⟩)

private theorem watched_popped {f : Functor} {rest : List Functor} (h : Watched nSockFd s) (hf : s.conn.functors = f :: rest)
    (hne : f ≠ .connectedDestroyed) : Watched nSockFd (s.popped rest) := by
  refine ⟨fun htorn => ?_,h.after⟩
  rcases h.before htorn with ha | hmem | horphan
  · exact .inl ha
  · rw [hf,List.mem_cons] at hmem
    exact .inr (.inl (hmem.resolve_left hne.symm))
  · exact .inr (.inr horphan)

private theorem watched_runFunctor {answer : Except Int Nat} {f : Functor} {rest : List Functor} (hi : Inv cb nSockFd s)
    (h : Watched nSockFd s) (hc : Careful s (.runFunctor answer)) (hf : s.conn.functors = f :: rest) (hne : f ≠ .connectedDestroyed)
    (hd : (s.popped rest).conn.runFunctor cb answer f = .ok d) (heffect : Effect none (s.popped rest).conn d)
    (hran : (s.popped rest).ran threadId nSockFd d (channelCalls (s.popped rest).conn d) = .ok t) : Watched nSockFd t := by
  refine watched_ran (watched_popped h hf hne) heffect.toFrame (fun htorn => ?_) hran
  have hnone : ¬ Leaves s.conn answer f := hc htorn f (by rw [hf]; rfl)
  have hnone' : ¬ Leaves (s.popped rest).conn answer f := by
    cases f <;> exact hnone
  exact channelCalls_runFunctor (c := (s.popped rest).conn) hi.output hne hnone' hd

/-- ConnectedDestroyed has the poller forget the channel; functors run when no event is being handled. -/
private theorem watched_connectedDestroyed (hi : Inv cb nSockFd s) (hevents : s.inEvents = false) {rest : List Functor}
    (hran : (s.popped rest).ran threadId nSockFd d [.disableAll (),.removeChannel ()] = .ok t) :
    Watched nSockFd { t with torn := true } := by
  obtain ⟨poller,rs,hpoller,-,rfl⟩ := ran_cases hran
  refine ⟨fun htorn => (by cases htorn),fun _ => ⟨?_,?_⟩⟩
  · simp only [List.foldlM_cons,List.foldlM_nil,bind_ok_iff] at hpoller
    obtain ⟨p,-,q,hq,hpoller⟩ := hpoller
    cases hpoller
    have hremove : EPoller.removeChannel (fun _ : Unit => nSockFd) () p = .ok poller := hq
    exact (EPoller.removeChannel_forgets hremove).2.2
  · by_contra hhandling
    cases hevents.symm.trans (hi.events hhandling)

/-- A pointer is dropped that is not the owner's. -/
private theorem watched_drop {r : Ref} (h : Watched nSockFd s) (hr : r ≠ .owner) (hc : s.Orphaned → s.Others r) :
    Watched nSockFd { s with refs := s.refs.erase r } := by
  refine ⟨fun htorn => ?_,h.after⟩
  by_cases hahead : s.Ahead
  · exact .inl (ahead_refs hahead fun hmem => (List.mem_erase_of_ne hr.symm).mpr hmem)
  · by_cases hmem : .connectedDestroyed ∈ s.conn.functors
    · exact .inr (.inl hmem)
    · obtain ⟨hgone,-⟩ := ((h.before htorn).resolve_left hahead).resolve_left hmem
      exact .inr (.inr ⟨hgone,hc ⟨hgone,hahead,hmem,htorn⟩⟩)

private theorem watched_doPendingFunctorsReturns (h : Watched nSockFd s) (hc : Careful s .doPendingFunctorsReturns)
    (hempty : s.conn.functors = []) : Watched nSockFd { s with vFunctors := [] } := by
  refine ⟨fun htorn => ?_,h.after⟩
  by_cases hahead : s.Ahead
  · exact .inl hahead
  · have hmem : .connectedDestroyed ∉ s.conn.functors := by simp [hempty]
    obtain ⟨hgone,-⟩ := ((h.before htorn).resolve_left hahead).resolve_left hmem
    exact .inr (.inr ⟨hgone,hc ⟨hgone,hahead,hmem,htorn⟩⟩)

private theorem watched_destroyOwner (h : Watched nSockFd s) (hc : Careful s .destroyOwner) :
    Watched nSockFd { s with ownerAlive := false, refs := s.refs.erase .owner } := by
  refine ⟨fun htorn => ?_,h.after⟩
  by_cases howner : .owner ∈ s.refs
  · exact .inr (.inr ⟨rfl,hc howner⟩)
  · rw [List.erase_of_not_mem howner]
    rcases h.before htorn with ha | hmem | ⟨-,hothers⟩
    · exact .inl ha
    · exact .inr (.inl hmem)
    · exact .inr (.inr ⟨rfl,hothers⟩)

theorem watched_move {a : Label} (hi : Inv cb nSockFd s) (h : Watched nSockFd s) (hc : Careful s a)
    (hm : Move threadId cb nSockFd s a t) : Watched nSockFd t := by
  cases hm with
  | call huser hd hquiet hran =>
    refine watched_ran h hd.toFrame (fun htorn => hquiet ?_) hran
    rcases hi.past htorn with hstate | hstate <;> simp [hstate]
  | connectedEstablished hcon hd hran =>
    refine watched_ran h (frame_connectedEstablished hd) (fun htorn => ?_) hran
    rcases hi.past htorn with hstate | hstate <;> cases hstate.symm.trans hcon
  | newConnectionReturns => exact watched_drop h (by simp) hc
  | poll mask hreports => exact watched_poll hi h hreports
  | branch readAnswer writeAnswer hhandling hd hran =>
    have hup : s.torn = false := by
      cases htorn : s.torn with
      | false => rfl
      | true => exact absurd (h.after htorn).2 hhandling
    have hran' := watched_ran h hd.toFrame (fun htorn => by cases hup.symm.trans htorn) hran
    obtain ⟨poller,rs,-,-,rfl⟩ := ran_cases hran
    exact ⟨hran'.before,fun htorn => by cases hup.symm.trans htorn⟩
  | swapFunctors hhandling hbatch hempty => exact watched_swapFunctors h hbatch hempty
  | runFunctor answer hf hne hd heffect hran => exact watched_runFunctor hi h hc hf hne hd heffect hran
  | connectedDestroyed answer hevents hf hd hran => exact watched_connectedDestroyed hi hevents hran
  | doPendingFunctorsReturns hempty => exact watched_doPendingFunctorsReturns h hc hempty
  | removeConnection hremove =>
    have hahead := ahead_removeConnection hremove
    obtain ⟨owner,rfl | rfl⟩ := removeConnection_cases hremove
    · exact ⟨fun _ => .inl hahead,h.after⟩
    · exact ⟨fun _ => .inl hahead,h.after⟩
  | removeConnectionReturns hlt => exact watched_drop h (by simp) hc
  | otherConnection owner => exact ⟨h.before,h.after⟩
  | gives u => exact h.cons u
  | release u huser hidle => exact watched_drop h (by simp) hc
  | destroyOwner => exact watched_destroyOwner h hc

/-- In every run whose steps are careful, the last reference to the
connection is dropped behind ConnectedDestroyed only, and when the poller has forgotten it. -/
theorem dies_unregistered {owner : Owner} {labels : List Label}
    (hc : (machine threadId cb nSockFd).Along Careful (initial owner) labels)
    (hr : (machine threadId cb nSockFd).run (initial owner) labels = .ok s) (hdead : ¬ s.Alive) :
    s.torn = true ∧ s.poller.mpChannel nSockFd = none := by
  have hrun := (machine threadId cb nSockFd).run_along (P := fun s => Inv cb nSockFd s ∧ Watched nSockFd s)
    (fun s a t h hp hs => ⟨inv_step h.1 hs,watched_move h.1 h.2 hp (move_of_step h.1.output hs)⟩) ⟨inv_initial owner,watched_initial owner⟩ hc hr
  obtain ⟨hi,hw⟩ := hrun
  have htorn : s.torn = true := by
    by_contra hup
    rcases hw.before (Bool.eq_false_iff.mpr hup) with hahead | hmem | ⟨-,hrefs | howning⟩
    · exact hdead (hahead.alive hi)
    · exact hdead (Owning.alive ⟨_,List.mem_append_left _ (hi.batch _ hmem),rfl⟩)
    · exact hdead (alive_of_refs hrefs)
    · exact hdead howning.alive
  exact ⟨htorn,(hw.after htorn).1⟩

private theorem useCount_erase {r : Ref} (b : Bool) (hr : r ∈ s.refs) (hone : s.useCount = 1) :
    ¬ State.Alive { s with ownerAlive := b, refs := s.refs.erase r } := by
  have hlength := List.length_erase_of_mem hr
  have hpos := List.length_pos_of_mem hr
  unfold State.useCount at hone
  simp only [State.Alive,State.useCount,hlength]
  omega

/-- And without care: where the owner or a thread has the only pointer to a connection that
is up, its channel is still in the poller's map when the pointer goes. -/
theorem last_pointer_leaves_channel {a : Label} (h : (machine threadId cb nSockFd).Reachable s)
    (hup : s.conn.connectState ≠ .connecting) (htorn : s.torn = false) (hone : s.useCount = 1)
    (ha : a = .destroyOwner ∧ .owner ∈ s.refs ∨ ∃ u, a = .release u) (hs : step threadId cb nSockFd s a = .ok t) :
    ¬ t.Alive ∧ t.torn = false ∧ t.poller.mpChannel nSockFd ≠ none := by
  have hregistered := (inv_reachable h).registered hup htorn
  rcases ha with ⟨rfl,howner⟩ | ⟨u,rfl⟩
  · simp only [step,bind_ok_iff,Except.ok.injEq] at hs
    obtain ⟨-,-,rfl⟩ := hs
    exact ⟨useCount_erase false howner hone,htorn,hregistered⟩
  · simp only [step,bind_ok_iff,ensure_ok_iff,Except.ok.injEq] at hs
    obtain ⟨-,⟨huser,-⟩,rfl⟩ := hs
    exact ⟨useCount_erase s.ownerAlive huser hone,htorn,hregistered⟩

/-- A client is destroyed while thread 7 has a pointer, the peer closes, and the pointer goes last. -/
def outliving : List Label := [.connectedEstablished,.copy 1 7,.release 1,.newConnectionReturns,.destroyOwner,
  .poll (some ⟨false,false,true,false,false⟩),.branch (.ok []) (.ok 0),.branch (.ok []) (.ok 0),.branch (.ok []) (.ok 0),
  .removeConnection,.removeConnectionReturns,.branch (.ok []) (.ok 0),.swapFunctors,.runFunctor (.ok 0),
  .doPendingFunctorsReturns,.release 7]

theorem dies_unregistered_outliving : ∃ s, (machine 1 ⟨true,none,false⟩ 9).run (initial .client) outliving = .ok s ∧
    ¬ s.Alive ∧ s.torn = true ∧ s.poller.mpChannel 9 = none := by
  obtain ⟨s,hr,hv⟩ := (machine 1 ⟨true,none,false⟩ 9).exists_run_eq (s := initial .client) outliving (fun s => decide s.Alive)
    (b := false) (by decide +kernel)
  have hdead : ¬ s.Alive := of_decide_eq_false hv
  have hc : (machine 1 ⟨true,none,false⟩ 9).Along Careful (initial .client) outliving := by decide +kernel
  exact ⟨s,hr,hdead,dies_unregistered hc hr hdead⟩

/-- An established connection of which no thread has a pointer, when its owner is destroyed. -/
def abandoning : List Label := [.connectedEstablished,.release 1,.newConnectionReturns,.destroyOwner]

/-- Neither ~TcpServer nor ~TcpClient tears its connection down: it dies with its channel in the poller's map. -/
theorem dies_registered :
    (∃ s, (machine 1 ⟨true,none,false⟩ 9).run (initial (.server 0 ⟨0,[],0⟩)) abandoning = .ok s ∧
      ¬ s.Alive ∧ s.torn = false ∧ s.poller.mpChannel 9 = some ()) ∧
    ∃ s, (machine 1 ⟨true,none,false⟩ 9).run (initial .client) abandoning = .ok s ∧
      ¬ s.Alive ∧ s.torn = false ∧ s.poller.mpChannel 9 = some () := by
  have hdies : ∀ owner : Owner, ((machine 1 ⟨true,none,false⟩ 9).run (initial owner) abandoning).toOption.map
      (fun s => (decide s.Alive,s.torn,s.poller.mpChannel 9)) = some (false,false,some ()) →
      ∃ s, (machine 1 ⟨true,none,false⟩ 9).run (initial owner) abandoning = .ok s ∧
        ¬ s.Alive ∧ s.torn = false ∧ s.poller.mpChannel 9 = some () := by
    intro owner hv
    obtain ⟨s,hr,hs⟩ := (machine 1 ⟨true,none,false⟩ 9).exists_run_eq _ _ hv
    simp only [Prod.mk.injEq,decide_eq_false_iff_not] at hs
    exact ⟨s,hr,hs⟩
  exact ⟨hdies _ (by decide +kernel),hdies _ (by decide +kernel)⟩

/-- A ShutDown that overtook ConnectedDestroyed: the message behind it makes the dead channel writable. -/
example : ((machine 1 ⟨true,none,false⟩ 9).run (initial (.server 0 ⟨0,[],0⟩)) ([.connectedEstablished,.copy 1 7,.copy 1 8,
    .release 1,.newConnectionReturns,.shutDown 8,.send 7 (.string [1]) (.ok 0),.poll (some ⟨false,false,true,false,false⟩),
    .branch (.ok []) (.ok 0),.branch (.ok []) (.ok 0),.branch (.ok []) (.ok 0),.removeConnection,.removeConnectionReturns,
    .branch (.ok []) (.ok 0),.swapFunctors,.runFunctor (.ok 0),.doPendingFunctorsReturns,.proceed 8,.proceed 7,.poll none,
    .swapFunctors,.runFunctor (.error 11),.doPendingFunctorsReturns,.release 7,.proceed 8,.poll none,.swapFunctors,
    .runFunctor (.ok 0),.doPendingFunctorsReturns,.release 8])).toOption.map
      (fun s => (decide s.Alive,s.torn,s.poller.mpChannel 9)) = some (false,true,some ()) := by
  decide +kernel

end LinuxServer.Reactor.TcpLifetime
