import LinuxServer.Reactor.Connector

/-! The connector's sockets, from ::connect to Close or to the new-connection callback.
One branch of the write callback keeps its socket. -/
namespace LinuxServer.Reactor.Connector
open LinuxServer.Lib

section Sockets
variable {s t : State} {a : Label}

/-- How often a socket was disposed of, and how often that was due: once, when it was
made and no channel of the connector is registered for it. -/
def disposals (s : State) (fd : Nat) : Nat := s.closed.count fd + s.passed.count fd
def due (s : State) (fd : Nat) : Nat := if fd < s.nextFd ∧ s.channel ≠ some ⟨fd,true⟩ then 1 else 0

/-- Closed once or passed on once, or still registered; and nothing else was disposed of. -/
def Conserved (s : State) : Prop := ∀ fd, disposals s fd = due s fd

/-- The write callback alone, with an error pending on the socket. -/
def PendingError : Label → Prop
  | .handleEvent error write soError _ => error = false ∧ write = true ∧ soError ≠ 0
  | _ => False

instance : (a : Label) → Decidable (PendingError a)
  | .handleEvent _ _ _ _ => inferInstanceAs (Decidable (_ ∧ _))
  | .enableRetry | .connectCall | .start | .queueStart | .disConnect | .stopCall | .stopConnector | .queueCancel | .loopConnect
  | .loopStop | .loop | .connect _ | .poll | .lost _ | .expire _ | .fire | .doPendingFunctors | .functor => isFalse id

/-- What a step does with sockets. -/
inductive SocketMove (s : State) (pendingError : Prop) (t : State) : Prop where
  | nothing (hp : ¬ pendingError) (hclosed : t.closed = s.closed) (hpassed : t.passed = s.passed) (hnext : t.nextFd = s.nextFd)
      (hc : ∀ fd, t.channel = some ⟨fd,true⟩ ↔ s.channel = some ⟨fd,true⟩)
  | created (hp : ¬ pendingError) (hclosed : t.closed = s.closed) (hpassed : t.passed = s.passed) (hnext : t.nextFd = s.nextFd + 1)
      (hc : s.channel = none) (hc' : t.channel = some ⟨s.nextFd,true⟩)
  | refused (hp : ¬ pendingError) (hclosed : t.closed = s.closed ++ [s.nextFd]) (hpassed : t.passed = s.passed)
      (hnext : t.nextFd = s.nextFd + 1) (hc : t.channel = s.channel)
  | disposed (fd : Nat) (hp : ¬ pendingError)
      (hd : t.closed = s.closed ++ [fd] ∧ t.passed = s.passed ∨ t.closed = s.closed ∧ t.passed = s.passed ++ [fd])
      (hnext : t.nextFd = s.nextFd) (hc : s.channel = some ⟨fd,true⟩) (hc' : t.channel = some ⟨fd,false⟩)
  | kept (fd : Nat) (hp : pendingError) (hclosed : t.closed = s.closed) (hpassed : t.passed = s.passed)
      (hnext : t.nextFd = s.nextFd) (hc : s.channel = some ⟨fd,true⟩) (hc' : t.channel = some ⟨fd,false⟩)

private theorem socketMove_startInLoop (hs : s.startInLoop = .ok t) : SocketMove s False t := by
  obtain ⟨-,rfl⟩ := startInLoop_ok_iff.mp hs
  exact .nothing id rfl rfl rfl fun _ => .rfl

private theorem socketMove_connect {errno : Errno} (hs : s.connect errno = .ok t) : SocketMove s False t := by
  rcases connect_cases hs with ⟨hc,rfl⟩ | rfl | rfl
  · exact .created id rfl rfl rfl hc rfl
  · obtain ⟨_,_,_,_,heq⟩ := retry_eq { s with nextFd := s.nextFd + 1, loop := .idle } s.nextFd
    rw [heq]
    exact .refused id rfl rfl rfl rfl
  · exact .refused id rfl rfl rfl rfl

private theorem socketMove_event {fd soError : Nat} {error write : Bool} {active : List Nat} (hc : s.channel = some ⟨fd,true⟩)
    (hs : Event { s with active := active } fd error write soError t) :
    SocketMove s (error = false ∧ write = true ∧ soError ≠ 0) t := by
  cases hs with
  | nothing hr hw => exact .nothing (by simp [hw]) rfl rfl rfl fun _ => .rfl
  | retried hok =>
    obtain ⟨_,_,_,_,heq⟩ := retry_eq (State.removed { s with active := active } fd) fd
    rw [heq]
    refine .disposed fd ?_ (.inl ⟨rfl,rfl⟩) rfl hc rfl
    rintro ⟨hr,-,hso⟩
    rcases hok with hok | hok
    · cases hr.symm.trans hok
    · exact hso hok
  | kept hr hw hso => exact .kept fd ⟨hr,hw,hso⟩ rfl rfl rfl hc rfl
  | passed hr hso => exact .disposed fd (by simp [hso]) (.inr ⟨rfl,rfl⟩) rfl hc rfl
  | closed hr hso => exact .disposed fd (by simp [hso]) (.inl ⟨rfl,rfl⟩) rfl hc rfl

/-- The reset functor finds no registered channel. -/
private theorem socketMove_runFunctor {f : Functor} {rest : List Functor} (h : Inv s)
    (hf : s.functors = f :: rest) (hs : State.runFunctor { s with functors := rest } f = .ok t) : SocketMove s False t := by
  cases f with
  | startInLoop =>
    obtain ⟨-,rfl⟩ := startInLoop_ok_iff.mp hs
    exact .nothing id rfl rfl rfl fun _ => .rfl
  | resetChannel =>
    cases hs
    refine .nothing id rfl rfl rfl fun fd => ?_
    have hnot : s.channel ≠ some ⟨fd,true⟩ := by
      intro hc
      have hr := (h.attempt_of_registered hc).1
      rw [resets,hf,List.cons_append,List.count_cons_self] at hr
      cases hr
    simp [hnot]
  | cancelInLoop timerId =>
    cases hs
    exact .nothing id rfl rfl rfl fun _ => .rfl

theorem socketMove_of_step (h : Inv s) (hs : step s a = .ok t) : SocketMove s (PendingError a) t := by
  cases a with
  | enableRetry | disConnect | stopCall =>
    cases hs
    exact .nothing id rfl rfl rfl fun _ => .rfl
  | connectCall | start | queueStart | stopConnector | queueCancel | loopConnect | loopStop | poll | expire | doPendingFunctors =>
    simp only [step,bind_ok_iff,ensure_ok_iff,Except.ok.injEq] at hs
    obtain ⟨-,-,rfl⟩ := hs
    exact .nothing id rfl rfl rfl fun _ => .rfl
  | loop =>
    simp only [step] at hs
    split at hs
    · cases hs
      exact .nothing id rfl rfl rfl fun _ => .rfl
    · cases hs
      exact .nothing id rfl rfl rfl fun _ => .rfl
    · cases hs
      exact .nothing id rfl rfl rfl fun _ => .rfl
    · exact socketMove_startInLoop hs
    · cases hs
    · cases hs
  | connect errno =>
    simp only [step,bind_ok_iff,ensure_ok_iff] at hs
    obtain ⟨-,-,hs⟩ := hs
    exact socketMove_connect hs
  | handleEvent error write soError selfConnect =>
    obtain ⟨fd,-,-,hc,hevent⟩ := event_of_step h hs
    exact socketMove_event hc hevent
  | lost fd =>
    simp only [step,bind_ok_iff,ensure_ok_iff] at hs
    obtain ⟨-,-,hs⟩ := hs
    unfold State.removeConnection at hs
    split at hs
    · simp only [bind_ok_iff,ensure_ok_iff,Except.ok.injEq] at hs
      obtain ⟨-,-,rfl⟩ := hs
      exact .nothing id rfl rfl rfl fun _ => .rfl
    · cases hs
  | fire =>
    simp only [step] at hs
    split at hs
    · cases hs
    · simp only [bind_ok_iff,ensure_ok_iff] at hs
      obtain ⟨-,-,hs⟩ := hs
      obtain ⟨-,rfl⟩ := startInLoop_ok_iff.mp hs
      exact .nothing id rfl rfl rfl fun _ => .rfl
  | functor =>
    simp only [step] at hs
    split at hs
    · cases hs
    · rename_i f rest hf
      simp only [bind_ok_iff,ensure_ok_iff] at hs
      obtain ⟨-,-,hs⟩ := hs
      exact socketMove_runFunctor h hf hs

/-- A registered socket was made, and nothing was disposed of before it was due. -/
structure Bounded (s : State) : Prop where
  made : ∀ fd, s.channel = some ⟨fd,true⟩ → fd < s.nextFd
  le : ∀ fd, disposals s fd ≤ due s fd

private theorem due_made {fd : Nat} (h : Bounded s) (hc : s.channel = some ⟨fd,true⟩) (hnext : t.nextFd = s.nextFd)
    (hc' : t.channel = some ⟨fd,false⟩) (u : Nat) : due t u = due s u + if u = fd then 1 else 0 := by
  have hfd := h.made fd hc
  rw [due,due,hnext,hc,hc']
  by_cases hu : u = fd
  · subst hu
    simp [hfd]
  · have hne : fd ≠ u := fun heq => hu heq.symm
    simp [hu,hne]

private theorem due_next (h : Bounded s) (hnext : t.nextFd = s.nextFd + 1) (hc : t.channel = s.channel) (u : Nat) :
    due t u = due s u + if u = s.nextFd then 1 else 0 := by
  rw [due,due,hnext,hc]
  by_cases hu : u = s.nextFd
  · subst hu
    have hnot : s.channel ≠ some ⟨s.nextFd,true⟩ := fun hc => absurd (h.made _ hc) (Nat.lt_irrefl _)
    simp [hnot]
  · have hlt : u < s.nextFd + 1 ↔ u < s.nextFd := by omega
    simp only [hlt,if_neg hu,Nat.add_zero]

private theorem due_registered (hnext : t.nextFd = s.nextFd + 1) (hc : s.channel = none) (hc' : t.channel = some ⟨s.nextFd,true⟩)
    (u : Nat) : due t u = due s u := by
  rw [due,due,hnext,hc,hc']
  by_cases hu : u = s.nextFd
  · subst hu
    simp
  · have hne : s.nextFd ≠ u := fun heq => hu heq.symm
    have hlt : u < s.nextFd + 1 ↔ u < s.nextFd := by omega
    simp [hne,hlt]

private theorem count_snoc (l : List Nat) (fd u : Nat) : (l ++ [fd]).count u = l.count u + if u = fd then 1 else 0 := by
  by_cases hu : u = fd
  · rw [hu,if_pos rfl,List.count_append,List.count_singleton_self]
  · have hne : fd ≠ u := fun heq => hu heq.symm
    rw [if_neg hu,List.count_append,List.count_singleton,if_neg (by simp [hne])]

/-- Disposals and what is due move together, unless a socket is kept. -/
private theorem account (h : Bounded s) {p : Prop} (hm : SocketMove s p t) :
    ∃ d : Nat → Nat, (∀ u, due t u = due s u + d u) ∧
      (¬ p ∧ (∀ u, disposals t u = disposals s u + d u) ∨ p ∧ (∀ u, disposals t u = disposals s u) ∧ ∃ u, d u = 1) := by
  cases hm with
  | nothing hp hclosed hpassed hnext hc =>
    refine ⟨fun _ => 0,fun u => ?_,.inl ⟨hp,fun u => by rw [disposals,hclosed,hpassed]; rfl⟩⟩
    rw [due,due,hnext]
    simp only [ne_eq,hc,Nat.add_zero]
  | created hp hclosed hpassed hnext hc hc' =>
    exact ⟨fun _ => 0,due_registered hnext hc hc',.inl ⟨hp,fun u => by rw [disposals,hclosed,hpassed]; rfl⟩⟩
  | refused hp hclosed hpassed hnext hc =>
    refine ⟨_,due_next h hnext hc,.inl ⟨hp,fun u => ?_⟩⟩
    rw [disposals,disposals,hclosed,hpassed,count_snoc]
    omega
  | disposed fd hp hd hnext hc hc' =>
    refine ⟨_,due_made h hc hnext hc',.inl ⟨hp,fun u => ?_⟩⟩
    rcases hd with ⟨hclosed,hpassed⟩ | ⟨hclosed,hpassed⟩ <;>
    · rw [disposals,disposals,hclosed,hpassed,count_snoc]
      omega
  | kept fd hp hclosed hpassed hnext hc hc' =>
    refine ⟨_,due_made h hc hnext hc',.inr ⟨hp,fun u => by rw [disposals,hclosed,hpassed]; rfl,fd,by simp⟩⟩

private theorem bounded_move (h : Bounded s) {p : Prop} (hm : SocketMove s p t) : Bounded t := by
  refine ⟨fun fd hfd => ?_,fun u => ?_⟩
  · cases hm with
    | nothing _ _ _ hnext hc =>
      rw [hnext]
      exact h.made fd ((hc fd).mp hfd)
    | created _ _ _ hnext _ hc' =>
      rw [hc'] at hfd
      cases hfd
      omega
    | refused _ _ _ hnext hc =>
      have hlt := h.made fd (hc ▸ hfd)
      omega
    | disposed _ _ _ _ _ hc' => cases hc'.symm.trans hfd
    | kept _ _ _ _ _ _ hc' => cases hc'.symm.trans hfd
  · have hle := h.le u
    obtain ⟨d,hdue,⟨-,hdisposals⟩ | ⟨-,hdisposals,-⟩⟩ := account h hm
    · rw [hdue,hdisposals]
      omega
    · rw [hdue,hdisposals]
      omega

/-- One step keeps the account exactly if no error is pending at a write event. -/
theorem conserved_move (h : Bounded s) {p : Prop} (hm : SocketMove s p t) : Conserved t ↔ Conserved s ∧ ¬ p := by
  obtain ⟨d,hdue,⟨hp,hdisposals⟩ | ⟨hp,hdisposals,fd,hd⟩⟩ := account h hm
  · rw [and_iff_left hp]
    refine forall_congr' fun u => ?_
    rw [hdue,hdisposals]
    omega
  · refine iff_of_false (fun hc => ?_) fun hc => hc.2 hp
    have hfd := hc fd
    have hle := h.le fd
    rw [hdue,hdisposals,hd] at hfd
    omega

/-- For every run: each socket made is closed once or passed on once, as soon as no
channel of the connector is registered for it, exactly if no write event came alone
while the socket had an error pending. -/
theorem sockets_conserved_iff {labels : List Label} (hr : machine.run initial labels = .ok s) :
    Conserved s ↔ machine.Along (fun _ a => ¬ PendingError a) initial labels := by
  have hstart : Inv initial ∧ Bounded initial := ⟨inv_initial,by simp [initial],by simp [initial,disposals]⟩
  have hzero : Conserved initial := by simp [Conserved,initial,disposals,due]
  have hrun := machine.run_keeps_iff (C := fun _ a => ¬ PendingError a) (P := fun s => Inv s ∧ Bounded s) (Q := Conserved)
    (fun _ _ _ h hs => ⟨inv_step h.1 hs,bounded_move h.2 (socketMove_of_step h.1 hs)⟩)
    (fun _ _ _ h hs => conserved_move h.2 (socketMove_of_step h.1 hs)) hstart hr
  rwa [and_iff_right hzero] at hrun

/-- A write event finds an error on the socket: the channel is gone, and the socket is
neither closed nor passed on. -/
theorem pendingError_keeps_socket : ∃ s, machine.Reachable s ∧ s.nextFd = 1 ∧ s.channel = none ∧
    s.closed = [] ∧ s.passed = [] ∧ ¬ Conserved s := by
  let labels : List Label := [.connectCall,.start,.queueStart,.poll,.doPendingFunctors,.functor,.connect .EINPROGRESS,.poll,
    .handleEvent false true 111 false,.doPendingFunctors,.functor]
  obtain ⟨s,hr,hv⟩ := machine.exists_reachable rfl labels
    (fun s => (s.nextFd,s.channel,s.closed,s.passed)) (b := (1,none,[],[])) (by decide +kernel)
  simp only [Prod.mk.injEq] at hv
  obtain ⟨hnext,hc,hclosed,hpassed⟩ := hv
  refine ⟨s,hr,hnext,hc,hclosed,hpassed,fun hall => ?_⟩
  have hzero := hall 0
  simp [disposals,due,hnext,hc,hclosed,hpassed] at hzero

/-- A hard error, then a connection that is lost, then a self-connect. -/
theorem sockets_conserved_iff_threeSockets : ∃ s, machine.Reachable s ∧ s.nextFd = 3 ∧ s.closed = [0,2] ∧ s.passed = [1] ∧
    Conserved s := by
  let labels : List Label := [.connectCall,.start,.queueStart,.enableRetry,.poll,.doPendingFunctors,.functor,.connect .EACCES,
    .disConnect,.connectCall,.start,.queueStart,.poll,.doPendingFunctors,.functor,.connect .success,.poll,
    .handleEvent false true 0 false,.doPendingFunctors,.functor,.poll,.lost 1,.loop,.loop,.connect .EINPROGRESS,
    .doPendingFunctors,.poll,.handleEvent false true 0 true]
  obtain ⟨s,hr,hv⟩ := machine.exists_run_eq (s := initial) labels
    (fun s => (s.nextFd,s.closed,s.passed)) (b := (3,[0,2],[1])) (by decide +kernel)
  simp only [Prod.mk.injEq] at hv
  exact ⟨s,⟨initial,labels,rfl,hr⟩,hv.1,hv.2.1,hv.2.2,(sockets_conserved_iff hr).mpr (by decide +kernel)⟩

end Sockets

end LinuxServer.Reactor.Connector
