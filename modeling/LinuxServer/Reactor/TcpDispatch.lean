import LinuxServer.Reactor.TcpDescriptors

/-! The loops of a server. Each polls, handles the events of the channels it found one
after the other, and runs the functors that were queued by then. Connections are closed
and destroyed meanwhile, but none whose channel is still to be handled. Nobody calls ShutDown. -/
namespace LinuxServer.Reactor.TcpDispatch
open LinuxServer.Lib
open TcpServer (Loop)
open TcpDescriptors (Up Refused)

/-- Where a loop is in Loop() and doPendingFunctors(). -/
inductive Phase where
  | poll
  | events (activeChannels : List Nat)
  /-- In HandleEvent of a channel; the others come after it. -/
  | handling (k : Nat) (activeChannels : List Nat)
  /-- How many of the functors swapped out are left. -/
  | functors (n : Nat)
  deriving DecidableEq

namespace Phase

/-- What is left of the active channels, with the one in its HandleEvent. -/
def activeChannels : Phase → List Nat
  | .events ks => ks
  | .handling k ks => k :: ks
  | _ => []

/-- The channel in its HandleEvent. -/
def handled : Phase → Option Nat
  | .handling k _ => some k
  | _ => none

/-- The loop is between two events, so that the acceptor's may be handled now. -/
def betweenEvents : Phase → Bool
  | .events _ => true
  | _ => false

theorem mem_of_handled {p : Phase} {k : Nat} (h : p.handled = some k) : k ∈ p.activeChannels := by
  cases p with
  | handling j ks =>
    cases h
    exact List.mem_cons_self
  | poll => cases h
  | events ks => cases h
  | functors n => cases h

end Phase

structure State where
  base : TcpDescriptors.State
  phase : Loop → Phase

inductive Label where
  | poll (l : Loop) (answer : Except Int (List (Int × BitVec 32)))
  | handleEvent (l : Loop)
  | endEvent (l : Loop)
  /-- doPendingFunctors up to the swap. -/
  | swap (l : Loop)
  | runFunctor (l : Loop)
  | endFunctors (l : Loop)
  /-- A connection comes, is closed or used, or its pointer kept, where the code runs that does it. -/
  | run (a : TcpDescriptors.Label)
  | destroy (k : Nat)

namespace State

/-- m_bEventHandling of a connection's channel. -/
def eventHandling (s : State) (k : Nat) : Bool :=
  match s.base.server.connection k with
  | some c => (s.phase c.loop).handled = some k
  | none => false

/-- The connection's loop is in a callback or a functor. -/
def inLoop (s : State) (k : Nat) : Bool :=
  match s.base.server.connection k with
  | some c => s.phase c.loop ≠ .poll
  | none => false

/-- Who may do this now. Pointers may be kept and released in any thread. -/
def allows (s : State) : TcpDescriptors.Label → Bool
  | .accept _ => (s.phase s.base.server.pool.baseLoop).betweenEvents
  | .handleClose k => s.eventHandling k
  | .enableWriting k | .disableWriting k => s.inLoop k
  | .copy _ | .release _ => true
  | .poll .. | .runFunctor _ | .destroy _ => false

/-- The last pointer is gone, and ~Channel runs. -/
def destroy (s : State) (k : Nat) : Except Halt State := do
  let base ← s.base.destroy k
  ensure (.assertion "!m_bEventHandling") (s.eventHandling k = false)
  .ok { s with base := base }

end State

def step (s : State) : Label → Except Halt State
  | .poll l answer => do
    ensure .notEnabled (s.phase l = .poll)
    let base ← s.base.poll l answer
    .ok ⟨base,Function.update s.phase l (.events (base.poller l).activeChannels)⟩
  | .handleEvent l =>
    match s.phase l with
    | .events (k :: ks) => .ok { s with phase := Function.update s.phase l (.handling k ks) }
    | _ => .error .notEnabled
  | .endEvent l =>
    match s.phase l with
    | .handling _ ks => .ok { s with phase := Function.update s.phase l (.events ks) }
    | _ => .error .notEnabled
  | .swap l =>
    match s.phase l with
    | .events [] => .ok { s with phase := Function.update s.phase l (.functors (s.base.server.queue l).length) }
    | _ => .error .notEnabled
  | .runFunctor l =>
    match s.phase l with
    | .functors (n + 1) => do
      let base ← s.base.runFunctor l
      .ok ⟨base,Function.update s.phase l (.functors n)⟩
    | _ => .error .notEnabled
  | .endFunctors l =>
    match s.phase l with
    | .functors 0 => .ok { s with phase := Function.update s.phase l .poll }
    | _ => .error .notEnabled
  | .run a => do
    ensure .notEnabled (s.allows a = true)
    let base ← TcpDescriptors.step s.base a
    .ok { s with base := base }
  | .destroy k => s.destroy k

def machine : Machine State Label Halt :=
  ⟨fun s => TcpDescriptors.machine.Init s.base ∧ s.phase = fun _ => .poll,step⟩

structure Inv (s : State) : Prop where
  base : TcpDescriptors.machine.Reachable s.base
  up : ∀ l, ∀ k ∈ (s.phase l).activeChannels, Up s.base l k

section
variable {s t : State} {l : Loop} {k : Nat}

/-- One loop goes on to another phase, and what it has still to handle is up. -/
private theorem Inv.setPhase (h : Inv s) {base : TcpDescriptors.State} {p : Phase}
    (hbase : TcpDescriptors.machine.Reachable base) (hkeep : ∀ m j, m ≠ l → Up s.base m j → Up base m j)
    (hp : ∀ k ∈ p.activeChannels, Up base l k) : Inv ⟨base,Function.update s.phase l p⟩ := by
  refine ⟨hbase,fun m j hj => ?_⟩
  by_cases hm : m = l
  · subst hm
    simp only [Function.update_self] at hj
    exact hp j hj
  · simp only [Function.update_of_ne hm] at hj
    exact hkeep m j hm (h.up m j hj)

/-- A loop's own phase changes. -/
private theorem Inv.move (h : Inv s) {p : Phase} (hp : ∀ k ∈ p.activeChannels, k ∈ (s.phase l).activeChannels) :
    Inv { s with phase := Function.update s.phase l p } :=
  h.setPhase h.base (fun _ _ _ => id) fun k hk => h.up l k (hp k hk)

/-- Nothing that a channel waits for takes its connection down. -/
private theorem Inv.run (h : Inv s) {a : TcpDescriptors.Label} {base : TcpDescriptors.State}
    (hs : TcpDescriptors.step s.base a = .ok base) (ha : ∀ l, a ≠ .runFunctor l) : Inv { s with base := base } :=
  ⟨h.base.step hs,fun l k hk => (TcpDescriptors.inv_reachable h.base).up_step hs (h.up l k hk) (ha l)⟩

private theorem Inv.not_handled (h : Inv s) (hforgotten : s.base.Forgotten k) : s.eventHandling k = false := by
  rw [State.eventHandling]
  cases hc : s.base.server.connection k with
  | none => rfl
  | some c =>
    refine decide_eq_false fun hhandled => ?_
    obtain ⟨d,hd,-,hstate⟩ := h.up c.loop k (Phase.mem_of_handled hhandled)
    cases hc.symm.trans hd
    have hgone := (TcpDescriptors.inv_reachable h.base).disconnected hc hforgotten
    rw [hstate] at hgone
    cases hgone

private theorem Inv.step (h : Inv s) (a : Label) :
    (∃ t, step s a = .ok t ∧ Inv t) ∨ ∃ e, TcpDispatch.step s a = .error e ∧ Refused e := by
  have hb := TcpDescriptors.inv_reachable h.base
  have hstay : ∃ e : Halt, (.error .notEnabled : Except Halt State) = .error e ∧ Refused e := ⟨_,rfl,.inl rfl⟩
  cases a with
  | poll l answer =>
    by_cases hp : s.phase l = .poll
    · simp only [TcpDispatch.step,ensure_of _ hp,ok_bind]
      rcases hb.poll l answer with ⟨base,hbase,-,hserver,hactive⟩ | he
      · refine .inl ⟨_,by rw [hbase]; rfl,h.setPhase (h.base.step (a := .poll l answer) hbase) (fun m j _ hu => ?_) fun k hk => ?_⟩
        · rwa [Up,hserver]
        · rw [Up,hserver]
          exact hactive k hk
      · rw [he]
        exact .inr hstay
    · simp only [TcpDispatch.step,ensure_not _ hp]
      exact .inr hstay
  | handleEvent l =>
    simp only [TcpDispatch.step]
    split
    · rename_i k ks hp
      exact .inl ⟨_,rfl,h.move fun j hj => by rw [hp]; exact hj⟩
    · exact .inr hstay
  | endEvent l =>
    simp only [TcpDispatch.step]
    split
    · rename_i k ks hp
      exact .inl ⟨_,rfl,h.move fun j hj => by rw [hp]; exact List.mem_cons_of_mem k hj⟩
    · exact .inr hstay
  | swap l =>
    simp only [TcpDispatch.step]
    split
    · exact .inl ⟨_,rfl,h.move fun j hj => by cases hj⟩
    · exact .inr hstay
  | runFunctor l =>
    simp only [TcpDispatch.step]
    split
    · rcases hb.step (.runFunctor l) with ⟨base,hbase,-⟩ | ⟨e,he,hrefused⟩
      · have hrun : s.base.runFunctor l = .ok base := hbase
        rw [hrun]
        refine .inl ⟨_,rfl,h.setPhase (h.base.step (a := .runFunctor l) hbase) (fun m j hm hu => hb.up_step hbase hu ?_) fun k hk => by cases hk⟩
        rintro ⟨⟩
        exact hm rfl
      · have hrun : s.base.runFunctor l = .error e := he
        rw [hrun]
        exact .inr ⟨e,rfl,hrefused⟩
    · exact .inr hstay
  | endFunctors l =>
    simp only [TcpDispatch.step]
    split
    · exact .inl ⟨_,rfl,h.move fun j hj => by cases hj⟩
    · exact .inr hstay
  | run a =>
    by_cases hallows : s.allows a = true
    · simp only [TcpDispatch.step,ensure_of _ hallows,ok_bind]
      rcases hb.step a with ⟨base,hbase,-⟩ | ⟨e,he,hrefused⟩
      · rw [hbase]
        refine .inl ⟨_,rfl,h.run hbase ?_⟩
        rintro l rfl
        cases hallows
      · rw [he]
        exact .inr ⟨e,rfl,hrefused⟩
    · simp only [TcpDispatch.step,ensure_not _ hallows]
      exact .inr hstay
  | destroy k =>
    simp only [TcpDispatch.step,State.destroy]
    rcases hb.step (.destroy k) with ⟨base,hbase,-⟩ | ⟨e,he,hrefused⟩
    · have hrun : s.base.destroy k = .ok base := hbase
      have hlast := hrun
      simp only [TcpDescriptors.State.destroy,bind_ok_iff,ensure_ok_iff] at hlast
      obtain ⟨-,⟨-,hforgotten,-⟩,-⟩ := hlast
      rw [hrun,ok_bind,ensure_of _ (h.not_handled hforgotten)]
      exact .inl ⟨_,rfl,h.run hbase fun l hl => by cases hl⟩
    · have hrun : s.base.destroy k = .error e := he
      rw [hrun]
      exact .inr ⟨e,rfl,hrefused⟩

theorem inv_reachable (h : machine.Reachable s) : Inv s := by
  refine h.invariant (P := Inv) ?_ fun s a t hi hs => ?_
  · rintro s ⟨hbase,hphase⟩
    refine ⟨⟨_,[],hbase,rfl⟩,fun l k hk => ?_⟩
    rw [hphase] at hk
    cases hk
  · rcases hi.step a with ⟨u,hu,hinv⟩ | ⟨e,he,-⟩
    · cases hs.symm.trans hu
      exact hinv
    · cases hs.symm.trans he

/-- On every run of the loops: a channel that is being handled, or that its loop has still to
handle, is that of a connection that is up in this loop and has its socket, and the
poller knows it by its descriptor; no channel is destroyed in its HandleEvent; and none
of the pollers' assertions fails. -/
theorem active_channels_live (h : machine.Reachable s) :
    (∀ l, ∀ k ∈ (s.phase l).activeChannels, s.base.Open k ∧
      (s.base.poller l).mpChannel (s.base.fd k) = some k ∧
      ∃ c, s.base.server.connection k = some c ∧ c.loop = l ∧ c.connectState = .connected) ∧
    ∀ a e, step s a = .error e → Refused e := by
  have hi := inv_reachable h
  have hb := TcpDescriptors.inv_reachable hi.base
  refine ⟨fun l k hk => ?_,fun a e he => ?_⟩
  · have hup := hi.up l k hk
    exact ⟨(hb.up_on hup).open,((hb.serves l).listed _ k).mpr ⟨hup,rfl⟩,hup⟩
  · rcases hi.step a with ⟨t,ht,-⟩ | ⟨e',he',hrefused⟩
    · cases he.symm.trans ht
    · cases he.symm.trans he'
      exact hrefused

end

/-- Two connections have events. The first is closed in its own, and the other waits. -/
theorem active_channels_live_two : ∃ s, machine.Reachable s ∧ s.phase 0 = .handling 1 [2] ∧ s.base.Open 2 := by
  have hinit : machine.Init ⟨TcpDescriptors.initial 0 [] "srv",fun _ => .poll⟩ := ⟨⟨0,[],"srv",by decide,rfl⟩,rfl⟩
  obtain ⟨s,hr,hv⟩ := machine.exists_reachable hinit [.poll 0 (.ok []),.run (.accept 7),.run (.accept 8),.swap 0,.endFunctors 0,
      .poll 0 (.ok [(7,1),(8,1)]),.handleEvent 0,.run (.handleClose 1)]
    (fun s => s.phase 0) (b := .handling 1 [2]) (by decide +kernel)
  refine ⟨s,hr,hv,((active_channels_live hr).1 0 2 ?_).1⟩
  rw [hv]
  exact List.mem_cons_of_mem 1 List.mem_cons_self

end LinuxServer.Reactor.TcpDispatch
