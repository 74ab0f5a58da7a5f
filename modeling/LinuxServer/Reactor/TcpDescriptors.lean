import LinuxServer.Reactor.EPollerWatch
import LinuxServer.Reactor.TcpRegistry

/-! The descriptors of a server's connections. The kernel gives a closed descriptor out
again, so the channels that its loops' pollers know by descriptor change hands. -/
namespace LinuxServer.Reactor.TcpDescriptors
open LinuxServer.Lib
open TcpServer (Loop Connection)
open EPoller (Channel)

structure State where
  server : TcpServer.State
  /-- The descriptor in a connection's socket and channel. -/
  fd : Nat → Int
  /-- m_pPoller of each loop. -/
  poller : Loop → EPoller.State Nat
  /-- How many TcpConnectionPtrs of a connection are with its user. -/
  held : Nat → Nat
  /-- ~TcpConnection has run, and has closed the socket. -/
  destroyed : Nat → Bool

inductive Label where
  /-- The acceptor's accept returns a descriptor. -/
  | accept (nConnFd : Int)
  | handleClose (k : Nat)
  | runFunctor (l : Loop)
  /-- sendInLoop has bytes left, and handleWrite has written the last. -/
  | enableWriting (k : Nat)
  | disableWriting (k : Nat)
  /-- Poll, with the descriptors and events that epoll_wait found or its error. -/
  | poll (l : Loop) (answer : Except Int (List (Int × BitVec 32)))
  /-- A callback keeps the pointer it is given, and lets go of it again. -/
  | copy (k : Nat)
  | release (k : Nat)
  /-- The last pointer is gone. -/
  | destroy (k : Nat)

namespace State

/-- The connection's socket is open. -/
def Open (s : State) (k : Nat) : Prop := s.server.connection k ≠ none ∧ s.destroyed k = false

instance (s : State) (k : Nat) : Decidable (s.Open k) := inferInstanceAs (Decidable (_ ∧ _))

/-- The server has no pointer to the connection, in its map or in a functor. -/
def Forgotten (s : State) (k : Nat) : Prop :=
  (∀ e ∈ s.server.mpConnection, e.2 ≠ k) ∧
    ∀ l ∈ s.server.pool.baseLoop :: s.server.pool.loops, ∀ f ∈ s.server.queue l, f.connection ≠ k

instance (s : State) (k : Nat) : Decidable (s.Forgotten k) := inferInstanceAs (Decidable (_ ∧ _))

/-- A channel's call, in the poller of the given loop. -/
def update (s : State) (l : Loop) (call : EPoller.Call Nat) : Except Halt State := do
  let p ← EPoller.step s.fd (s.poller l) call
  .ok { s with poller := Function.update s.poller l p }

/-- The acceptor's callback. Without IO loops ConnectedEstablished runs in it. -/
def accept (s : State) (nConnFd : Int) : Except Halt State := do
  ensure .notEnabled (0 ≤ nConnFd ∧ ∀ k < s.server.nextConnId, s.Open k → s.fd k ≠ nConnFd)
  let server ← TcpServer.step s.server .newConnection
  let k := s.server.nextConnId
  let s₁ := { s with server := server, fd := Function.update s.fd k nConnFd }
  match server.connection k with
  | some c => if c.connectState = .connected then s₁.update c.loop (.enableReading k) else .ok s₁
  | none => .error .outOfBounds

def handleClose (s : State) (k : Nat) : Except Halt State := do
  let server ← TcpServer.step s.server (.handleClose k)
  let s₁ := { s with server := server }
  match s.server.connection k with
  | some c => s₁.update c.loop (.disableAll k)
  | none => .error .outOfBounds

def runFunctor (s : State) (l : Loop) : Except Halt State := do
  let server ← TcpServer.step s.server (.runFunctor l)
  let s₁ := { s with server := server }
  match s.server.queue l with
  | .connectedEstablished k :: _ => s₁.update l (.enableReading k)
  | .connectedDestroyed k :: _ => do
    let s₂ ← s₁.update l (.disableAll k)
    s₂.update l (.removeChannel k)
  | _ => .ok s₁

/-- The connection is up, so its code may want to write. -/
def setWriting (s : State) (k : Nat) (call : EPoller.Call Nat) : Except Halt State :=
  match s.server.connection k with
  | some c => do
    ensure .notEnabled (c.connectState = .connected)
    s.update c.loop call
  | none => .error .notEnabled

/-- An event for a descriptor in the epoll set comes with the pointer that is kept there. -/
def stored (p : EPoller.State Nat) (ready : List (Int × BitVec 32)) : List (Nat × BitVec 32) :=
  ready.filterMap fun e => (p.kernel e.1).map fun entry => (entry.2,e.2)

def poll (s : State) (l : Loop) : Except Int (List (Int × BitVec 32)) → Except Halt State
  | .error nErrno => s.update l (.poll (.error nErrno))
  | .ok ready => do
    ensure .notEnabled (ready.length ≤ (s.poller l).unEvents)
    s.update l (.poll (.ok (stored (s.poller l) ready)))

/-- The socket is closed, and the kernel takes its descriptor out of the epoll set. -/
def destroy (s : State) (k : Nat) : Except Halt State := do
  ensure .notEnabled (s.Open k ∧ s.Forgotten k ∧ s.held k = 0)
  match s.server.connection k with
  | some c =>
    let p := s.poller c.loop
    .ok { s with
      poller := Function.update s.poller c.loop { p with kernel := Function.update p.kernel (s.fd k) none }
      destroyed := Function.update s.destroyed k true }
  | none => .error .notEnabled

end State

def step (s : State) : Label → Except Halt State
  | .accept nConnFd => s.accept nConnFd
  | .handleClose k => s.handleClose k
  | .runFunctor l => s.runFunctor l
  | .enableWriting k => s.setWriting k (.enableWriting k)
  | .disableWriting k => s.setWriting k (.disableWriting k)
  | .poll l answer => s.poll l answer
  | .copy k => do
    ensure .notEnabled (s.Open k)
    .ok { s with held := Function.update s.held k (s.held k + 1) }
  | .release k => do
    ensure .notEnabled (0 < s.held k)
    .ok { s with held := Function.update s.held k (s.held k - 1) }
  | .destroy k => s.destroy k

def initial (baseLoop : Loop) (loops : List Loop) (name : String) : State :=
  ⟨TcpServer.initial baseLoop loops name,fun _ => -1,fun _ => EPoller.init,fun _ => 0,fun _ => false⟩

def machine : Machine State Label Halt :=
  ⟨fun s => ∃ baseLoop loops name, (baseLoop :: loops).Nodup ∧ s = initial baseLoop loops name,step⟩

/-! One poller, some of whose channels have descriptors of their own. -/

/-- The poller of a loop with the given connections, of which some are up: it has these
under their descriptors, and nothing else. -/
structure Serves (fd : Nat → Int) (on up : Nat → Prop) (p : EPoller.State Nat) : Prop where
  settled : ∀ k, on k → EPoller.Settled fd p k
  listed : ∀ n k, p.mpChannel n = some k ↔ up k ∧ fd k = n
  entered : ∀ n e, p.kernel n = some e → ∃ k, up k ∧ fd k = n
  refused : p.refused = []

section
variable {fd : Nat → Int} {on up : Nat → Prop} {p p' : EPoller.State Nat} {k : Nat}

/-- The channels of the other connections are where they were. -/
private theorem Serves.frame (h : Serves fd on up p) (hdistinct : ∀ i j, on i → on j → fd i = fd j → i = j) (hk : on k)
    (hframe : EPoller.Frame fd k p p') (hsettled : EPoller.Settled fd p' k) :
    ∀ j, on j → EPoller.Settled fd p' j := by
  intro j hj
  by_cases he : j = k
  · rw [he]
    exact hsettled
  · have hne : fd j ≠ fd k := fun hfd => he (hdistinct j k hj hk hfd)
    rw [EPoller.Settled,EPoller.Tracked,hframe.channels j he,hframe.mpChannel _ hne,hframe.kernel _ hne]
    exact h.settled j hj

/-- A new mask; the channel is in the map from now on. -/
private theorem Serves.set (h : Serves fd on up p) (hdistinct : ∀ i j, on i → on j → fd i = fd j → i = j)
    (hup : ∀ j, up j → on j) (hk : on k) (m : BitVec 32) :
    ∃ p', EPoller.updateChannel fd k (EPoller.setEvents p k m) = .ok p' ∧ Serves fd on (fun j => up j ∨ j = k) p' ∧
      (p'.channels k).nEvents = m ∧ ∀ j, j ≠ k → p'.channels j = p.channels j := by
  have htracked := EPoller.tracked_setEvents m (h.settled k hk).1
  obtain ⟨p',hrun,hframe,hsettled⟩ := EPoller.updateChannel_ok htracked
  have hframe' := (EPoller.frame_setEvents m).trans hframe
  have hin : p'.mpChannel (fd k) = some k := by
    rcases hsettled.1 with ⟨-,hout,-⟩ | ⟨-,hin,-⟩ | ⟨-,hin,-⟩
    · exact absurd hout (EPoller.updateChannel_registers hrun)
    · exact hin
    · exact hin
  refine ⟨p',hrun,⟨h.frame hdistinct hk hframe' hsettled,fun n j => ?_,fun n e he => ?_,hframe'.refused.trans h.refused⟩,?_,
    hframe'.channels⟩
  · by_cases hn : n = fd k
    · rw [hn,hin,Option.some.injEq]
      constructor
      · rintro rfl
        exact ⟨.inr rfl,rfl⟩
      · rintro ⟨hj | hj,hfd⟩
        · exact (hdistinct j k (hup j hj) hk hfd).symm
        · exact hj.symm
    · rw [hframe'.mpChannel n hn,h.listed]
      refine and_congr_left fun hfd => (or_iff_left ?_).symm
      rintro rfl
      exact hn hfd.symm
  · by_cases hn : n = fd k
    · exact ⟨k,.inr rfl,hn.symm⟩
    · rw [hframe'.kernel n hn] at he
      obtain ⟨j,hj,hfd⟩ := h.entered n e he
      exact ⟨j,.inl hj,hfd⟩
  · rw [(EPoller.updateChannel_watches htracked hrun).1 k]
    simp only [EPoller.setEvents,Function.update_self]

/-- A channel without interest leaves the poller, and its descriptor is free in it. -/
private theorem Serves.remove (h : Serves fd on up p) (hdistinct : ∀ i j, on i → on j → fd i = fd j → i = j)
    (hup : ∀ j, up j → on j) (hk : up k) (hnone : (p.channels k).isNoneEvent) :
    ∃ p', EPoller.removeChannel fd k p = .ok p' ∧ Serves fd on (fun j => up j ∧ j ≠ k) p' ∧
      ∀ j, j ≠ k → p'.channels j = p.channels j := by
  have hin : p.mpChannel (fd k) = some k := (h.listed _ _).mpr ⟨hk,rfl⟩
  obtain ⟨p',hrun,hframe,hsettled⟩ := EPoller.removeChannel_ok (h.settled k (hup k hk)).1 hin hnone
  have hout := (EPoller.removeChannel_forgets hrun).2.2
  have hgone : p'.kernel (fd k) = none := by
    rcases hsettled.1 with ⟨-,-,hkernel⟩ | ⟨-,hmap,-⟩ | ⟨-,hmap,-⟩
    · exact hkernel
    · cases hout.symm.trans hmap
    · cases hout.symm.trans hmap
  refine ⟨p',hrun,⟨h.frame hdistinct (hup k hk) hframe hsettled,fun n j => ?_,fun n e he => ?_,hframe.refused.trans h.refused⟩,
    hframe.channels⟩
  · by_cases hn : n = fd k
    · rw [hn,hout]
      refine iff_of_false (fun he => by cases he) ?_
      rintro ⟨⟨hj,hne⟩,hfd⟩
      exact hne (hdistinct j k (hup j hj) (hup k hk) hfd)
    · rw [hframe.mpChannel n hn,h.listed]
      refine and_congr_left fun hfd => (and_iff_left ?_).symm
      rintro rfl
      exact hn hfd.symm
  · have hn : n ≠ fd k := by
      rintro rfl
      cases hgone.symm.trans he
    rw [hframe.kernel n hn] at he
    obtain ⟨j,hj,hfd⟩ := h.entered n e he
    refine ⟨j,⟨hj,?_⟩,hfd⟩
    rintro rfl
    exact hn hfd.symm

/-- Fewer channels are asked about, and the same are up. -/
private theorem Serves.congr {on' up' : Nat → Prop} (h : Serves fd on up p) (hon : ∀ j, on' j → on j) (hup : ∀ j, up' j ↔ up j) :
    Serves fd on' up' p where
  settled j hj := h.settled j (hon j hj)
  listed n j := by rw [hup]; exact h.listed n j
  entered n e he := by
    obtain ⟨j,hj,hfd⟩ := h.entered n e he
    exact ⟨j,(hup j).mpr hj,hfd⟩
  refused := h.refused

/-- What the kernel points to is up, and in the map under its descriptor. -/
private theorem Serves.pointer (h : Serves fd on up p) (hup : ∀ j, up j → on j) {n : Int} {e : EPoller.Entry Nat}
    (he : p.kernel n = some e) : up e.2 ∧ p.mpChannel (fd e.2) = some e.2 := by
  obtain ⟨k,hk,rfl⟩ := h.entered n e he
  rw [(h.settled k (hup k hk)).2 e he]
  exact ⟨hk,(h.listed _ k).mpr ⟨hk,rfl⟩⟩

/-- A poll changes what channels were told, and nothing that matters here. -/
private theorem Serves.same (h : Serves fd on up p) (hsame : EPoller.Same p p') (hrefused : p'.refused = p.refused) :
    Serves fd on up p' where
  settled j hj := by
    rw [EPoller.Settled,EPoller.Tracked,hsame.mpChannel,hsame.kernel,hsame.nIndex,hsame.nEvents]
    exact h.settled j hj
  listed n j := by rw [hsame.mpChannel]; exact h.listed n j
  entered n e he := by
    rw [hsame.kernel] at he
    exact h.entered n e he
  refused := hrefused.trans h.refused

private theorem Serves.poll (h : Serves fd on up p) (hup : ∀ j, up j → on j) {ready : List (Int × BitVec 32)}
    (hroom : ready.length ≤ p.unEvents) :
    ∃ p', EPoller.poll fd (.ok (State.stored p ready)) p = .ok p' ∧ Serves fd on up p' ∧
      (∀ k ∈ p'.activeChannels, up k) ∧ ∀ j, ¬ up j → p'.channels j = p.channels j := by
  have hstored : ∀ e ∈ State.stored p ready, up e.1 ∧ p.mpChannel (fd e.1) = some e.1 := by
    intro e he
    obtain ⟨r,-,hr⟩ := List.mem_filterMap.mp he
    obtain ⟨entry,hentry,rfl⟩ := Option.map_eq_some_iff.mp hr
    exact h.pointer hup hentry
  have hmapped : ∀ e ∈ State.stored p ready, p.mpChannel (fd e.1) = some e.1 := fun e he => (hstored e he).2
  obtain ⟨p',hrun,hrefused,hactive,hchannels⟩ := EPoller.poll_ok ((List.length_filterMap_le ..).trans hroom) hmapped
  have hall : ∀ k ∈ (State.stored p ready).map Prod.fst, up k := by
    intro k hk
    obtain ⟨e,he,rfl⟩ := List.mem_map.mp hk
    exact (hstored e he).1
  refine ⟨p',hrun,h.same (EPoller.same_poll hrun) hrefused,by rwa [hactive],fun j hj => hchannels j fun hmem => hj (hall j hmem)⟩

/-- A new channel with a descriptor that no channel here has. -/
private theorem Serves.add {on' : Nat → Prop} {n : Int} (h : Serves fd on up p) (hnew : ¬ up k)
    (hfree : ∀ j, up j → fd j ≠ n) (hfresh : p.channels k = ⟨Channel.noneEvent,0,-1⟩)
    (hon : ∀ j, on' j → on j ∧ j ≠ k ∨ j = k) : Serves (Function.update fd k n) on' up p := by
  have hmap : p.mpChannel n = none := by
    by_contra hne
    obtain ⟨j,hj⟩ := Option.ne_none_iff_exists'.mp hne
    obtain ⟨hu,hfd⟩ := (h.listed n j).mp hj
    exact hfree j hu hfd
  have hkernel : p.kernel n = none := by
    by_contra hne
    obtain ⟨e,he⟩ := Option.ne_none_iff_exists'.mp hne
    obtain ⟨j,hu,hfd⟩ := h.entered n e he
    exact hfree j hu hfd
  have hself : Function.update fd k n k = n := Function.update_self ..
  have hother : ∀ j, up j → Function.update fd k n j = fd j := fun j hj =>
    Function.update_of_ne (by rintro rfl; exact hnew hj) ..
  refine ⟨fun j hj => ?_,fun m j => ?_,fun m e he => ?_,h.refused⟩
  · rcases hon j hj with ⟨hj,hne⟩ | rfl
    · rw [EPoller.Settled,EPoller.Tracked,Function.update_of_ne hne]
      exact h.settled j hj
    · rw [EPoller.Settled,EPoller.Tracked,hself]
      refine ⟨.inl ⟨by rw [hfresh]; rfl,hmap,hkernel⟩,fun e he => ?_⟩
      cases hkernel.symm.trans he
  · rw [h.listed]
    exact and_congr_right fun hj => by rw [hother j hj]
  · obtain ⟨j,hj,hfd⟩ := h.entered m e he
    exact ⟨j,hj,by rw [hother j hj]; exact hfd⟩

end

/-! What the server's steps do to its connections. -/

section
variable {s t : TcpServer.State} {l : Loop} {k : Nat} {rest : List TcpServer.Functor}

private theorem established_effect (hs : TcpServer.step s (.runFunctor l) = .ok t) (hq : s.queue l = .connectedEstablished k :: rest) :
    ∃ c, s.connection k = some c ∧ c.loop = l ∧ c.connectState = .connecting ∧ t.nextConnId = s.nextConnId ∧
      t.connection = Function.update s.connection k (some { c with connectState := .connected, reading := true }) := by
  simp only [TcpServer.step,hq] at hs
  cases hc : s.connection k with
  | none =>
    rw [hc] at hs
    cases hs
  | some c =>
    simp only [hc,Option.elim_some,TcpServer.State.connectedEstablished,bind_ok_iff,ensure_ok_iff,Except.ok.injEq] at hs
    obtain ⟨-,hl,-,hstate,rfl⟩ := hs
    exact ⟨c,rfl,hl,hstate,rfl,rfl⟩

private theorem destroyed_effect (hs : TcpServer.step s (.runFunctor l) = .ok t) (hq : s.queue l = .connectedDestroyed k :: rest) :
    ∃ c, s.connection k = some c ∧ c.loop = l ∧ (c.connectState = .connected ∨ c.connectState = .disconnecting) ∧
      t.nextConnId = s.nextConnId ∧
      t.connection = Function.update s.connection k (some { c with connectState := .disconnected, reading := false }) := by
  simp only [TcpServer.step,hq] at hs
  cases hc : s.connection k with
  | none =>
    rw [hc] at hs
    cases hs
  | some c =>
    simp only [hc,Option.elim_some,TcpServer.State.connectedDestroyed,bind_ok_iff,ensure_ok_iff,Except.ok.injEq] at hs
    obtain ⟨-,hl,-,hstate,rfl⟩ := hs
    exact ⟨c,rfl,hl,hstate,rfl,rfl⟩

private theorem removed_effect {c : Connection} (hs : s.removeConnectionInLoop k c = .ok t) :
    t.connection = s.connection ∧ t.nextConnId = s.nextConnId := by
  simp only [TcpServer.State.removeConnectionInLoop,TcpServer.State.getNextLoop,bind_ok_iff,Except.ok.injEq] at hs
  obtain ⟨-,-,p,⟨q,-,rfl⟩,rfl⟩ := hs
  exact ⟨rfl,rfl⟩

private theorem removeFunctor_effect (hs : TcpServer.step s (.runFunctor l) = .ok t) (hq : s.queue l = .removeConnectionInLoop k :: rest) :
    t.connection = s.connection ∧ t.nextConnId = s.nextConnId := by
  simp only [TcpServer.step,hq] at hs
  cases hc : s.connection k with
  | none =>
    rw [hc] at hs
    cases hs
  | some c =>
    rw [hc] at hs
    exact removed_effect (s := { s with queue := Function.update s.queue l rest }) hs

private theorem closed_effect (hs : TcpServer.step s (.handleClose k) = .ok t) :
    ∃ c, s.connection k = some c ∧ c.reading = true ∧ t.nextConnId = s.nextConnId ∧
      t.connection = Function.update s.connection k (some { c with reading := false }) := by
  simp only [TcpServer.step] at hs
  split at hs
  · cases hs
  · rename_i c hc
    simp only [TcpServer.State.handleClose,bind_ok_iff,ensure_ok_iff] at hs
    obtain ⟨-,hreading,-,-,hs⟩ := hs
    refine ⟨c,hc,hreading,?_⟩
    split at hs
    · obtain ⟨hconn,hnext⟩ := removed_effect hs
      exact ⟨hnext,hconn⟩
    · cases hs
      exact ⟨rfl,rfl⟩

private theorem accepted_effect (hs : TcpServer.step s .newConnection = .ok t) :
    ∃ c, (c.connectState = .connecting ∨ c.connectState = .connected) ∧ t.nextConnId = s.nextConnId + 1 ∧
      t.connection = Function.update s.connection s.nextConnId (some c) := by
  simp only [TcpServer.step,TcpServer.State.newConnection,TcpServer.State.getNextLoop,bind_ok_iff,Except.ok.injEq] at hs
  obtain ⟨-,-,p,⟨q,-,rfl⟩,hs⟩ := hs
  split at hs
  · simp only [TcpServer.State.connectedEstablished,bind_ok_iff,Except.ok.injEq] at hs
    obtain ⟨-,-,-,-,rfl⟩ := hs
    exact ⟨_,.inr rfl,rfl,Function.update_idem ..⟩
  · cases hs
    exact ⟨_,.inl rfl,rfl,rfl⟩

end

/-! The whole server. -/

/-- The connection belongs to the loop, and its socket is open. -/
def On (s : State) (l : Loop) (k : Nat) : Prop :=
  ∃ c, s.server.connection k = some c ∧ c.loop = l ∧ s.destroyed k = false

/-- The connection is up in the loop. -/
def Up (s : State) (l : Loop) (k : Nat) : Prop :=
  ∃ c, s.server.connection k = some c ∧ c.loop = l ∧ c.connectState = .connected

structure Inv (s : State) : Prop where
  server : TcpServer.machine.Reachable s.server
  destroyed : ∀ k, s.destroyed k = true → ∃ c, s.server.connection k = some c ∧ c.connectState = .disconnected
  distinct : ∀ i j, s.Open i → s.Open j → s.fd i = s.fd j → i = j
  serves : ∀ l, Serves s.fd (On s l) (Up s l) (s.poller l)
  fresh : ∀ l k, s.server.nextConnId ≤ k → (s.poller l).channels k = ⟨Channel.noneEvent,0,-1⟩

section
variable {s t : State} {k : Nat} {l : Loop} {c c' : Connection}

theorem On.open (h : On s l k) : s.Open k := by
  obtain ⟨c,hc,-,hd⟩ := h
  exact ⟨by rw [hc]; exact Option.some_ne_none c,hd⟩

/-- A socket that was closed was that of a connection which is down. -/
private theorem Inv.gone (h : Inv s) (hc : s.server.connection k = some c) (hd : s.destroyed k = true) :
    c.connectState = .disconnected := by
  obtain ⟨d,hd,hgone⟩ := h.destroyed k hd
  cases hc.symm.trans hd
  exact hgone

private theorem Inv.live (h : Inv s) (hup : ∀ c, s.server.connection k = some c → c.connectState ≠ .disconnected) :
    s.destroyed k = false := by
  cases hd : s.destroyed k with
  | false => rfl
  | true =>
    obtain ⟨c,hc,hgone⟩ := h.destroyed k hd
    exact absurd hgone (hup c hc)

theorem Inv.up_on (h : Inv s) (hu : Up s l k) : On s l k := by
  obtain ⟨c,hc,hl,hstate⟩ := hu
  refine ⟨c,hc,hl,h.live fun d hd => ?_⟩
  cases hc.symm.trans hd
  rw [hstate]
  decide

theorem Inv.on_distinct (h : Inv s) (l : Loop) (i j : Nat) (hi : On s l i) (hj : On s l j) (hfd : s.fd i = s.fd j) : i = j :=
  h.distinct i j hi.open hj.open hfd

/-- A connection of the server has a number below the next. -/
theorem Inv.lt_next (h : Inv s) (hc : s.server.connection k = some c) : k < s.server.nextConnId := by
  by_contra hge
  rw [(TcpServer.inv_reachable h.server).fresh k (not_lt.mp hge)] at hc
  cases hc

/-- A number that no open descriptor has goes to one more of them. -/
private theorem distinct_update {isOpen isOpen' : Nat → Prop} {fd : Nat → Int} {n : Int}
    (h : ∀ i j, isOpen i → isOpen j → fd i = fd j → i = j) (hfree : ∀ j, isOpen j → fd j ≠ n)
    (hkept : ∀ j, isOpen' j → j ≠ k → isOpen j) (i j : Nat) (hi : isOpen' i) (hj : isOpen' j)
    (hsame : Function.update fd k n i = Function.update fd k n j) : i = j := by
  by_cases hik : i = k
  · by_cases hjk : j = k
    · rw [hik,hjk]
    · rw [hik,Function.update_self,Function.update_of_ne hjk] at hsame
      exact absurd hsame.symm (hfree j (hkept j hj hjk))
  · rw [Function.update_of_ne hik] at hsame
    by_cases hjk : j = k
    · rw [hjk,Function.update_self] at hsame
      exact absurd hsame (hfree i (hkept i hi hik))
    · rw [Function.update_of_ne hjk] at hsame
      exact h i j (hkept i hi hik) (hkept j hj hjk) hsame

/-- One connection and its loop's poller move on. -/
theorem Inv.moved (h : Inv s) {server : TcpServer.State} {p : EPoller.State Nat} (hserver : TcpServer.machine.Reachable server)
    (hc : s.server.connection k = some c) (hconn : server.connection = Function.update s.server.connection k (some c'))
    (hloop : c'.loop = c.loop) (hnext : server.nextConnId = s.server.nextConnId)
    (hgone : s.destroyed k = true → c'.connectState = .disconnected)
    (hserves : Serves s.fd (On s c.loop) (fun j => Up s c.loop j ∧ j ≠ k ∨ j = k ∧ c'.connectState = .connected) p)
    (hchannels : ∀ j, j ≠ k → p.channels j = (s.poller c.loop).channels j) :
    Inv { s with server := server, poller := Function.update s.poller c.loop p } := by
  have hself : server.connection k = some c' := by rw [hconn]; exact Function.update_self ..
  have hother : ∀ j, j ≠ k → server.connection j = s.server.connection j := fun j hj => by
    rw [hconn]
    exact Function.update_of_ne hj ..
  let t : State := { s with server := server, poller := Function.update s.poller c.loop p }
  have hon : ∀ m j, On t m j → On s m j := by
    rintro m j ⟨d,hd,hl,hdes⟩
    by_cases hj : j = k
    · rw [hj] at hd hdes ⊢
      cases hself.symm.trans hd
      exact ⟨c,hc,hloop.symm.trans hl,hdes⟩
    · exact ⟨d,(hother j hj).symm.trans hd,hl,hdes⟩
  have hopen : ∀ j, t.Open j → s.Open j := by
    intro j hj
    by_cases he : j = k
    · refine ⟨?_,hj.2⟩
      rw [he,hc]
      exact Option.some_ne_none c
    · exact ⟨by rw [← hother j he]; exact hj.1,hj.2⟩
  refine ⟨hserver,fun j hj => ?_,fun i j hi hj hfd => h.distinct i j (hopen i hi) (hopen j hj) hfd,?_,?_⟩
  · by_cases he : j = k
    · rw [he] at hj ⊢
      exact ⟨c',hself,hgone hj⟩
    · obtain ⟨d,hd,hstate⟩ := h.destroyed j hj
      exact ⟨d,(hother j he).trans hd,hstate⟩
  · refine (Function.forall_update_iff s.poller fun m => Serves s.fd (On t m) (Up t m)).mpr ⟨?_,fun m hm => ?_⟩
    · refine hserves.congr (hon c.loop) fun j => ?_
      by_cases hj : j = k
      · rw [hj]
        constructor
        · rintro ⟨d,hd,-,hstate⟩
          cases hself.symm.trans hd
          exact .inr ⟨rfl,hstate⟩
        · rintro (⟨-,hne⟩ | ⟨-,hstate⟩)
          · exact absurd rfl hne
          · exact ⟨c',hself,hloop,hstate⟩
      · constructor
        · rintro ⟨d,hd,hl,hstate⟩
          exact .inl ⟨⟨d,(hother j hj).symm.trans hd,hl,hstate⟩,hj⟩
        · rintro (⟨⟨d,hd,hl,hstate⟩,-⟩ | ⟨he,-⟩)
          · exact ⟨d,(hother j hj).trans hd,hl,hstate⟩
          · exact absurd he hj
    · refine (h.serves m).congr (hon m) fun j => ?_
      by_cases hj : j = k
      · rw [hj]
        refine iff_of_false ?_ ?_
        · rintro ⟨d,hd,hl,-⟩
          cases hself.symm.trans hd
          exact hm (hl.symm.trans hloop)
        · rintro ⟨d,hd,hl,-⟩
          cases hc.symm.trans hd
          exact hm hl.symm
      · simp only [Up,t,hother j hj]
  · refine (Function.forall_update_iff s.poller fun _ q => ∀ j, server.nextConnId ≤ j → q.channels j = ⟨Channel.noneEvent,0,-1⟩).mpr
      ⟨fun j hj => ?_,fun m _ j hj => h.fresh m j (hnext.symm.le.trans hj)⟩
    have hlt := (h.lt_next hc).trans_le (hnext.symm.le.trans hj)
    rw [hchannels j hlt.ne']
    exact h.fresh c.loop j (hnext.symm.le.trans hj)

/-- What the phases of the connections leave of their fields. -/
private theorem shown_state (h : TcpServer.machine.Reachable s.server) (hc : s.server.connection k = some c) :
    c.connectState ≠ .disconnecting ∧ (c.reading = true → c.connectState = .connected) := by
  obtain ⟨phase,htracks⟩ := TcpServer.tracks_reachable h
  cases hp : phase k with
  | none =>
    rw [htracks.unknown k hp] at hc
    cases hc
  | some p =>
    obtain ⟨d,hd,-,hshows⟩ := htracks.shown k p hp
    cases hc.symm.trans hd
    cases p with
    | connecting m => exact ⟨by rw [hshows.2.1]; decide,fun hr => by rw [hshows.2.2] at hr; cases hr⟩
    | opened => exact ⟨by rw [hshows.1]; decide,fun _ => hshows.1⟩
    | closing m => exact ⟨by rw [hshows.2.1]; decide,fun _ => hshows.2.1⟩
    | leaving m => exact ⟨by rw [hshows.1]; decide,fun _ => hshows.1⟩
    | gone => exact ⟨by rw [hshows.1]; decide,fun hr => by rw [hshows.2] at hr; cases hr⟩

/-- A channel's call in its loop's poller goes through, and the channel is in the poller then. -/
private theorem Inv.set (h : Inv s) (hon : On s l k) (m : BitVec 32) :
    ∃ p, EPoller.updateChannel s.fd k (EPoller.setEvents (s.poller l) k m) = .ok p ∧
      Serves s.fd (On s l) (fun j => Up s l j ∨ j = k) p ∧ (p.channels k).nEvents = m ∧
      ∀ j, j ≠ k → p.channels j = (s.poller l).channels j :=
  (h.serves l).set (h.on_distinct l) (fun _ => h.up_on) hon m

/-- The set of channels that are up, with one that is up in front of the step and behind it. -/
private theorem up_kept {up : Nat → Prop} {x : Prop} (hx : x) (j : Nat) : (up j ∧ j ≠ k ∨ j = k ∧ x) ↔ up j ∨ j = k := by
  by_cases hj : j = k <;> simp [hj,hx]

private theorem Inv.setWriting (h : Inv s) {call : EPoller.Call Nat} {m : BitVec 32}
    (hc : s.server.connection k = some c) (hstate : c.connectState = .connected)
    (hcall : EPoller.step s.fd (s.poller c.loop) call =
      EPoller.updateChannel s.fd k (EPoller.setEvents (s.poller c.loop) k m)) :
    ∃ t, s.setWriting k call = .ok t ∧ Inv t := by
  have hon := h.up_on ⟨c,hc,rfl,hstate⟩
  obtain ⟨p,hrun,hserves,-,hchannels⟩ := h.set hon m
  have hkeep : s.server.connection = Function.update s.server.connection k (some c) := by
    rw [← hc,Function.update_eq_self]
  refine ⟨_,?_,h.moved h.server hc hkeep rfl rfl (h.gone hc) (hserves.congr (fun _ => id) (up_kept hstate)) hchannels⟩
  simp only [State.setWriting,hc,ensure_of _ hstate,ok_bind,State.update,hcall,hrun]

private theorem Inv.handleClose (h : Inv s) {server : TcpServer.State}
    (hserver : TcpServer.step s.server (.handleClose k) = .ok server) : ∃ t, s.handleClose k = .ok t ∧ Inv t := by
  obtain ⟨c,hc,hreading,hnext,hconn⟩ := closed_effect hserver
  have hstate := (shown_state h.server hc).2 hreading
  obtain ⟨p,hrun,hserves,-,hchannels⟩ := h.set (h.up_on ⟨c,hc,rfl,hstate⟩) Channel.noneEvent
  refine ⟨_,?_,h.moved (h.server.step (a := .handleClose k) hserver) hc hconn rfl hnext (Inv.gone (c := c) h hc)
    (hserves.congr (fun _ => id) (up_kept hstate)) hchannels⟩
  simp only [State.handleClose,hserver,ok_bind,hc,State.update,EPoller.step,hrun]

/-- Only the server's map and queues have changed. -/
private theorem Inv.requeued (h : Inv s) {server : TcpServer.State} (hserver : TcpServer.machine.Reachable server)
    (hconn : server.connection = s.server.connection) (hnext : server.nextConnId = s.server.nextConnId) :
    Inv { s with server := server } := by
  refine ⟨hserver,fun j hj => ?_,fun i j hi hj => h.distinct i j ?_ ?_,fun m => ?_,fun m j hj => ?_⟩
  · simp only [hconn]
    exact h.destroyed j hj
  · exact ⟨by rw [← hconn]; exact hi.1,hi.2⟩
  · exact ⟨by rw [← hconn]; exact hj.1,hj.2⟩
  · have hserves := h.serves m
    refine hserves.congr (fun j hj => ?_) fun j => ?_
    · simpa only [On,hconn] using hj
    · simp only [Up,hconn]
  · rw [hnext] at hj
    exact h.fresh m j hj

private theorem Inv.runFunctor (h : Inv s) {server : TcpServer.State}
    (hserver : TcpServer.step s.server (.runFunctor l) = .ok server) : ∃ t, s.runFunctor l = .ok t ∧ Inv t := by
  have hreach : TcpServer.machine.Reachable server := h.server.step (a := .runFunctor l) hserver
  cases hq : s.server.queue l with
  | nil =>
    simp only [TcpServer.step,hq] at hserver
    cases hserver
  | cons f rest =>
    cases f with
    | connectedEstablished k =>
      obtain ⟨c,hc,rfl,hstate,hnext,hconn⟩ := established_effect hserver hq
      have hlive : s.destroyed k = false := h.live fun d hd => by
        cases hc.symm.trans hd
        rw [hstate]
        decide
      obtain ⟨p,hrun,hserves,-,hchannels⟩ := h.set ⟨c,hc,rfl,hlive⟩ ((((s.poller c.loop).channels k).nEvents) ||| Channel.readEvent)
      refine ⟨_,?_,h.moved hreach hc hconn rfl hnext (fun hd => ?_) (hserves.congr (fun _ => id) (up_kept rfl)) hchannels⟩
      · simp only [State.runFunctor,hserver,ok_bind,hq,State.update,EPoller.step,hrun]
      · rw [hlive] at hd
        cases hd
    | removeConnectionInLoop k =>
      obtain ⟨hconn,hnext⟩ := removeFunctor_effect hserver hq
      refine ⟨_,?_,h.requeued hreach hconn hnext⟩
      simp only [State.runFunctor,hserver,ok_bind,hq]
    | connectedDestroyed k =>
      obtain ⟨c,hc,rfl,hstate,hnext,hconn⟩ := destroyed_effect hserver hq
      have hup : Up s c.loop k := ⟨c,hc,rfl,hstate.resolve_right (shown_state h.server hc).1⟩
      obtain ⟨p,hrun,hserves,hnone,hchannels⟩ := h.set (h.up_on hup) Channel.noneEvent
      obtain ⟨q,hrun',hserves',hchannels'⟩ := hserves.remove (h.on_distinct c.loop)
        (fun j hj => hj.elim h.up_on fun he => by rw [he]; exact h.up_on hup) (.inr rfl) hnone
      have hup' : ∀ j, (Up s c.loop j ∧ j ≠ k ∨ j = k ∧ ConnectState.disconnected = ConnectState.connected) ↔
          (Up s c.loop j ∨ j = k) ∧ j ≠ k := by
        intro j
        by_cases hj : j = k <;> simp [hj]
      refine ⟨_,?_,h.moved hreach hc hconn rfl hnext (fun _ => rfl) (hserves'.congr (fun _ => id) hup')
        fun j hj => (hchannels' j hj).trans (hchannels j hj)⟩
      simp only [State.runFunctor,hserver,ok_bind,hq,State.update,EPoller.step,hrun,Function.update_self,hrun',Function.update_idem]

/-- A new connection gets a number and a descriptor that no open one has. -/
private theorem Inv.accept (h : Inv s) {nConnFd : Int} {server : TcpServer.State}
    (hfree : 0 ≤ nConnFd ∧ ∀ k < s.server.nextConnId, s.Open k → s.fd k ≠ nConnFd)
    (hserver : TcpServer.step s.server .newConnection = .ok server) : ∃ t, s.accept nConnFd = .ok t ∧ Inv t := by
  have hreach : TcpServer.machine.Reachable server := h.server.step (a := .newConnection) hserver
  obtain ⟨c,hstate,hnext,hconn⟩ := accepted_effect hserver
  generalize hk : s.server.nextConnId = k at hconn hnext hfree
  have hnone : s.server.connection k = none := (TcpServer.inv_reachable h.server).fresh k hk.le
  have hself : server.connection k = some c := by rw [hconn]; exact Function.update_self ..
  have hother : ∀ j, j ≠ k → server.connection j = s.server.connection j := fun j hj => by
    rw [hconn]
    exact Function.update_of_ne hj ..
  have hold : ∀ j, s.Open j → j ≠ k ∧ s.fd j ≠ nConnFd := by
    intro j hj
    obtain ⟨d,hd⟩ := Option.ne_none_iff_exists'.mp hj.1
    have hlt := h.lt_next hd
    rw [hk] at hlt
    exact ⟨hlt.ne,hfree.2 j hlt hj⟩
  have hup : ∀ m j, Up s m j → j ≠ k := fun m j hj => (hold j (h.up_on hj).open).1
  let s₁ : State := { s with server := server, fd := Function.update s.fd k nConnFd }
  have hon : ∀ m j, On s₁ m j → On s m j ∧ j ≠ k ∨ j = k := by
    rintro m j ⟨d,hd,hl,hdes⟩
    by_cases hj : j = k
    · exact .inr hj
    · exact .inl ⟨⟨d,(hother j hj).symm.trans hd,hl,hdes⟩,hj⟩
  have hon' : ∀ m j, On s m j → On s₁ m j := by
    rintro m j hj
    obtain ⟨d,hd,hl,hdes⟩ := hj
    exact ⟨d,(hother j (hold j (On.open ⟨d,hd,hl,hdes⟩)).1).trans hd,hl,hdes⟩
  have hdistinct : ∀ i j, s₁.Open i → s₁.Open j → s₁.fd i = s₁.fd j → i = j :=
    distinct_update h.distinct (fun j hj => (hold j hj).2) fun j hj hne => ⟨by rw [← hother j hne]; exact hj.1,hj.2⟩
  have hserves : ∀ m, Serves s₁.fd (On s₁ m) (Up s m) (s.poller m) := fun m =>
    (h.serves m).add (fun hu => hup m k hu rfl) (fun j hj => (hold j (h.up_on hj).open).2) (h.fresh m k hk.le) (hon m)
  have hdestroyed : ∀ j, s.destroyed j = true → ∃ d, server.connection j = some d ∧ d.connectState = .disconnected := by
    intro j hj
    obtain ⟨d,hd,hgone⟩ := h.destroyed j hj
    have hne : j ≠ k := by
      rintro rfl
      rw [hnone] at hd
      cases hd
    exact ⟨d,(hother j hne).trans hd,hgone⟩
  have hupk : ∀ m j, Up s₁ m j ↔ Up s m j ∨ j = k ∧ c.loop = m ∧ c.connectState = .connected := by
    intro m j
    by_cases hj : j = k
    · rw [hj]
      constructor
      · rintro ⟨d,hd,hl,hd'⟩
        cases hself.symm.trans hd
        exact .inr ⟨rfl,hl,hd'⟩
      · rintro (hu | ⟨-,hl,hd'⟩)
        · exact absurd rfl (hup m k hu)
        · exact ⟨c,hself,hl,hd'⟩
    · simp only [Up,s₁,hother j hj,hj,false_and,or_false]
  have hfresh : ∀ m j, k + 1 ≤ j → (s.poller m).channels j = ⟨Channel.noneEvent,0,-1⟩ := fun m j hj =>
    h.fresh m j (hk.le.trans (Nat.le_of_succ_le hj))
  have hrun : s.accept nConnFd = if c.connectState = .connected then s₁.update c.loop (.enableReading k) else .ok s₁ := by
    simp only [State.accept,hk,ensure_of _ hfree,hserver,ok_bind,hself,s₁]
  rcases hstate with hstate | hstate
  · have hnot : ¬ c.connectState = .connected := by rw [hstate]; decide
    rw [hrun,if_neg hnot]
    refine ⟨s₁,rfl,hreach,hdestroyed,hdistinct,fun m => ?_,fun m j hj => hfresh m j (hnext.symm.le.trans hj)⟩
    exact (hserves m).congr (fun _ => id) fun j => (hupk m j).trans (or_iff_left fun he => hnot he.2.2)
  · have hlive : s.destroyed k = false := h.live fun d hd => by
      rw [hnone] at hd
      cases hd
    obtain ⟨p,hset,hserves',-,hchannels⟩ := (hserves c.loop).set (fun i j hi hj => hdistinct i j hi.open hj.open)
      (fun j hj => hon' c.loop j (h.up_on hj)) (k := k) ⟨c,hself,rfl,hlive⟩
      (((s.poller c.loop).channels k).nEvents ||| Channel.readEvent)
    rw [hrun,if_pos hstate]
    refine ⟨{ s₁ with poller := Function.update s.poller c.loop p },?_,hreach,hdestroyed,hdistinct,?_,?_⟩
    · simp only [State.update,EPoller.step,s₁,hset,ok_bind]
    · refine (Function.forall_update_iff s.poller fun m => Serves s₁.fd (On s₁ m) (Up s₁ m)).mpr ⟨?_,fun m hm => ?_⟩
      · refine hserves'.congr (fun _ => id) fun j => (hupk c.loop j).trans (or_congr_right ?_)
        exact and_iff_left ⟨rfl,hstate⟩
      · refine (hserves m).congr (fun _ => id) fun j => (hupk m j).trans (or_iff_left ?_)
        exact fun he => hm he.2.1.symm
    · refine (Function.forall_update_iff s.poller fun _ q => ∀ j, server.nextConnId ≤ j → q.channels j = ⟨Channel.noneEvent,0,-1⟩).mpr
        ⟨fun j hj => ?_,fun m _ j hj => hfresh m j (hnext.symm.le.trans hj)⟩
      have hj' : k + 1 ≤ j := hnext.symm.le.trans hj
      rw [hchannels j (Nat.ne_of_gt hj')]
      exact hfresh c.loop j hj'

theorem loopAt_mem (p : TcpServer.EventLoopThreadPool) (m : Nat) : p.loopAt m ∈ p.baseLoop :: p.loops := by
  rw [TcpServer.EventLoopThreadPool.loopAt,List.getD_eq_getElem?_getD]
  cases hm : p.loops[m % p.loops.length]? with
  | none => exact List.mem_cons_self
  | some l => exact List.mem_cons_of_mem _ (List.mem_of_getElem? hm)

/-- A connection that the server has forgotten was torn down. -/
theorem Inv.disconnected (h : Inv s) (hc : s.server.connection k = some c) (hforgotten : s.Forgotten k) :
    c.connectState = .disconnected := by
  obtain ⟨phase,htracks⟩ := TcpServer.tracks_reachable h.server
  cases hp : phase k with
  | none =>
    rw [htracks.unknown k hp] at hc
    cases hc
  | some p =>
    obtain ⟨d,hd,-,hshows⟩ := htracks.shown k p hp
    cases hc.symm.trans hd
    have hunregistered : ¬ p.registered = true := fun hreg =>
      hforgotten.1 _ ((htracks.registered _ k).mpr ⟨rfl,p,hp,hreg⟩) rfl
    cases p with
    | gone => exact hshows.1
    | connecting m => exact absurd rfl hunregistered
    | opened => exact absurd rfl hunregistered
    | closing m => exact absurd rfl hunregistered
    | leaving m =>
      have hmem : .connectedDestroyed k ∈ s.server.queue m := by
        rw [htracks.queued.mem_iff]
        show TcpServer.waits phase k = _
        rw [TcpServer.waits,hp]
        rfl
      have hinv := TcpServer.inv_reachable h.server
      obtain ⟨t,ht,-,rfl⟩ := hinv.queued m k hmem
      have hloop : t.loop ∈ s.server.pool.baseLoop :: s.server.pool.loops := by
        rw [(hinv.torn t ht).1]
        exact loopAt_mem _ _
      exact absurd rfl (hforgotten.2 t.loop hloop _ hmem)

private theorem Inv.destroy (h : Inv s) (hopen : s.Open k) (hforgotten : s.Forgotten k) (hheld : s.held k = 0) :
    ∃ t, s.destroy k = .ok t ∧ Inv t := by
  obtain ⟨c,hc⟩ := Option.ne_none_iff_exists'.mp hopen.1
  have hgone := h.disconnected hc hforgotten
  have hdown : ¬ Up s c.loop k := by
    rintro ⟨d,hd,-,hstate⟩
    cases hc.symm.trans hd
    rw [hgone] at hstate
    cases hstate
  -- closing the socket takes nothing out of the epoll set any more
  have hkernel : Function.update (s.poller c.loop).kernel (s.fd k) none = (s.poller c.loop).kernel := by
    refine Function.update_eq_self_iff.mpr ?_
    by_contra hne
    obtain ⟨e,he⟩ := Option.ne_none_iff_exists'.mp (Ne.symm hne)
    obtain ⟨j,hj,hfd⟩ := (h.serves c.loop).entered _ e he
    rw [h.distinct j k (h.up_on hj).open hopen hfd] at hj
    exact hdown hj
  have hkept : ∀ j, Function.update s.destroyed k true j = false → s.destroyed j = false := by
    intro j hj
    by_cases he : j = k
    · rw [he,Function.update_self] at hj
      cases hj
    · exact (Function.update_of_ne he ..).symm.trans hj
  refine ⟨{ s with destroyed := Function.update s.destroyed k true },?_,h.server,fun j hj => ?_,
    fun i j hi hj => h.distinct i j ⟨hi.1,hkept i hi.2⟩ ⟨hj.1,hkept j hj.2⟩,fun m => ?_,h.fresh⟩
  · simp only [State.destroy,ensure_of _ (And.intro hopen (And.intro hforgotten hheld)),ok_bind,hc,hkernel,
      Function.update_eq_self]
  · by_cases he : j = k
    · rw [he]
      exact ⟨c,hc,hgone⟩
    · exact h.destroyed j ((Function.update_of_ne he ..).symm.trans hj)
  · refine (h.serves m).congr ?_ fun j => Iff.rfl
    rintro j ⟨d,hd,hl,hlive⟩
    exact ⟨d,hd,hl,hkept j hlive⟩

/-- One loop's poller serves the same connections as before. -/
private theorem Inv.polled (h : Inv s) {p : EPoller.State Nat} (hserves : Serves s.fd (On s l) (Up s l) p)
    (hchannels : ∀ j, ¬ Up s l j → p.channels j = (s.poller l).channels j) :
    Inv { s with poller := Function.update s.poller l p } := by
  refine ⟨h.server,h.destroyed,h.distinct,?_,?_⟩
  · exact (Function.forall_update_iff s.poller fun m => Serves s.fd (On s m) (Up s m)).mpr ⟨hserves,fun m _ => h.serves m⟩
  · refine (Function.forall_update_iff s.poller fun _ q =>
      ∀ j, s.server.nextConnId ≤ j → q.channels j = ⟨Channel.noneEvent,0,-1⟩).mpr ⟨fun j hj => ?_,fun m _ => h.fresh m⟩
    have hdown : ¬ Up s l j := by
      rintro ⟨c,hc,-⟩
      exact absurd (h.lt_next hc) (not_lt.mpr hj)
    rw [hchannels j hdown]
    exact h.fresh l j hj

/-- epoll_wait finds only what is up. -/
theorem Inv.poll (h : Inv s) (l : Loop) (answer : Except Int (List (Int × BitVec 32))) :
    (∃ t, s.poll l answer = .ok t ∧ Inv t ∧ t.server = s.server ∧ ∀ k ∈ (t.poller l).activeChannels, Up s l k) ∨
      s.poll l answer = .error .notEnabled := by
  cases answer with
  | error nErrno =>
    have hrun : EPoller.poll s.fd (.error nErrno) (s.poller l) = .ok { s.poller l with activeChannels := [] } := rfl
    refine .inl ⟨_,rfl,h.polled ((h.serves l).same (EPoller.same_poll hrun) rfl) fun _ _ => rfl,rfl,fun k hk => ?_⟩
    simp only [Function.update_self] at hk
    cases hk
  | ok ready =>
    by_cases hroom : ready.length ≤ (s.poller l).unEvents
    · obtain ⟨p,hrun,hserves,hactive,hchannels⟩ := (h.serves l).poll (fun _ => h.up_on) hroom
      refine .inl ⟨{ s with poller := Function.update s.poller l p },?_,h.polled hserves hchannels,rfl,fun k hk => ?_⟩
      · simp only [State.poll,ensure_of _ hroom,ok_bind,State.update,EPoller.step,hrun]
      · simp only [Function.update_self] at hk
        exact hactive k hk
    · right
      simp only [State.poll,ensure_not _ hroom]
      rfl

/-- Why a step of the server is not taken; no poller is among the reasons. -/
def Refused (e : Halt) : Prop := e = .notEnabled ∨ e = .overflow ∨ e = .fatal "EventLoop::abortNotInLoopThread"

private theorem Inv.server_step (h : Inv s) (a : TcpServer.Label) :
    (∃ server, TcpServer.step s.server a = .ok server) ∨ ∃ e, TcpServer.step s.server a = .error e ∧ Refused e := by
  obtain ⟨phase,htracks⟩ := TcpServer.tracks_reachable h.server
  rcases htracks.step (TcpServer.inv_reachable h.server) a with ⟨t,-,-,ht,-⟩ | ⟨e,he,hstopped⟩
  · exact .inl ⟨t,ht⟩
  · refine .inr ⟨e,he,?_⟩
    cases hstopped with
    | unwatched => exact .inl rfl
    | idle => exact .inl rfl
    | numbers => exact .inr (.inl rfl)
    | otherThread => exact .inr (.inr rfl)

theorem Inv.step (h : Inv s) (a : Label) :
    (∃ t, step s a = .ok t ∧ Inv t) ∨ ∃ e, TcpDescriptors.step s a = .error e ∧ Refused e := by
  have hwriting : ∀ (k : Nat) (call : EPoller.Call Nat) (m : Loop → BitVec 32), (∀ l, EPoller.step s.fd (s.poller l) call =
      EPoller.updateChannel s.fd k (EPoller.setEvents (s.poller l) k (m l))) →
      (∃ t, s.setWriting k call = .ok t ∧ Inv t) ∨ ∃ e, s.setWriting k call = .error e ∧ Refused e := by
    intro k call m hcall
    cases hc : s.server.connection k with
    | none =>
      refine .inr ⟨.notEnabled,?_,.inl rfl⟩
      simp only [State.setWriting,hc]
    | some c =>
      by_cases hstate : c.connectState = .connected
      · exact .inl (h.setWriting hc hstate (hcall c.loop))
      · refine .inr ⟨.notEnabled,?_,.inl rfl⟩
        simp only [State.setWriting,hc,ensure_not _ hstate]
        rfl
  cases a with
  | accept nConnFd =>
    by_cases hfree : 0 ≤ nConnFd ∧ ∀ k < s.server.nextConnId, s.Open k → s.fd k ≠ nConnFd
    · rcases h.server_step .newConnection with ⟨server,hserver⟩ | ⟨e,he,hrefused⟩
      · exact .inl (h.accept hfree hserver)
      · refine .inr ⟨e,?_,hrefused⟩
        simp only [TcpDescriptors.step,State.accept,ensure_of _ hfree,ok_bind,he]
        rfl
    · refine .inr ⟨.notEnabled,?_,.inl rfl⟩
      simp only [TcpDescriptors.step,State.accept,ensure_not _ hfree]
      rfl
  | handleClose k =>
    rcases h.server_step (.handleClose k) with ⟨server,hserver⟩ | ⟨e,he,hrefused⟩
    · exact .inl (h.handleClose hserver)
    · refine .inr ⟨e,?_,hrefused⟩
      simp only [TcpDescriptors.step,State.handleClose,he]
      rfl
  | runFunctor l =>
    rcases h.server_step (.runFunctor l) with ⟨server,hserver⟩ | ⟨e,he,hrefused⟩
    · exact .inl (h.runFunctor hserver)
    · refine .inr ⟨e,?_,hrefused⟩
      simp only [TcpDescriptors.step,State.runFunctor,he]
      rfl
  | enableWriting k => exact hwriting k _ (fun l => ((s.poller l).channels k).nEvents ||| Channel.writeEvent) fun _ => rfl
  | disableWriting k => exact hwriting k _ (fun l => ((s.poller l).channels k).nEvents &&& ~~~Channel.writeEvent) fun _ => rfl
  | poll l answer =>
    rcases h.poll l answer with ⟨t,ht,hinv,-⟩ | he
    · exact .inl ⟨t,ht,hinv⟩
    · exact .inr ⟨.notEnabled,he,.inl rfl⟩
  | copy k =>
    by_cases hopen : s.Open k
    · refine .inl ⟨{ s with held := Function.update s.held k (s.held k + 1) },?_,
        ⟨h.server,h.destroyed,h.distinct,h.serves,h.fresh⟩⟩
      simp only [TcpDescriptors.step,ensure_of _ hopen,ok_bind]
    · refine .inr ⟨.notEnabled,?_,.inl rfl⟩
      simp only [TcpDescriptors.step,ensure_not _ hopen]
      rfl
  | release k =>
    by_cases hheld : 0 < s.held k
    · refine .inl ⟨{ s with held := Function.update s.held k (s.held k - 1) },?_,
        ⟨h.server,h.destroyed,h.distinct,h.serves,h.fresh⟩⟩
      simp only [TcpDescriptors.step,ensure_of _ hheld,ok_bind]
    · refine .inr ⟨.notEnabled,?_,.inl rfl⟩
      simp only [TcpDescriptors.step,ensure_not _ hheld]
      rfl
  | destroy k =>
    by_cases hlast : s.Open k ∧ s.Forgotten k ∧ s.held k = 0
    · exact .inl (h.destroy hlast.1 hlast.2.1 hlast.2.2)
    · refine .inr ⟨.notEnabled,?_,.inl rfl⟩
      simp only [TcpDescriptors.step,State.destroy,ensure_not _ hlast]
      rfl

theorem update_server {call : EPoller.Call Nat} (hs : s.update l call = .ok t) : t.server = s.server := by
  simp only [State.update,bind_ok_iff,Except.ok.injEq] at hs
  obtain ⟨p,-,rfl⟩ := hs
  rfl

theorem accept_server {n : Int} (hs : s.accept n = .ok t) : TcpServer.step s.server .newConnection = .ok t.server := by
  simp only [State.accept,bind_ok_iff] at hs
  obtain ⟨-,-,server,hserver,hs⟩ := hs
  split at hs
  · split at hs
    · rw [update_server hs]
      exact hserver
    · cases hs
      exact hserver
  · cases hs

theorem handleClose_server (hs : s.handleClose k = .ok t) : TcpServer.step s.server (.handleClose k) = .ok t.server := by
  simp only [State.handleClose,bind_ok_iff] at hs
  obtain ⟨server,hserver,hs⟩ := hs
  split at hs
  · rw [update_server hs]
    exact hserver
  · cases hs

theorem runFunctor_server (hs : s.runFunctor l = .ok t) : TcpServer.step s.server (.runFunctor l) = .ok t.server := by
  simp only [State.runFunctor,bind_ok_iff] at hs
  obtain ⟨server,hserver,hs⟩ := hs
  split at hs
  · rw [update_server hs]
    exact hserver
  · obtain ⟨u,hu,hs⟩ := (bind_ok_iff _ _ _).mp hs
    rw [update_server hs,update_server hu]
    exact hserver
  · cases hs
    exact hserver

theorem setWriting_server {call : EPoller.Call Nat} (hs : s.setWriting k call = .ok t) : t.server = s.server := by
  simp only [State.setWriting] at hs
  split at hs
  · obtain ⟨-,-,hs⟩ := (bind_ok_iff _ _ _).mp hs
    exact update_server hs
  · cases hs

theorem poll_server {answer : Except Int (List (Int × BitVec 32))} (hs : s.poll l answer = .ok t) : t.server = s.server := by
  cases answer with
  | error nErrno => exact update_server hs
  | ok ready =>
    obtain ⟨-,-,hs⟩ := (bind_ok_iff _ _ _).mp hs
    exact update_server hs

theorem destroy_server (hs : s.destroy k = .ok t) : t.server = s.server := by
  simp only [State.destroy,bind_ok_iff] at hs
  obtain ⟨-,-,hs⟩ := hs
  split at hs
  · cases hs
    rfl
  · cases hs

/-- One connection has changed, and not in what makes it up in its loop. -/
private theorem Up.update {server : TcpServer.State} {j : Nat} (hu : Up s l k) (hc : s.server.connection j = some c)
    (hconn : server.connection = Function.update s.server.connection j (some c'))
    (hsame : c.loop = l → c'.loop = c.loop ∧ c'.connectState = c.connectState) (ht : t.server = server) : Up t l k := by
  obtain ⟨d,hd,hl,hstate⟩ := hu
  by_cases hj : k = j
  · rw [hj] at hd ⊢
    cases hc.symm.trans hd
    obtain ⟨hloop,hstate'⟩ := hsame hl
    exact ⟨c',by rw [ht,hconn]; exact Function.update_self ..,hloop.trans hl,hstate'.trans hstate⟩
  · exact ⟨d,by rw [ht,hconn,Function.update_of_ne hj]; exact hd,hl,hstate⟩

/-- Only a functor in its own loop takes a connection down. -/
theorem Inv.up_step (h : Inv s) {a : Label} (hs : TcpDescriptors.step s a = .ok t) (hu : Up s l k) (ha : a ≠ .runFunctor l) :
    Up t l k := by
  have hkeep : t.server = s.server → Up t l k := fun he => by rwa [Up,he]
  cases a with
  | accept n =>
    obtain ⟨c,-,-,hconn⟩ := accepted_effect (accept_server hs)
    obtain ⟨d,hd,hup⟩ := hu
    have hne : k ≠ s.server.nextConnId := (h.lt_next hd).ne
    exact ⟨d,by rw [hconn,Function.update_of_ne hne]; exact hd,hup⟩
  | handleClose j =>
    obtain ⟨c,hc,-,-,hconn⟩ := closed_effect (handleClose_server hs)
    exact hu.update hc hconn (fun _ => ⟨rfl,rfl⟩) rfl
  | runFunctor m =>
    have hserver := runFunctor_server hs
    have hm : m ≠ l := fun he => ha (by rw [he])
    cases hq : s.server.queue m with
    | nil =>
      simp only [TcpServer.step,hq] at hserver
      cases hserver
    | cons f rest =>
      cases f with
      | connectedEstablished j =>
        obtain ⟨c,hc,hl,-,-,hconn⟩ := established_effect hserver hq
        exact hu.update hc hconn (fun he => absurd (hl.symm.trans he) hm) rfl
      | removeConnectionInLoop j =>
        obtain ⟨d,hd,hup⟩ := hu
        exact ⟨d,by rw [(removeFunctor_effect hserver hq).1]; exact hd,hup⟩
      | connectedDestroyed j =>
        obtain ⟨c,hc,hl,-,-,hconn⟩ := destroyed_effect hserver hq
        exact hu.update hc hconn (fun he => absurd (hl.symm.trans he) hm) rfl
  | enableWriting j => exact hkeep (setWriting_server hs)
  | disableWriting j => exact hkeep (setWriting_server hs)
  | poll m answer => exact hkeep (poll_server hs)
  | copy j =>
    obtain ⟨-,-,hs⟩ := (bind_ok_iff _ _ _).mp hs
    cases hs
    exact hu
  | release j =>
    obtain ⟨-,-,hs⟩ := (bind_ok_iff _ _ _).mp hs
    cases hs
    exact hu
  | destroy j => exact hkeep (destroy_server hs)

theorem inv_initial (baseLoop : Loop) (loops : List Loop) (name : String) (h : (baseLoop :: loops).Nodup) :
    Inv (initial baseLoop loops name) where
  server := ⟨_,[],⟨baseLoop,loops,name,h,rfl⟩,rfl⟩
  destroyed _ hd := by cases hd
  distinct _ _ hi := absurd rfl hi.1
  serves l := by
    refine ⟨fun k hk => ?_,fun n k => iff_of_false (fun he => by cases he) ?_,fun n e he => (by cases he),rfl⟩
    · obtain ⟨c,hc,-⟩ := hk
      cases hc
    · rintro ⟨⟨c,hc,-⟩,-⟩
      cases hc
  fresh _ _ _ := rfl

theorem inv_reachable (h : machine.Reachable s) : Inv s := by
  refine h.invariant (P := Inv) (fun s hs => ?_) fun s a t hi hs => ?_
  · obtain ⟨baseLoop,loops,name,hd,rfl⟩ := hs
    exact inv_initial baseLoop loops name hd
  · rcases hi.step a with ⟨u,hu,hinv⟩ | ⟨e,he,-⟩
    · cases hs.symm.trans hu
      exact hinv
    · cases hs.symm.trans he

/-- On every run, with descriptors given out again as soon as they are closed: no two open
connections have one; every poller has exactly the connections that are up in its loop,
under their descriptors; what is in an epoll set is such a connection with its mask;
epoll_ctl has refused nothing; and a step that is not taken is none of a poller's. -/
theorem descriptors_change_hands (h : machine.Reachable s) :
    (∀ i j, s.Open i → s.Open j → s.fd i = s.fd j → i = j) ∧
    (∀ l n k, (s.poller l).mpChannel n = some k ↔ s.Open k ∧ s.fd k = n ∧
      ∃ c, s.server.connection k = some c ∧ c.loop = l ∧ c.connectState = .connected) ∧
    (∀ l n e, (s.poller l).kernel n = some e →
      (s.poller l).mpChannel n = some e.2 ∧ e.1 = ((s.poller l).channels e.2).nEvents) ∧
    (∀ l, (s.poller l).refused = []) ∧
    ∀ a e, step s a = .error e → Refused e := by
  have hi := inv_reachable h
  refine ⟨hi.distinct,fun l n k => ?_,fun l n e he => ?_,fun l => (hi.serves l).refused,fun a e he => ?_⟩
  · rw [(hi.serves l).listed n k]
    constructor
    · rintro ⟨hup,hfd⟩
      exact ⟨(hi.up_on hup).open,hfd,hup⟩
    · rintro ⟨-,hfd,hup⟩
      exact ⟨hup,hfd⟩
  · obtain ⟨k,hup,rfl⟩ := (hi.serves l).entered n e he
    have hentry := ((hi.serves l).settled k (hi.up_on hup)).2 e he
    rw [hentry]
    exact ⟨((hi.serves l).listed _ k).mpr ⟨hup,rfl⟩,rfl⟩
  · rcases hi.step a with ⟨t,ht,-⟩ | ⟨e',he',hrefused⟩
    · cases he.symm.trans ht
    · cases he.symm.trans he'
      exact hrefused

/-- A connection is closed and destroyed, and the next one gets its descriptor. -/
theorem descriptors_change_hands_again : ∃ s, machine.Reachable s ∧ s.fd 1 = 7 ∧ s.fd 2 = 7 ∧
    (s.poller 0).mpChannel 7 = some 2 ∧ ¬ s.Open 1 := by
  obtain ⟨s,hr,hv⟩ := machine.exists_reachable ⟨0,[],"srv",by decide,rfl⟩
    [.accept 7,.enableWriting 1,.handleClose 1,.runFunctor 0,.destroy 1,.accept 7]
    (fun s => (s.fd 1,s.fd 2,s.server.connection 2,s.destroyed 1,s.destroyed 2))
    (b := (7,7,some ⟨"srv#2",0,.connected,true,2⟩,true,false)) (by decide +kernel)
  simp only [Prod.mk.injEq] at hv
  obtain ⟨h1,h2,hc,hd,hlive⟩ := hv
  refine ⟨s,hr,h1,h2,((descriptors_change_hands hr).2.1 0 7 2).mpr ⟨⟨?_,hlive⟩,h2,_,hc,rfl,rfl⟩,fun hopen => ?_⟩
  · rw [hc]
    exact Option.some_ne_none _
  · cases hd.symm.trans hopen.2

end

end LinuxServer.Reactor.TcpDescriptors
