import LinuxServer.Lib.Awaited
import LinuxServer.Reactor.TcpTeardown

/-! The registry of a server's connections. Every connection goes one way through its
phases and waits in each for one functor at most; the map has those not yet removed. -/
namespace LinuxServer.Reactor.TcpServer
open LinuxServer.Lib

/-- The connection that a functor is bound to. -/
def Functor.connection : Functor → Nat
  | .connectedEstablished k | .removeConnectionInLoop k | .connectedDestroyed k => k

/-- How far a connection has come, with the loop that takes it on. -/
inductive Phase where
  | connecting (l : Loop)
  | opened
  | closing (l : Loop)
  | leaving (l : Loop)
  | gone

namespace Phase

def awaits (k : Nat) : Phase → Option (Loop × Functor)
  | .connecting l => some (l,.connectedEstablished k)
  | .opened => none
  | .closing l => some (l,.removeConnectionInLoop k)
  | .leaving l => some (l,.connectedDestroyed k)
  | .gone => none

/-- The map has the connection. -/
def registered : Phase → Bool
  | .connecting _ | .opened | .closing _ => true
  | .leaving _ | .gone => false

/-- What the connection's fields are, on a server with the given base loop. -/
def Shows (base : Loop) (c : Connection) : Phase → Prop
  | .connecting l => c.loop = l ∧ c.connectState = .connecting ∧ c.reading = false
  | .opened => c.connectState = .connected ∧ c.reading = true
  | .closing l => l = base ∧ c.connectState = .connected ∧ c.reading = false
  | .leaving _ => c.connectState = .connected ∧ c.reading = false
  | .gone => c.connectState = .disconnected ∧ c.reading = false

def rank : Option Phase → Nat
  | none => 0
  | some (.connecting _) => 1
  | some .opened => 2
  | some (.closing _) => 3
  | some (.leaving _) => 4
  | some .gone => 5

theorem rank_le (p : Option Phase) : rank p ≤ 5 := by
  rcases p with _ | _ | _ | _ | _ | _ <;> simp [rank]

theorem awaits_connection {p : Phase} {k : Nat} {l : Loop} {f : Functor} (h : p.awaits k = some (l,f)) :
    f.connection = k := by
  cases p <;> cases h <;> rfl

end Phase

/-- How a connection moves on. On the base loop ConnectedEstablished and
removeConnectionInLoop run at once, so that a phase is left out. -/
inductive Next : Option Phase → Phase → Prop where
  | accepted (l : Loop) : Next none (.connecting l)
  | acceptedHere : Next none .opened
  | established (l : Loop) : Next (some (.connecting l)) .opened
  | closed (l : Loop) : Next (some .opened) (.closing l)
  | closedHere (l : Loop) : Next (some .opened) (.leaving l)
  | removed (l m : Loop) : Next (some (.closing l)) (.leaving m)
  | destroyed (l : Loop) : Next (some (.leaving l)) .gone

theorem Next.rank_lt {p : Option Phase} {q : Phase} (h : Next p q) : Phase.rank p < Phase.rank (some q) := by
  cases h <;> simp [Phase.rank]

/-- The name that newConnection gives to the connection of the given number. -/
def connectionName (s : State) (k : Nat) : String := s.name ++ "#" ++ toString k

theorem connectionName_injective (s : State) : Function.Injective (connectionName s) := by
  intro i j h
  have hnumber : toString i = toString j := (String.append_right_inj _).mp h
  exact Nat.repr_inj.mp hnumber

/-- The functors that the connections wait for in their phases. -/
def waits (phase : Nat → Option Phase) (k : Nat) : Option (Loop × Functor) := (phase k).bind (Phase.awaits k)

theorem waits_update (phase : Nat → Option Phase) (k : Nat) (p : Phase) :
    waits (Function.update phase k (some p)) = Function.update (waits phase) k (p.awaits k) := by
  funext j
  by_cases hj : j = k
  · rw [hj,Function.update_self,waits,Function.update_self,Option.bind_some]
  · rw [Function.update_of_ne hj,waits,Function.update_of_ne hj,waits]

/-- The connections are numbered from one, and their fields are those of their phases. -/
structure Stands (s : State) (phase : Nat → Option Phase) : Prop where
  positive : 1 ≤ s.nextConnId
  numbered : ∀ k, phase k ≠ none ↔ 1 ≤ k ∧ k < s.nextConnId
  unknown : ∀ k, phase k = none → s.connection k = none
  shown : ∀ k p, phase k = some p → ∃ c, s.connection k = some c ∧ c.name = connectionName s k ∧ p.Shows s.pool.baseLoop c

/-- The server's state is that of its connections in the given phases, which wait for the
given functors. -/
structure Tracks (s : State) (phase : Nat → Option Phase) (wait : Nat → Option (Loop × Functor)) : Prop
    extends Stands s phase where
  queued : Awaited Functor.connection s.queue wait
  registered : ∀ n k, (n,k) ∈ s.mpConnection ↔ n = connectionName s k ∧ ∃ p, phase k = some p ∧ p.registered = true
  distinct : s.mpConnection.Nodup
  torn : ∀ k, k ∈ s.teardowns.map Teardown.connection ↔ ∃ p, phase k = some p ∧ p.registered = false
  once : (s.teardowns.map Teardown.connection).Nodup

theorem tracks_initial (baseLoop : Loop) (loops : List Loop) (name : String) :
    Tracks (initial baseLoop loops name) (fun _ => none) (waits fun _ => none) where
  positive := le_rfl
  numbered k := by
    refine iff_of_false (fun h => h rfl) fun h => ?_
    exact absurd h.2 (Nat.not_lt.mpr h.1)
  unknown _ _ := rfl
  shown _ _ h := by cases h
  queued := Awaited.empty
  registered n k := iff_of_false List.not_mem_nil fun h => by
    obtain ⟨-,p,hp,-⟩ := h
    cases hp
  distinct := .nil
  torn k := iff_of_false List.not_mem_nil fun h => by
    obtain ⟨p,hp,-⟩ := h
    cases hp
  once := .nil

section
variable {s t : State} {phase : Nat → Option Phase} {wait : Nat → Option (Loop × Functor)} {k : Nat} {c : Connection}

/-- The map has one entry of a registered connection's name. -/
theorem Tracks.entry (h : Tracks s phase wait) {p : Phase} (hk : phase k = some p) (hp : p.registered = true) :
    (s.mpConnection.filter fun e => e.1 = connectionName s k).length = 1 := by
  have hmem : (connectionName s k,k) ∈ s.mpConnection := (h.registered _ _).mpr ⟨rfl,p,hk,hp⟩
  have hsame : ∀ e ∈ s.mpConnection, decide (e.1 = connectionName s k) = true ↔ (e == (connectionName s k,k)) = true := by
    rintro ⟨n,j⟩ he
    rw [decide_eq_true_iff,beq_iff_eq,Prod.mk.injEq]
    constructor
    · intro hn
      exact ⟨hn,connectionName_injective s (((h.registered n j).mp he).1.symm.trans hn)⟩
    · exact And.left
  rw [← List.countP_eq_length_filter,List.countP_congr hsame]
  exact List.count_eq_one_of_mem h.distinct hmem

/-- The queues change, and with them what is waited for. -/
theorem Tracks.requeue (h : Tracks s phase wait) {q : Loop → List Functor} {wait' : Nat → Option (Loop × Functor)}
    (hq : Awaited Functor.connection q wait') : Tracks { s with queue := q } phase wait' :=
  { h with queued := hq }

theorem Stands.move (h : Stands s phase) {p q : Phase} (c' : Connection) (hk : phase k = some p)
    (hc : s.connection k = some c) (hname : c'.name = c.name) (hq : q.Shows s.pool.baseLoop c') :
    Stands (s.setConnection k c') (Function.update phase k (some q)) := by
  refine ⟨h.positive,fun j => ?_,fun j hj => ?_,fun j r hj => ?_⟩
  · refine Iff.trans ?_ (h.numbered j)
    by_cases he : j = k
    · rw [he,Function.update_self,hk]
      exact iff_of_true (Option.some_ne_none _) (Option.some_ne_none _)
    · rw [Function.update_of_ne he]
  · by_cases he : j = k
    · rw [he,Function.update_self] at hj
      cases hj
    · rw [Function.update_of_ne he] at hj
      exact (Function.update_of_ne he ..).trans (h.unknown j hj)
  · by_cases he : j = k
    · rw [he,Function.update_self] at hj
      cases hj
      obtain ⟨d,hd,hn,-⟩ := h.shown k p hk
      cases hc.symm.trans hd
      exact ⟨c',by rw [he]; exact Function.update_self ..,by rw [he,hname]; exact hn,hq⟩
    · rw [Function.update_of_ne he] at hj
      obtain ⟨d,hd,hn,hp⟩ := h.shown j r hj
      exact ⟨d,(Function.update_of_ne he ..).trans hd,hn,hp⟩

/-- A connection moves on without being removed. -/
theorem Tracks.setConnection (h : Tracks s phase wait) {p q : Phase} (c' : Connection) (hk : phase k = some p)
    (hc : s.connection k = some c) (hname : c'.name = c.name) (hq : q.Shows s.pool.baseLoop c')
    (hreg : q.registered = p.registered) :
    Tracks (s.setConnection k c') (Function.update phase k (some q)) wait := by
  have hphase : ∀ b j, (∃ r, Function.update phase k (some q) j = some r ∧ r.registered = b) ↔
      ∃ r, phase j = some r ∧ r.registered = b := by
    intro b j
    by_cases hj : j = k
    · rw [hj,Function.update_self,hk]
      simp only [Option.some.injEq,exists_eq_left',hreg]
    · rw [Function.update_of_ne hj]
  refine ⟨h.toStands.move c' hk hc hname hq,h.queued,fun n j => ?_,h.distinct,fun j => ?_,h.once⟩
  · rw [hphase]
    exact h.registered n j
  · rw [hphase]
    exact h.torn j

theorem Tracks.connectedEstablished {l : Loop} (h : Tracks s phase wait) (hk : phase k = some (.connecting l))
    (hc : s.connection k = some c) :
    ∃ t, s.connectedEstablished l k c = .ok t ∧ Tracks t (Function.update phase k (some .opened)) wait := by
  obtain ⟨d,hd,-,hl,hstate,-⟩ := h.shown k _ hk
  cases hc.symm.trans hd
  refine ⟨_,?_,h.setConnection { c with connectState := .connected, reading := true } hk hc rfl ⟨rfl,rfl⟩ rfl⟩
  rw [State.connectedEstablished,ensure_of _ hl,ok_bind,ensure_of _ hstate,ok_bind]

/-- Nothing but its thread can stop ConnectedDestroyed. -/
theorem Tracks.connectedDestroyed {l m : Loop} (h : Tracks s phase wait) (hk : phase k = some (.leaving m))
    (hc : s.connection k = some c) :
    (c.loop = l ∧ ∃ t, s.connectedDestroyed l k c = .ok t ∧ Tracks t (Function.update phase k (some .gone)) wait) ∨
    (c.loop ≠ l ∧ s.connectedDestroyed l k c = .error (.fatal "EventLoop::abortNotInLoopThread")) := by
  obtain ⟨d,hd,-,hstate,-⟩ := h.shown k _ hk
  cases hc.symm.trans hd
  by_cases hl : c.loop = l
  · refine .inl ⟨hl,_,?_,
      h.setConnection { c with connectState := .disconnected, reading := false } hk hc rfl ⟨rfl,rfl⟩ rfl⟩
    rw [State.connectedDestroyed,ensure_of _ hl,ok_bind,ensure_of _ (.inl hstate),ok_bind]
  · refine .inr ⟨hl,?_⟩
    rw [State.connectedDestroyed,ensure_not _ hl]
    rfl

/-- The cursor is inside the list of loops. -/
theorem getNextLoop_ok (h : Inv s) : ∃ l t, s.getNextLoop = .ok (l,t) := by
  rw [State.getNextLoop,EventLoopThreadPool.getNextLoop]
  split
  · exact ⟨_,_,rfl⟩
  · rename_i first rest hloops
    have hne : s.pool.loops ≠ [] := by rw [hloops]; exact List.cons_ne_nil _ _
    have hlt : s.pool.next < s.pool.loops.length := by
      rw [h.cursor hne]
      exact Nat.mod_lt _ (List.length_pos_iff.mpr hne)
    rw [List.getElem?_eq_getElem hlt]
    exact ⟨_,_,rfl⟩

/-- A closed connection leaves the map and waits for its end. -/
theorem Tracks.removeConnectionInLoop (hi : Inv s) (h : Tracks s phase wait) (hwait : wait k = none)
    (hk : phase k = some (.closing s.pool.baseLoop)) (hc : s.connection k = some c) :
    ∃ t l, s.removeConnectionInLoop k c = .ok t ∧
      Tracks t (Function.update phase k (some (.leaving l))) (Function.update wait k (some (l,.connectedDestroyed k))) := by
  obtain ⟨d,hd,hname,-,hstate,hreading⟩ := h.shown k _ hk
  cases hc.symm.trans hd
  have hi' : Inv { s with mpConnection := s.mpConnection.filter fun e => e.1 ≠ c.name } :=
    ⟨hi.distinct,hi.cursor,hi.fresh,hi.placed,hi.torn,hi.queued⟩
  obtain ⟨l,s₁,hnext⟩ := getNextLoop_ok hi'
  obtain ⟨-,next,rfl,-⟩ := getNextLoop_cases hi' hnext
  let t : State := { s with
    pool := { s.pool with next := next }
    calls := s.calls + 1
    mpConnection := s.mpConnection.filter fun e => e.1 ≠ c.name
    queue := Function.update s.queue l (s.queue l ++ [.connectedDestroyed k])
    teardowns := s.teardowns ++ [⟨k,l,s.calls⟩] }
  refine ⟨t,l,?_,?_⟩
  · rw [State.removeConnectionInLoop,ensure_of _ (by rw [hname]; exact h.entry hk rfl),ok_bind,hnext,ok_bind]
    rfl
  have hpush := h.queued.push (p := l) (f := Functor.connectedDestroyed k) hwait
  have hstands : Stands s (Function.update phase k (some (.leaving l))) := by
    have hmove := h.toStands.move c hk hc (q := .leaving l) rfl ⟨hstate,hreading⟩
    rwa [State.setConnection,← hc,Function.update_eq_self] at hmove
  refine ⟨⟨hstands.positive,hstands.numbered,hstands.unknown,hstands.shown⟩,hpush,fun n j => ?_,
    h.distinct.filter _,fun j => ?_,?_⟩
  · simp only [t,List.mem_filter,decide_eq_true_eq,h.registered n j]
    by_cases he : j = k
    · rw [he,Function.update_self]
      refine iff_of_false (fun hmem => hmem.2 (hmem.1.1.trans hname.symm)) fun hmem => ?_
      obtain ⟨-,p,hp,hr⟩ := hmem
      cases hp
      cases hr
    · rw [Function.update_of_ne he]
      refine ⟨And.left,fun hmem => ⟨hmem,fun hn => ?_⟩⟩
      exact he (connectionName_injective s (hmem.1.symm.trans (hn.trans hname)))
  · simp only [t,List.map_append,List.map_cons,List.map_nil,List.mem_append,List.mem_singleton,h.torn j]
    by_cases he : j = k
    · rw [he,Function.update_self]
      exact iff_of_true (.inr rfl) ⟨_,rfl,rfl⟩
    · rw [Function.update_of_ne he]
      exact or_iff_left he
  · simp only [t,List.map_append,List.map_cons,List.map_nil]
    refine List.nodup_append.mpr ⟨h.once,List.nodup_singleton k,fun j hj i hij => ?_⟩
    rw [List.mem_singleton.mp hij]
    rintro rfl
    obtain ⟨p,hp,hr⟩ := (h.torn _).mp hj
    rw [hk] at hp
    cases hp
    cases hr

/-- A new connection has a number, and so a name, of its own. -/
theorem Tracks.register (h : Tracks s phase wait) (pool : EventLoopThreadPool) (hpool : pool.baseLoop = s.pool.baseLoop)
    (calls : Nat) (hc : c.name = connectionName s s.nextConnId) {q : Phase} (hq : q.Shows s.pool.baseLoop c)
    (hreg : q.registered = true) :
    Tracks { s with
      pool := pool
      nextConnId := s.nextConnId + 1
      connection := Function.update s.connection s.nextConnId (some c)
      mpConnection := (c.name,s.nextConnId) :: s.mpConnection.filter fun e => e.1 ≠ c.name
      calls := calls } (Function.update phase s.nextConnId (some q)) wait := by
  have hnew : phase s.nextConnId = none := by
    by_contra hne
    exact Nat.lt_irrefl _ ((h.numbered _).mp hne).2
  have hold : ∀ n j, (n,j) ∈ s.mpConnection → j ≠ s.nextConnId ∧ n ≠ c.name := by
    intro n j hmem
    obtain ⟨hn,p,hp,-⟩ := (h.registered n j).mp hmem
    have hj : j ≠ s.nextConnId := by
      rintro rfl
      rw [hnew] at hp
      cases hp
    exact ⟨hj,fun he => hj (connectionName_injective s (hn.symm.trans (he.trans hc)))⟩
  have hkept : s.mpConnection.filter (fun e => e.1 ≠ c.name) = s.mpConnection :=
    List.filter_eq_self.mpr fun e he => decide_eq_true (hold e.1 e.2 he).2
  refine ⟨⟨Nat.le_add_left ..,fun j => ?_,fun j hj => ?_,fun j r hj => ?_⟩,h.queued,fun n j => ?_,?_,fun j => ?_,h.once⟩
  · by_cases he : j = s.nextConnId
    · rw [he,Function.update_self]
      exact iff_of_true (Option.some_ne_none _) ⟨h.positive,Nat.lt_succ_self _⟩
    · rw [Function.update_of_ne he,h.numbered j]
      exact and_congr_right fun _ => ⟨Nat.lt_succ_of_lt,fun hlt => lt_of_le_of_ne (Nat.le_of_lt_succ hlt) he⟩
  · by_cases he : j = s.nextConnId
    · rw [he,Function.update_self] at hj
      cases hj
    · rw [Function.update_of_ne he] at hj
      exact (Function.update_of_ne he ..).trans (h.unknown j hj)
  · by_cases he : j = s.nextConnId
    · rw [he,Function.update_self] at hj
      cases hj
      exact ⟨c,by rw [he]; exact Function.update_self ..,by rw [he]; exact hc,by rw [hpool]; exact hq⟩
    · rw [Function.update_of_ne he] at hj
      obtain ⟨d,hd,hn,hp⟩ := h.shown j r hj
      exact ⟨d,(Function.update_of_ne he ..).trans hd,hn,by rw [hpool]; exact hp⟩
  · rw [hkept,List.mem_cons,Prod.mk.injEq]
    by_cases he : j = s.nextConnId
    · rw [he,Function.update_self]
      have hnone : (n,s.nextConnId) ∉ s.mpConnection := fun hmem => (hold _ _ hmem).1 rfl
      rw [or_iff_left hnone,hc]
      exact ⟨fun hn => ⟨hn.1,q,rfl,hreg⟩,fun hn => ⟨hn.1,rfl⟩⟩
    · rw [Function.update_of_ne he,or_iff_right fun hn => he hn.2]
      exact h.registered n j
  · rw [hkept]
    exact List.nodup_cons.mpr ⟨fun hmem => (hold _ _ hmem).1 rfl,h.distinct⟩
  · by_cases he : j = s.nextConnId
    · rw [he,Function.update_self]
      refine iff_of_false (fun hmem => ?_) fun hmem => ?_
      · obtain ⟨p,hp,-⟩ := (h.torn _).mp hmem
        rw [hnew] at hp
        cases hp
      · obtain ⟨p,hp,hr⟩ := hmem
        cases hp
        rw [hreg] at hr
        cases hr
    · rw [Function.update_of_ne he]
      exact h.torn j

theorem Tracks.newConnection (hi : Inv s) (h : Tracks s phase (waits phase)) (hid : s.nextConnId + 1 < 2 ^ 31) :
    ∃ t p, s.newConnection = .ok t ∧ Next (phase s.nextConnId) p ∧
      Tracks t (Function.update phase s.nextConnId (some p)) (waits (Function.update phase s.nextConnId (some p))) := by
  have hnew : phase s.nextConnId = none := by
    by_contra hne
    exact Nat.lt_irrefl _ ((h.numbered _).mp hne).2
  have hwait : waits phase s.nextConnId = none := by rw [waits,hnew,Option.bind_none]
  have hi' : Inv { s with nextConnId := s.nextConnId + 1 } :=
    ⟨hi.distinct,hi.cursor,fun k hk => hi.fresh k (Nat.le_of_succ_le hk),hi.placed,hi.torn,hi.queued⟩
  obtain ⟨l,s₁,hnext⟩ := getNextLoop_ok hi'
  obtain ⟨-,next,rfl,-⟩ := getNextLoop_cases hi' hnext
  have hreg := h.register { s.pool with next := next } rfl (s.calls + 1)
    (c := ⟨connectionName s s.nextConnId,l,.connecting,false,s.calls⟩) rfl (q := .connecting l) ⟨rfl,rfl,rfl⟩ rfl
  by_cases hl : l = s.pool.baseLoop
  · obtain ⟨t,ht,htracks⟩ := hreg.connectedEstablished (Function.update_self ..) (Function.update_self ..)
    refine ⟨t,.opened,?_,by rw [hnew]; exact .acceptedHere,?_⟩
    · rw [State.newConnection,ensure_of _ hid,ok_bind,hnext,ok_bind]
      exact (if_pos hl).trans ht
    · rw [Function.update_idem] at htracks
      rw [waits_update,show Phase.opened.awaits s.nextConnId = waits phase s.nextConnId from hwait.symm,Function.update_eq_self]
      exact htracks
  · have hqueued := hreg.requeue (hreg.queued.push (p := l) (f := Functor.connectedEstablished s.nextConnId) hwait)
    have hwaits : Function.update (waits phase) s.nextConnId (some (l,.connectedEstablished s.nextConnId)) =
        waits (Function.update phase s.nextConnId (some (.connecting l))) :=
      (waits_update phase s.nextConnId (.connecting l)).symm
    refine ⟨_,.connecting l,?_,by rw [hnew]; exact .accepted l,hwaits ▸ hqueued⟩
    rw [State.newConnection,ensure_of _ hid,ok_bind,hnext,ok_bind]
    exact if_neg hl

/-- A watched connection is open; its close takes it to the base loop. -/
theorem Tracks.handleClose (hi : Inv s) (h : Tracks s phase (waits phase)) (hc : s.connection k = some c)
    (hreading : c.reading = true) :
    ∃ t p, s.handleClose k c = .ok t ∧ Next (phase k) p ∧
      Tracks t (Function.update phase k (some p)) (waits (Function.update phase k (some p))) := by
  have hk : phase k = some .opened := by
    cases hp : phase k with
    | none =>
      rw [h.unknown k hp] at hc
      cases hc
    | some p =>
      obtain ⟨d,hd,-,hshows⟩ := h.shown k p hp
      cases hc.symm.trans hd
      cases p with
      | opened => rfl
      | connecting l => rw [hshows.2.2] at hreading; cases hreading
      | closing l => rw [hshows.2.2] at hreading; cases hreading
      | leaving l => rw [hshows.2] at hreading; cases hreading
      | gone => rw [hshows.2] at hreading; cases hreading
  obtain ⟨d,hd,-,hstate,-⟩ := h.shown k _ hk
  cases hc.symm.trans hd
  have hwait : waits phase k = none := by rw [waits,hk]; rfl
  have hclosing := h.setConnection { c with reading := false } hk hc (q := .closing s.pool.baseLoop)
    rfl ⟨rfl,hstate,rfl⟩ rfl
  have hguard : ∀ x : Except Halt State, (do
      ensure (.assertion "eTCS_Connected == m_eConnectState || eTCS_Disconnecting == m_eConnectState")
        (c.connectState = .connected ∨ c.connectState = .disconnecting)
      x) = x := fun x => by rw [ensure_of _ (.inl hstate),ok_bind]
  by_cases hl : c.loop = s.pool.baseLoop
  · have hiset : Inv (s.setConnection k { c with reading := false }) := hi.setConnection hc rfl rfl
    obtain ⟨t,l,ht,htracks⟩ := hclosing.removeConnectionInLoop hiset hwait (Function.update_self ..) (Function.update_self ..)
    rw [Function.update_idem] at htracks
    refine ⟨t,.leaving l,?_,by rw [hk]; exact .closedHere l,?_⟩
    · exact (hguard _).trans ((if_pos hl).trans ht)
    · rw [waits_update]
      exact htracks
  · have hqueued := hclosing.requeue
      (hclosing.queued.push (p := s.pool.baseLoop) (f := Functor.removeConnectionInLoop k) hwait)
    have hwaits : Function.update (waits phase) k (some (s.pool.baseLoop,.removeConnectionInLoop k)) =
        waits (Function.update phase k (some (.closing s.pool.baseLoop))) :=
      (waits_update phase k (.closing s.pool.baseLoop)).symm
    exact ⟨_,.closing s.pool.baseLoop,(hguard _).trans (if_neg hl),by rw [hk]; exact .closed _,hwaits ▸ hqueued⟩

/-- Why a step is not taken: there is nothing to close or to run, the connections' numbers
are used up, or ConnectedDestroyed is in another thread than its connection. -/
inductive Stopped (s : State) : Label → Halt → Prop where
  | unwatched (k : Nat) (h : ∀ c, s.connection k = some c → c.reading = false) : Stopped s (.handleClose k) .notEnabled
  | idle (l : Loop) (h : s.queue l = []) : Stopped s (.runFunctor l) .notEnabled
  | numbers (h : 2 ^ 31 ≤ s.nextConnId + 1) : Stopped s .newConnection .overflow
  | otherThread (l : Loop) (k : Nat) (c : Connection) (rest : List Functor) (hq : s.queue l = .connectedDestroyed k :: rest)
    (hc : s.connection k = some c) (hl : c.loop ≠ l) :
    Stopped s (.runFunctor l) (.fatal "EventLoop::abortNotInLoopThread")

/-- The functor at the head of a queue is the one its connection waits for. -/
theorem Tracks.runFunctor (hi : Inv s) (h : Tracks s phase (waits phase)) {l : Loop} {f : Functor} {rest : List Functor}
    (hq : s.queue l = f :: rest) :
    (∃ t k p, step s (.runFunctor l) = .ok t ∧ Next (phase k) p ∧
      Tracks t (Function.update phase k (some p)) (waits (Function.update phase k (some p)))) ∨
    ∃ e, step s (.runFunctor l) = .error e ∧ Stopped s (.runFunctor l) e := by
  obtain ⟨hwait,hpop⟩ := h.queued.pop hq
  generalize hk : f.connection = k at hwait hpop
  obtain ⟨p,hp,hp'⟩ := Option.bind_eq_some_iff.mp hwait
  obtain ⟨c,hc,-,hshows⟩ := h.shown _ _ hp
  have htaken := h.requeue hpop
  simp only [step,hq]
  cases p with
  | opened => cases hp'
  | gone => cases hp'
  | connecting m =>
    cases hp'
    obtain ⟨t,ht,htracks⟩ := htaken.connectedEstablished hp hc
    refine .inl ⟨t,_,.opened,?_,by rw [hp]; exact .established l,?_⟩
    · simp only [hc,Option.elim_some,ht]
    · rw [waits_update]
      exact htracks
  | closing m =>
    cases hp'
    have hbase : l = s.pool.baseLoop := hshows.1
    have hi' : Inv { s with queue := Function.update s.queue l rest } := hi.requeue fun m j hj => by
      rw [Function.update_apply] at hj
      split at hj
      · rename_i hm
        rw [hm,hq]
        exact List.mem_cons_of_mem _ hj
      · exact hj
    obtain ⟨t,m,ht,htracks⟩ := htaken.removeConnectionInLoop hi' (Function.update_self ..) (by rw [hp,hbase]) hc
    refine .inl ⟨t,_,.leaving m,?_,by rw [hp]; exact .removed l m,?_⟩
    · simp only [hc,Option.elim_some,ht]
    · rw [Function.update_idem] at htracks
      rw [waits_update]
      exact htracks
  | leaving m =>
    cases hp'
    rcases htaken.connectedDestroyed (l := l) hp hc with ⟨-,t,ht,htracks⟩ | ⟨hl,herror⟩
    · refine .inl ⟨t,_,.gone,?_,by rw [hp]; exact .destroyed l,?_⟩
      · simp only [hc,Option.elim_some,ht]
      · rw [waits_update]
        exact htracks
    · refine .inr ⟨_,?_,.otherThread l _ c rest hq hc hl⟩
      simp only [hc,Option.elim_some,herror]

/-- Every step moves one connection on by one arrow, or says why it is not taken. -/
theorem Tracks.step (hi : Inv s) (h : Tracks s phase (waits phase)) (a : Label) :
    (∃ t k p, step s a = .ok t ∧ Next (phase k) p ∧
      Tracks t (Function.update phase k (some p)) (waits (Function.update phase k (some p)))) ∨
    ∃ e, TcpServer.step s a = .error e ∧ Stopped s a e := by
  cases a with
  | newConnection =>
    by_cases hid : s.nextConnId + 1 < 2 ^ 31
    · obtain ⟨t,p,ht,hnext,htracks⟩ := h.newConnection hi hid
      exact .inl ⟨t,_,p,ht,hnext,htracks⟩
    · refine .inr ⟨.overflow,?_,.numbers (not_lt.mp hid)⟩
      simp only [TcpServer.step,State.newConnection,ensure_not _ hid]
      rfl
  | handleClose k =>
    cases hc : s.connection k with
    | none =>
      refine .inr ⟨.notEnabled,?_,.unwatched k fun c hd => ?_⟩
      · simp only [TcpServer.step,hc]
      · rw [hc] at hd
        cases hd
    | some c =>
      cases hreading : c.reading with
      | true =>
        obtain ⟨t,p,ht,hnext,htracks⟩ := h.handleClose hi hc hreading
        refine .inl ⟨t,k,p,?_,hnext,htracks⟩
        simp only [TcpServer.step,hc,ensure_of _ hreading,ok_bind,ht]
      | false =>
        refine .inr ⟨.notEnabled,?_,.unwatched k fun d hd => ?_⟩
        · simp only [TcpServer.step,hc]
          rw [ensure_not _ (by rw [hreading]; exact Bool.false_ne_true)]
          rfl
        · cases hc.symm.trans hd
          exact hreading
  | runFunctor l =>
    cases hq : s.queue l with
    | nil =>
      refine .inr ⟨.notEnabled,?_,.idle l hq⟩
      simp only [TcpServer.step,hq]
    | cons f rest => exact h.runFunctor hi hq

theorem tracks_reachable (h : machine.Reachable s) : ∃ phase, Tracks s phase (waits phase) := by
  refine h.induction (P := fun s => ∃ phase, Tracks s phase (waits phase)) (fun s hs => ?_) fun s a t hr hp hs => ?_
  · obtain ⟨baseLoop,loops,name,-,rfl⟩ := hs
    exact ⟨_,tracks_initial baseLoop loops name⟩
  · obtain ⟨phase,htracks⟩ := hp
    rcases htracks.step (inv_reachable hr) a with ⟨u,k,p,hu,-,hnext⟩ | ⟨e,he,-⟩
    · cases hs.symm.trans hu
      exact ⟨_,hnext⟩
    · cases hs.symm.trans he

/-- When nothing is queued, no connection is between two phases. -/
theorem Tracks.settled (h : Tracks s phase (waits phase)) (hempty : ∀ l, s.queue l = []) {p : Phase} (hk : phase k = some p) :
    p = .opened ∨ p = .gone := by
  have hnone : Phase.awaits k p = none := by
    cases hw : p.awaits k with
    | none => rfl
    | some w =>
      obtain ⟨l,f⟩ := w
      have hmem : f ∈ s.queue l := by
        rw [h.queued.mem_iff,Phase.awaits_connection hw,waits,hk,Option.bind_some]
        exact hw
      rw [hempty] at hmem
      cases hmem
  cases p with
  | opened => exact .inl rfl
  | gone => exact .inr rfl
  | connecting l => cases hnone
  | closing l => cases hnone
  | leaving l => cases hnone

/-- On every run of accepts, closes of watched connections and loop steps: the connections
have the numbers given out, and names of their own; the map has exactly those for which no
ConnectedDestroyed was queued, which is queued once at most; and when nothing is queued,
every connection is open and in the map, or disconnected and not in it. -/
theorem registered_connections (h : machine.Reachable s) :
    (∀ k, s.connection k ≠ none ↔ 1 ≤ k ∧ k < s.nextConnId) ∧
    (∀ i j c d, s.connection i = some c → s.connection j = some d → c.name = d.name → i = j) ∧
    (s.mpConnection.map Prod.fst).Nodup ∧
    (∀ n k, (n,k) ∈ s.mpConnection ↔
      (∃ c, s.connection k = some c ∧ c.name = n) ∧ k ∉ s.teardowns.map Teardown.connection) ∧
    (s.teardowns.map Teardown.connection).Nodup ∧
    ((∀ l, s.queue l = []) → ∀ k c, s.connection k = some c →
      c.connectState = .connected ∧ c.reading = true ∧ (c.name,k) ∈ s.mpConnection ∨
      c.connectState = .disconnected ∧ c.reading = false ∧ (c.name,k) ∉ s.mpConnection) := by
  obtain ⟨phase,htracks⟩ := tracks_reachable h
  have hphase : ∀ k c, s.connection k = some c →
      ∃ p, phase k = some p ∧ c.name = connectionName s k ∧ p.Shows s.pool.baseLoop c := by
    intro k c hc
    cases hp : phase k with
    | none =>
      rw [htracks.unknown k hp] at hc
      cases hc
    | some p =>
      obtain ⟨d,hd,hn,hshows⟩ := htracks.shown k p hp
      cases hc.symm.trans hd
      exact ⟨p,rfl,hn,hshows⟩
  refine ⟨fun k => ?_,fun i j c d hc hd hn => ?_,?_,fun n k => ?_,htracks.once,fun hempty k c hc => ?_⟩
  · rw [← htracks.numbered k,not_iff_not]
    refine ⟨fun hc => ?_,htracks.unknown k⟩
    by_contra hne
    obtain ⟨p,hp⟩ := Option.ne_none_iff_exists'.mp hne
    obtain ⟨c,hc',-⟩ := htracks.shown k p hp
    cases hc.symm.trans hc'
  · obtain ⟨-,-,hi,-⟩ := hphase i c hc
    obtain ⟨-,-,hj,-⟩ := hphase j d hd
    exact connectionName_injective s (hi.symm.trans (hn.trans hj))
  · refine htracks.distinct.map_on ?_
    rintro ⟨n,i⟩ hi ⟨m,j⟩ hj hnm
    have hni := ((htracks.registered n i).mp hi).1
    have hmj := ((htracks.registered m j).mp hj).1
    exact Prod.ext hnm (connectionName_injective s (hni.symm.trans (Eq.trans hnm hmj)))
  · rw [htracks.registered n k,htracks.torn k]
    constructor
    · rintro ⟨hn,p,hp,hreg⟩
      obtain ⟨c,hc,hname,-⟩ := htracks.shown k p hp
      refine ⟨⟨c,hc,hname.trans hn.symm⟩,fun hleft => ?_⟩
      obtain ⟨q,hq,hqreg⟩ := hleft
      cases hp.symm.trans hq
      rw [hreg] at hqreg
      cases hqreg
    · rintro ⟨⟨c,hc,hn⟩,hkept⟩
      obtain ⟨p,hp,hname,-⟩ := hphase k c hc
      refine ⟨hn.symm.trans hname,p,hp,?_⟩
      cases hreg : p.registered with
      | true => rfl
      | false => exact absurd ⟨p,hp,hreg⟩ hkept
  · obtain ⟨p,hp,hname,hshows⟩ := hphase k c hc
    rw [htracks.registered,hp]
    rcases htracks.settled hempty hp with rfl | rfl
    · exact .inl ⟨hshows.1,hshows.2,hname,_,rfl,rfl⟩
    · refine .inr ⟨hshows.1,hshows.2,fun hmem => ?_⟩
      obtain ⟨-,q,hq,hreg⟩ := hmem
      cases hq
      cases hreg

/-- A server on one loop accepts two connections and loses the first. -/
theorem registered_connections_second : ∃ s, machine.Reachable s ∧ s.mpConnection = [("srv#2",2)] ∧
    (1 ∈ s.teardowns.map Teardown.connection) ∧ (s.mpConnection.map Prod.fst).Nodup := by
  obtain ⟨s,hr,hv⟩ := machine.exists_reachable ⟨0,[],"srv",by decide,rfl⟩
    [.newConnection,.newConnection,.handleClose 1,.runFunctor 0] (fun s => (s.mpConnection,s.teardowns))
    (b := ([("srv#2",2)],[⟨1,0,2⟩])) (by decide +kernel)
  simp only [Prod.mk.injEq] at hv
  exact ⟨s,hr,hv.1,by rw [hv.2]; exact List.mem_singleton_self _,(registered_connections hr).2.2.1⟩

/-- On every run a step that is not taken finds nothing to close or to run, no number left
for a connection, or ConnectedDestroyed outside its connection's thread: the assertions on
the state and on the map hold, and ConnectedEstablished is always in its thread. -/
theorem server_assertions_hold (h : machine.Reachable s) {a : Label} {e : Halt} (he : step s a = .error e) : Stopped s a e := by
  obtain ⟨phase,htracks⟩ := tracks_reachable h
  rcases htracks.step (inv_reachable h) a with ⟨t,k,p,ht,-⟩ | ⟨e',he',hstopped⟩
  · cases he.symm.trans ht
  · cases he.symm.trans he'
    exact hstopped

/-- The teardown of the one connection has come to the other of two IO loops. -/
theorem server_assertions_hold_otherThread : ∃ s, machine.Reachable s ∧
    Stopped s (.runFunctor 2) (.fatal "EventLoop::abortNotInLoopThread") := by
  obtain ⟨s,hr,hv⟩ := machine.exists_reachable ⟨0,[1,2],"srv",by decide,rfl⟩
    [.newConnection,.runFunctor 1,.handleClose 1,.runFunctor 0] (fun s => (s.connection 1,s.queue 2))
    (b := (some ⟨"srv#1",1,.connected,false,0⟩,[.connectedDestroyed 1])) (by decide +kernel)
  simp only [Prod.mk.injEq] at hv
  obtain ⟨hc,hq⟩ := hv
  refine ⟨s,hr,server_assertions_hold hr ?_⟩
  simp only [step,hq,hc,Option.elim_some,State.connectedDestroyed]
  rw [ensure_not _ (by decide)]
  rfl

/-- The steps that the connections below the bound have made. -/
def moves (bound : Nat) (phase : Nat → Option Phase) : Nat := ∑ k ∈ Finset.Ico 1 bound, Phase.rank (phase k)

theorem moves_le (bound : Nat) (phase : Nat → Option Phase) : moves bound phase ≤ 5 * (bound - 1) := by
  have hle := Finset.sum_le_card_nsmul (Finset.Ico 1 bound) (fun k => Phase.rank (phase k)) 5 fun k _ => Phase.rank_le _
  rwa [Nat.card_Ico,smul_eq_mul,Nat.mul_comm] at hle

theorem moves_update (bound : Nat) {p : Phase} (hk : k ∈ Finset.Ico 1 bound) (h : Next (phase k) p) :
    moves bound phase < moves bound (Function.update phase k (some p)) := by
  rw [moves,moves]
  refine Finset.sum_lt_sum (fun j _ => ?_) ⟨k,hk,?_⟩
  · by_cases hj : j = k
    · rw [hj,Function.update_self]
      exact h.rank_lt.le
    · rw [Function.update_of_ne hj]
  · rw [Function.update_self]
    exact h.rank_lt

/-- Over a run no number of a connection is lost and every step is a move. -/
theorem Tracks.run (hr : machine.Reachable s) (h : Tracks s phase (waits phase)) {as : List Label}
    (hrun : machine.run s as = .ok t) :
    ∃ phase', Tracks t phase' (waits phase') ∧ s.nextConnId ≤ t.nextConnId ∧
      moves t.nextConnId phase + as.length ≤ moves t.nextConnId phase' := by
  induction as generalizing s phase with
  | nil =>
    cases hrun
    exact ⟨phase,h,le_rfl,le_rfl⟩
  | cons a as ih =>
    obtain ⟨u,hu,hrun⟩ := (bind_ok_iff _ _ _).mp hrun
    rcases h.step (inv_reachable hr) a with ⟨v,k,p,hv,hnext,htracks⟩ | ⟨e,he,-⟩
    · cases hu.symm.trans hv
      obtain ⟨phase',htracks',hle,hmoves⟩ := ih (hr.step hu) htracks hrun
      have hin : ∀ j, phase j ≠ none → j < u.nextConnId := by
        intro j hj
        refine ((htracks.numbered j).mp ?_).2
        by_cases he : j = k
        · rw [he,Function.update_self]
          exact Option.some_ne_none _
        · rwa [Function.update_of_ne he]
      have hmono : s.nextConnId ≤ u.nextConnId := by
        rcases Nat.lt_or_ge 1 s.nextConnId with hlt | hle
        · have hlast : phase (s.nextConnId - 1) ≠ none := (h.numbered _).mpr ⟨by omega,by omega⟩
          have hbelow := hin _ hlast
          omega
        · exact hle.trans htracks.positive
      have hk : k ∈ Finset.Ico 1 t.nextConnId := by
        obtain ⟨hpos,hlt⟩ := (htracks.numbered k).mp (by rw [Function.update_self]; exact Option.some_ne_none _)
        exact Finset.mem_Ico.mpr ⟨hpos,hlt.trans_le hle⟩
      have hmove := moves_update t.nextConnId hk hnext
      refine ⟨phase',htracks',hmono.trans hle,?_⟩
      rw [List.length_cons]
      omega
    · cases hu.symm.trans he

/-- Functors accept nothing. -/
theorem runFunctor_nextConnId {l : Loop} (hs : step s (.runFunctor l) = .ok t) : t.nextConnId = s.nextConnId := by
  have helim : ∀ {x : Option Connection} {g : Connection → Except Halt State},
      x.elim (.error .notEnabled) g = .ok t → ∃ c, g c = .ok t := by
    intro x g he
    cases x with
    | none => cases he
    | some c => exact ⟨c,he⟩
  simp only [step] at hs
  split at hs
  · cases hs
  · split at hs
    · obtain ⟨c,hs⟩ := helim hs
      simp only [State.connectedEstablished,bind_ok_iff,Except.ok.injEq] at hs
      obtain ⟨-,-,-,-,rfl⟩ := hs
      rfl
    · obtain ⟨c,hs⟩ := helim hs
      simp only [State.removeConnectionInLoop,State.getNextLoop,bind_ok_iff,Except.ok.injEq] at hs
      obtain ⟨-,-,p,⟨q,-,rfl⟩,rfl⟩ := hs
      rfl
    · obtain ⟨c,hs⟩ := helim hs
      simp only [State.connectedDestroyed,bind_ok_iff,Except.ok.injEq] at hs
      obtain ⟨-,-,-,-,rfl⟩ := hs
      rfl

/-- From every reachable state: no run is longer than five steps for each connection; and
the loops can go on running what is queued until nothing is, or until a loop comes to a
ConnectedDestroyed that belongs into another thread. -/
theorem comes_to_rest (h : machine.Reachable s) :
    (∀ as t, machine.run s as = .ok t → as.length ≤ 5 * (t.nextConnId - 1)) ∧
    ∃ as t, (∀ a ∈ as, ∃ l, a = .runFunctor l) ∧ machine.run s as = .ok t ∧
      ((∀ l, t.queue l = []) ∨
        ∃ l, step t (.runFunctor l) = .error (.fatal "EventLoop::abortNotInLoopThread")) := by
  obtain ⟨phase,htracks⟩ := tracks_reachable h
  constructor
  · intro as t hrun
    obtain ⟨phase',-,-,hmoves⟩ := htracks.run h hrun
    have hle := moves_le t.nextConnId phase'
    omega
  -- on the moves that the connections have left
  · generalize hn : 5 * (s.nextConnId - 1) - moves s.nextConnId phase = n
    induction n using Nat.strong_induction_on generalizing s phase with
    | _ n ih =>
      by_cases hempty : ∀ l, s.queue l = []
      · exact ⟨[],s,fun a ha => absurd ha List.not_mem_nil,rfl,.inl hempty⟩
      obtain ⟨l,hl⟩ := not_forall.mp hempty
      obtain ⟨f,rest,hq⟩ := List.exists_cons_of_ne_nil hl
      rcases htracks.runFunctor (inv_reachable h) hq with ⟨t,k,p,ht,hnext,htracks'⟩ | ⟨e,he,hstopped⟩
      · have hid := runFunctor_nextConnId ht
        have hk : k ∈ Finset.Ico 1 s.nextConnId := by
          rw [← hid]
          exact Finset.mem_Ico.mpr ((htracks'.numbered k).mp (by rw [Function.update_self]; exact Option.some_ne_none _))
        have hmove := moves_update _ hk hnext
        have hle := moves_le s.nextConnId (Function.update phase k (some p))
        have hless : 5 * (t.nextConnId - 1) - moves t.nextConnId (Function.update phase k (some p)) < n := by
          rw [hid,← hn]
          omega
        obtain ⟨as,u,has,hrun,hend⟩ := ih _ hless (h.step (a := .runFunctor l) ht) _ htracks' rfl
        refine ⟨.runFunctor l :: as,u,fun a ha => ?_,?_,hend⟩
        · rcases List.mem_cons.mp ha with rfl | ha
          · exact ⟨l,rfl⟩
          · exact has a ha
        · rw [Machine.run_cons]
          exact (bind_ok_iff _ _ _).mpr ⟨t,ht,hrun⟩
      · cases hstopped with
        | idle _ hnil => exact absurd hnil hl
        | otherThread => exact ⟨[],s,fun a ha => absurd ha List.not_mem_nil,rfl,.inr ⟨l,he⟩⟩

/-- A server on one loop, one connection that is closed: its ConnectedDestroyed is run. -/
theorem comes_to_rest_closed : ∃ s, machine.Reachable s ∧ s.queue 0 = [.connectedDestroyed 1] ∧
    ∃ as t, (∀ a ∈ as, ∃ l, a = .runFunctor l) ∧ machine.run s as = .ok t ∧
      ((∀ l, t.queue l = []) ∨
        ∃ l, step t (.runFunctor l) = .error (.fatal "EventLoop::abortNotInLoopThread")) := by
  obtain ⟨s,hr,hv⟩ := machine.exists_reachable ⟨0,[],"srv",by decide,rfl⟩ [.newConnection,.handleClose 1]
    (fun s => s.queue 0) (b := [.connectedDestroyed 1]) (by decide +kernel)
  exact ⟨s,hr,hv,(comes_to_rest hr).2⟩

end

end LinuxServer.Reactor.TcpServer
