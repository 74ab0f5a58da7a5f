import LinuxServer.Reactor.TcpServer

/-! Where a connection's teardown runs. The cursor decides it, so it runs on the
connection's own loop exactly when the cursor has come round to it again. -/
namespace LinuxServer.Reactor.TcpServer
open LinuxServer.Lib

/-- The loop that the call with the given number of earlier calls returns. -/
def EventLoopThreadPool.loopAt (p : EventLoopThreadPool) (m : Nat) : Loop :=
  p.loops.getD (m % p.loops.length) p.baseLoop

structure Inv (s : State) : Prop where
  distinct : (s.pool.baseLoop :: s.pool.loops).Nodup
  cursor : s.pool.loops ≠ [] → s.pool.next = s.calls % s.pool.loops.length
  fresh : ∀ k, s.nextConnId ≤ k → s.connection k = none
  placed : ∀ k c, s.connection k = some c → c.loop = s.pool.loopAt c.createdAt ∧ c.createdAt ≤ s.calls
  torn : ∀ t ∈ s.teardowns, t.loop = s.pool.loopAt t.calls ∧
    ∃ c, s.connection t.connection = some c ∧ c.createdAt ≤ t.calls
  queued : ∀ l k, .connectedDestroyed k ∈ s.queue l → ∃ t ∈ s.teardowns, t.connection = k ∧ t.loop = l

theorem inv_initial (baseLoop : Loop) (loops : List Loop) (name : String) (h : (baseLoop :: loops).Nodup) :
    Inv (initial baseLoop loops name) :=
  ⟨h,fun _ => (Nat.zero_mod _).symm,fun _ _ => rfl,fun _ _ hc => (by cases hc),fun _ ht => (by cases ht),
    fun _ _ hf => (by cases hf)⟩

private theorem succ_mod (m : Nat) {n : Nat} (h : 0 < n) :
    (m + 1) % n = if n ≤ m % n + 1 then 0 else m % n + 1 := by
  have hlt := Nat.mod_lt m h
  conv_lhs => rw [← Nat.mod_add_div m n,Nat.add_right_comm,Nat.add_mul_mod_self_left]
  split
  · have hend : m % n + 1 = n := by omega
    rw [hend,Nat.mod_self]
  · exact Nat.mod_eq_of_lt (by omega)

/-- A call takes the next loop and moves the cursor on, round the end. -/
theorem getNextLoop_cases {s t : State} {l : Loop} (h : Inv s) (hs : s.getNextLoop = .ok (l,t)) :
    l = s.pool.loopAt s.calls ∧ ∃ next,
      t = { s with pool := { s.pool with next := next }, calls := s.calls + 1 } ∧
      (s.pool.loops ≠ [] → next = (s.calls + 1) % s.pool.loops.length) := by
  simp only [State.getNextLoop,EventLoopThreadPool.getNextLoop,bind_ok_iff,Except.ok.injEq] at hs
  obtain ⟨⟨l',pool⟩,hp,hs⟩ := hs
  cases hs
  have hcursor := h.cursor
  split at hp
  · rename_i hempty
    cases hp
    exact ⟨by simp [EventLoopThreadPool.loopAt,hempty],s.pool.next,rfl,fun hne => absurd hempty hne⟩
  · rename_i first rest hloops
    have hne : s.pool.loops ≠ [] := by rw [hloops]; exact List.cons_ne_nil _ _
    split at hp
    · cases hp
    · rename_i pLoop hget
      cases hp
      rw [hcursor hne] at hget
      refine ⟨?_,_,rfl,fun _ => ?_⟩
      · rw [EventLoopThreadPool.loopAt,List.getD_eq_getElem?_getD,hget,Option.getD_some]
      · rw [hcursor hne,succ_mod _ (List.length_pos_iff.mpr hne)]

/-- A change of a connection's state keeps its place. -/
theorem Inv.setConnection {s : State} (h : Inv s) {k : Nat} {c c' : Connection}
    (hc : s.connection k = some c) (hl : c'.loop = c.loop) (ha : c'.createdAt = c.createdAt) :
    Inv (s.setConnection k c') := by
  have hk : ¬ s.nextConnId ≤ k := fun hle => by
    rw [h.fresh k hle] at hc
    cases hc
  refine ⟨h.distinct,h.cursor,fun j hj => ?_,fun j d hd => ?_,fun t ht => ?_,h.queued⟩
  · have hne : j ≠ k := fun he => hk (he ▸ hj)
    exact (Function.update_of_ne hne ..).trans (h.fresh j hj)
  · by_cases hj : j = k
    · rw [hj] at hd
      cases (Function.update_self ..).symm.trans hd
      rw [hl,ha]
      exact h.placed k c hc
    · exact h.placed j d ((Function.update_of_ne hj ..).symm.trans hd)
  · obtain ⟨htl,d,hd,hle⟩ := h.torn t ht
    refine ⟨htl,?_⟩
    by_cases hj : t.connection = k
    · rw [hj,hc] at hd
      cases hd
      exact ⟨c',by rw [hj]; exact Function.update_self ..,by rwa [ha]⟩
    · exact ⟨d,(Function.update_of_ne hj ..).trans hd,hle⟩

/-- Queueing anything but a teardown, and taking a functor off a queue. -/
theorem Inv.requeue {s : State} (h : Inv s) {q : Loop → List Functor}
    (hq : ∀ l k, .connectedDestroyed k ∈ q l → .connectedDestroyed k ∈ s.queue l) :
    Inv { s with queue := q } :=
  ⟨h.distinct,h.cursor,h.fresh,h.placed,h.torn,fun l k hf => h.queued l k (hq l k hf)⟩

private theorem Inv.queueInLoop {s : State} (h : Inv s) {l : Loop} {f : Functor}
    (hf : ∀ k, f ≠ .connectedDestroyed k) : Inv (s.queueInLoop l f) := by
  refine h.requeue fun l' k hk => ?_
  rw [Function.update_apply] at hk
  split at hk
  · rename_i hl
    rcases List.mem_append.mp hk with hk | hk
    · rwa [hl]
    · exact absurd (List.mem_singleton.mp hk).symm (hf k)
  · exact hk

private theorem inv_connectedEstablished {s t : State} {l : Loop} {k : Nat} {c : Connection} (h : Inv s)
    (hc : s.connection k = some c) (hs : s.connectedEstablished l k c = .ok t) : Inv t := by
  simp only [State.connectedEstablished,bind_ok_iff,Except.ok.injEq] at hs
  obtain ⟨-,-,-,-,rfl⟩ := hs
  exact h.setConnection hc rfl rfl

private theorem inv_connectedDestroyed {s t : State} {l : Loop} {k : Nat} {c : Connection} (h : Inv s)
    (hc : s.connection k = some c) (hs : s.connectedDestroyed l k c = .ok t) : Inv t := by
  simp only [State.connectedDestroyed,bind_ok_iff,Except.ok.injEq] at hs
  obtain ⟨-,-,-,-,rfl⟩ := hs
  exact h.setConnection hc rfl rfl

private theorem inv_newConnection {s t : State} (h : Inv s) (hs : s.newConnection = .ok t) : Inv t := by
  simp only [State.newConnection,bind_ok_iff] at hs
  obtain ⟨-,-,⟨l,s₁⟩,hnext,hs⟩ := hs
  have hi : Inv { s with nextConnId := s.nextConnId + 1 } :=
    ⟨h.distinct,h.cursor,fun k hk => h.fresh k (Nat.le_of_succ_le hk),h.placed,h.torn,h.queued⟩
  obtain ⟨rfl,next,rfl,hcursor⟩ := getNextLoop_cases hi hnext
  simp only at hs
  -- the new connection has a number of its own and the place of this call
  have hplaced : ∀ c : Connection, c.loop = s.pool.loopAt s.calls → c.createdAt = s.calls → ∀ m,
      Inv { s with
        nextConnId := s.nextConnId + 1
        pool := { s.pool with next := next }
        calls := s.calls + 1
        connection := Function.update s.connection s.nextConnId (some c)
        mpConnection := m } := by
    intro c hl ha m
    refine ⟨h.distinct,hcursor,fun j hj => ?_,fun j d hd => ?_,fun t ht => ?_,h.queued⟩
    · have hne : j ≠ s.nextConnId := fun he => by
        rw [he] at hj
        exact Nat.not_succ_le_self _ hj
      exact (Function.update_of_ne hne ..).trans (h.fresh j (Nat.le_of_succ_le hj))
    · by_cases hj : j = s.nextConnId
      · rw [hj] at hd
        cases (Function.update_self ..).symm.trans hd
        exact ⟨by rw [ha]; exact hl,by rw [ha]; exact Nat.le_succ _⟩
      · obtain ⟨hd₁,hd₂⟩ := h.placed j d ((Function.update_of_ne hj ..).symm.trans hd)
        exact ⟨hd₁,Nat.le_succ_of_le hd₂⟩
    · obtain ⟨htl,d,hd,hle⟩ := h.torn t ht
      have hne : t.connection ≠ s.nextConnId := fun he => by
        rw [he,h.fresh _ le_rfl] at hd
        cases hd
      exact ⟨htl,d,(Function.update_of_ne hne ..).trans hd,hle⟩
  split at hs
  · exact inv_connectedEstablished (hplaced _ rfl rfl _) (Function.update_self ..) hs
  · cases hs
    exact (hplaced _ rfl rfl _).queueInLoop (fun k hk => (by cases hk))

private theorem inv_removeConnectionInLoop {s t : State} {k : Nat} {c : Connection} (h : Inv s)
    (hc : s.connection k = some c) (hs : s.removeConnectionInLoop k c = .ok t) : Inv t := by
  simp only [State.removeConnectionInLoop,bind_ok_iff,Except.ok.injEq] at hs
  obtain ⟨-,-,⟨l,s₁⟩,hnext,rfl⟩ := hs
  have hi : Inv { s with mpConnection := s.mpConnection.filter fun p => p.1 ≠ c.name } :=
    ⟨h.distinct,h.cursor,h.fresh,h.placed,h.torn,h.queued⟩
  obtain ⟨rfl,next,rfl,hcursor⟩ := getNextLoop_cases hi hnext
  refine ⟨h.distinct,hcursor,h.fresh,fun j d hd => ?_,fun t ht => ?_,fun l j hf => ?_⟩
  · exact ⟨(h.placed j d hd).1,Nat.le_succ_of_le (h.placed j d hd).2⟩
  · rcases List.mem_append.mp ht with ht | ht
    · exact h.torn t ht
    · rw [List.mem_singleton.mp ht]
      exact ⟨rfl,c,hc,(h.placed k c hc).2⟩
  · simp only [State.queueInLoop,Function.update_apply] at hf
    have hold : .connectedDestroyed j ∈ s.queue l → ∃ t ∈ s.teardowns ++ [⟨k,s.pool.loopAt s.calls,s.calls⟩],
        t.connection = j ∧ t.loop = l := fun hf => by
      obtain ⟨t,ht,he⟩ := h.queued l j hf
      exact ⟨t,List.mem_append_left _ ht,he⟩
    split at hf
    · rename_i hl
      rcases List.mem_append.mp hf with hf | hf
      · exact hold (by rw [hl]; exact hf)
      · cases List.mem_singleton.mp hf
        exact ⟨_,List.mem_append_right _ (List.mem_singleton_self _),rfl,hl.symm⟩
    · exact hold hf

theorem inv_step {s t : State} {a : Label} (h : Inv s) (hs : step s a = .ok t) : Inv t := by
  cases a with
  | newConnection => exact inv_newConnection h hs
  | handleClose k =>
    simp only [step] at hs
    split at hs
    · cases hs
    · rename_i c hc
      simp only [State.handleClose,bind_ok_iff] at hs
      obtain ⟨-,-,-,-,hs⟩ := hs
      have hi : Inv (s.setConnection k { c with reading := false }) := h.setConnection hc rfl rfl
      split at hs
      · exact inv_removeConnectionInLoop hi (Function.update_self ..) hs
      · cases hs
        exact hi.queueInLoop (fun j hj => (by cases hj))
  | runFunctor l =>
    simp only [step] at hs
    split at hs
    · cases hs
    · rename_i f rest hq
      have hi : Inv { s with queue := Function.update s.queue l rest } := h.requeue fun l' j hf => by
        rw [Function.update_apply] at hf
        split at hf
        · rename_i hl
          rw [hl,hq]
          exact List.mem_cons_of_mem _ hf
        · exact hf
      have hrun : ∀ k (run : Connection → Except Halt State), (s.connection k).elim (.error .notEnabled) run = .ok t →
          ∃ c, s.connection k = some c ∧ run c = .ok t := fun k run he => by
        cases hc : s.connection k with
        | none => rw [hc] at he; cases he
        | some c => rw [hc] at he; exact ⟨c,rfl,he⟩
      split at hs
      · obtain ⟨c,hc,hs⟩ := hrun _ _ hs
        exact inv_connectedEstablished hi hc hs
      · obtain ⟨c,hc,hs⟩ := hrun _ _ hs
        exact inv_removeConnectionInLoop hi hc hs
      · obtain ⟨c,hc,hs⟩ := hrun _ _ hs
        exact inv_connectedDestroyed hi hc hs

theorem inv_reachable {s : State} (h : machine.Reachable s) : Inv s := by
  refine h.invariant (P := Inv) (fun s hs => ?_) (fun s a t hi hs => inv_step hi hs)
  obtain ⟨baseLoop,loops,name,hd,rfl⟩ := hs
  exact inv_initial baseLoop loops name hd

/-- Two calls return the same loop exactly when the cursor went round between them. -/
theorem loopAt_eq_iff {p : EventLoopThreadPool} (hd : (p.baseLoop :: p.loops).Nodup) {i j : Nat} (hij : i ≤ j) :
    p.loopAt j = p.loopAt i ↔ p.loops = [] ∨ p.loops.length ∣ j - i := by
  by_cases he : p.loops = []
  · simp [EventLoopThreadPool.loopAt,he]
  · have hpos := List.length_pos_iff.mpr he
    have hi := Nat.mod_lt i hpos
    have hj := Nat.mod_lt j hpos
    rw [EventLoopThreadPool.loopAt,EventLoopThreadPool.loopAt,List.getD_eq_getElem _ _ hj,List.getD_eq_getElem _ _ hi,
      (List.nodup_cons.mp hd).2.getElem_inj_iff,← Nat.modEq_iff_dvd' hij]
    exact ⟨fun h => .inr h.symm,fun h => (h.resolve_left he).symm⟩

/-- On every run: all teardowns are queued on the loops of their connections, and
ConnectedDestroyed never aborts for being in another thread, if and only if there
are no IO loops or the new and removed connections handled from each creation on
to its teardown are a multiple of their number. -/
theorem teardown_on_own_loop_iff {s : State} (h : machine.Reachable s) :
    ((∀ t ∈ s.teardowns, ∃ c, s.connection t.connection = some c ∧ t.loop = c.loop) ∧
      ∀ l k rest, s.queue l = .connectedDestroyed k :: rest →
        step s (.runFunctor l) ≠ .error (.fatal "EventLoop::abortNotInLoopThread")) ↔
    (s.pool.loops = [] ∨ ∀ t ∈ s.teardowns, ∃ c, s.connection t.connection = some c ∧
      s.pool.loops.length ∣ t.calls - c.createdAt) := by
  have hi := inv_reachable h
  have hiff : ∀ t ∈ s.teardowns, ∃ c, s.connection t.connection = some c ∧
      (t.loop = c.loop ↔ s.pool.loops = [] ∨ s.pool.loops.length ∣ t.calls - c.createdAt) := by
    intro t ht
    obtain ⟨htl,c,hc,hle⟩ := hi.torn t ht
    refine ⟨c,hc,?_⟩
    rw [htl,(hi.placed _ c hc).1]
    exact loopAt_eq_iff hi.distinct hle
  constructor
  · rintro ⟨hown,-⟩
    by_cases he : s.pool.loops = []
    · exact .inl he
    · refine .inr fun t ht => ?_
      obtain ⟨c,hc,hl⟩ := hown t ht
      obtain ⟨d,hd,hiff⟩ := hiff t ht
      cases hc.symm.trans hd
      exact ⟨c,hc,(hiff.mp hl).resolve_left he⟩
  · intro hround
    have hown : ∀ t ∈ s.teardowns, ∃ c, s.connection t.connection = some c ∧ t.loop = c.loop := by
      intro t ht
      obtain ⟨d,hd,hiff⟩ := hiff t ht
      refine ⟨d,hd,hiff.mpr (hround.imp_right fun hr => ?_)⟩
      obtain ⟨c,hc,hdvd⟩ := hr t ht
      cases hc.symm.trans hd
      exact hdvd
    refine ⟨hown,fun l k rest hq => ?_⟩
    obtain ⟨t,ht,rfl,rfl⟩ := hi.queued l k (by rw [hq]; exact List.mem_cons_self)
    obtain ⟨c,hc,hl⟩ := hown t ht
    simp only [step,hq,hc,Option.elim_some,State.connectedDestroyed,ensure_of _ hl.symm,ok_bind]
    rw [ensure]
    split
    · simp
    · exact fun he => (by cases Except.error.inj he)

/-- Two IO loops, two connections: each is closed when the cursor is back at
its loop. -/
theorem teardown_on_own_loop_iff_round :
    ∃ s, machine.Reachable s ∧ s.teardowns = [⟨1,1,2⟩,⟨2,2,3⟩] ∧
      ∀ t ∈ s.teardowns, ∃ c, s.connection t.connection = some c ∧ t.loop = c.loop := by
  obtain ⟨s,hr,hv⟩ := machine.exists_reachable ⟨0,[1,2],"srv",by decide,rfl⟩
    [.newConnection,.newConnection,.runFunctor 1,.runFunctor 2,.handleClose 1,.runFunctor 0,.handleClose 2,.runFunctor 0]
    (fun s => (s.teardowns,s.connection 1,s.connection 2,s.pool.loops))
    (b := ([⟨1,1,2⟩,⟨2,2,3⟩],some ⟨"srv#1",1,.connected,false,0⟩,some ⟨"srv#2",2,.connected,false,1⟩,[1,2]))
    (by decide +kernel)
  simp only [Prod.mk.injEq] at hv
  obtain ⟨ht,h1,h2,hl⟩ := hv
  refine ⟨s,hr,ht,((teardown_on_own_loop_iff hr).mpr (.inr ?_)).1⟩
  rw [ht,hl]
  intro t hmem
  rcases List.mem_pair.mp hmem with rfl | rfl
  · exact ⟨_,h1,by decide⟩
  · exact ⟨_,h2,by decide⟩

/-- Two IO loops, one connection that is opened and closed: its teardown goes to
the other loop, whose thread aborts on it. -/
theorem teardown_on_other_loop :
    ∃ s, machine.Reachable s ∧ (∃ t ∈ s.teardowns, ∃ c, s.connection t.connection = some c ∧ t.loop ≠ c.loop) ∧
      step s (.runFunctor 2) = .error (.fatal "EventLoop::abortNotInLoopThread") := by
  obtain ⟨s,hr,hv⟩ := machine.exists_reachable ⟨0,[1,2],"srv",by decide,rfl⟩
    [.newConnection,.runFunctor 1,.handleClose 1,.runFunctor 0]
    (fun s => (s.teardowns,s.connection 1,s.queue 2))
    (b := ([⟨1,2,1⟩],some ⟨"srv#1",1,.connected,false,0⟩,[.connectedDestroyed 1])) (by decide +kernel)
  simp only [Prod.mk.injEq] at hv
  obtain ⟨ht,hc,hq⟩ := hv
  refine ⟨s,hr,⟨⟨1,2,1⟩,by rw [ht]; exact List.mem_singleton_self _,_,hc,by decide⟩,?_⟩
  simp only [step,hq,hc,Option.elim_some,State.connectedDestroyed]
  rw [ensure_not _ (by decide)]
  rfl

end LinuxServer.Reactor.TcpServer
