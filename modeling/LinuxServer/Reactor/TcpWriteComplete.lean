import LinuxServer.Reactor.TcpWriting

/-! The write-complete notifications of an open connection, counted from the start of the
latest sendInLoop. -/
namespace LinuxServer.Reactor.TcpConnection
open LinuxServer.Lib
variable {threadId : Thread} {cb : CallBacks}

/-- The kernel has every byte that was accepted. -/
def State.AllWritten (s : State) : Prop := s.wire = s.accepted.flatMap Call.payload

instance (s : State) : Decidable s.AllWritten := inferInstanceAs (Decidable (_ = _))

/-- The functors queued since the start of the latest sendInLoop, one step later. -/
def notify (threadId : Thread) (n : Nat) (s : State) (a : Label) (t : State) : Nat :=
  (if sendsInLoop threadId s a then 0 else n) + completed s t

/-- The write-complete functors that a run queued since the start of its latest sendInLoop. -/
def notifications (threadId : Thread) (cb : CallBacks) (labels : List Label) : Nat :=
  (machine threadId cb).observe (notify threadId) 0 initial labels

theorem StreamInv.allWritten_iff {s : State} (h : StreamInv threadId s) :
    s.AllWritten ↔ s.outputBuffer.readable = [] := by
  rw [State.AllWritten,← h.stream,List.self_eq_append_right]

theorem StreamInv.accepted_calls {s : State} (h : StreamInv threadId s) {c : Call} (hc : c ∈ s.accepted) :
    c ∈ s.calls := by
  have hthread : c ∈ ofThread c.thread s.accepted := List.mem_filter.mpr ⟨hc,by simp⟩
  have hmem : c ∈ s.pipeline c.thread := by
    simp only [State.pipeline,List.append_assoc]
    exact List.mem_append_left _ hthread
  exact List.mem_of_mem_filter ((h.order c.thread).subset hmem)

/-- What sendInLoop queues: one functor when the whole message went out directly. -/
theorem completed_sendInLoop {s t : State} {c : Call} {answer : Except Int Nat} (hcb : cb.writeComplete = true)
    (hb : s.outputBuffer.WF) (hup : s.connectState ≠ .disconnected) (hp : c.payload ≠ [])
    (hs : s.sendInLoop cb c answer = .ok t) :
    completed s t = if t.outputBuffer.readable = [] then 1 else 0 := by
  rcases sendInLoop_cases hb hs with ⟨hdown,-⟩ | ⟨-,n,b,hn,hcount,-,hread,rfl⟩
  · exact absurd hdown hup
  · rw [@completed_completions cb s _ (s.Direct ∧ answer = .ok c.payload.length) _ rfl]
    have hlen : 0 < c.payload.length := List.length_pos_iff.mpr hp
    have hiff : (s.Direct ∧ answer = .ok c.payload.length) ↔ b.readable = [] := by
      rw [hread,List.append_eq_nil_iff,List.drop_eq_nil_iff]
      constructor
      · rintro ⟨hd,rfl⟩
        rw [State.nWrite,if_pos hd] at hcount
        exact ⟨hd.2,hcount.ge⟩
      · rintro ⟨-,hall⟩
        have hd : s.Direct := .of_nWrite (by rw [← hcount]; omega)
        rw [State.nWrite,if_pos hd] at hcount
        refine ⟨hd,?_⟩
        cases answer with
        | ok m => rw [show m = c.payload.length from hcount.symm.trans (le_antisymm hn hall)]
        | error errno =>
          have hzero : n = 0 := hcount
          omega
    simp only [hiff,hcb,and_true]

/-- On an open connection that accepted something, the count is 1 if the output is empty and 0 if not. -/
def Exact (n : Nat) (s : State) : Prop :=
  s.Open → (∀ c ∈ s.calls, c.payload ≠ []) → s.accepted ≠ [] → n = if s.outputBuffer.readable = [] then 1 else 0

theorem exact_step {n : Nat} {s t : State} {a : Label} (hcb : cb.writeComplete = true) (hi : StreamInv threadId s)
    (hw : WriteInv s) (h : Exact n s) (hs : step threadId cb s a = .ok t) : Exact (notify threadId n s a t) t := by
  intro ho hne ha
  have hit := streamInv_step hi hs
  rcases move_of_step hs with ⟨hq,hsend,-⟩ | ⟨r,c,answer,hq,hp,-,hsend,hrun⟩ | ⟨answer,rfl,hrun⟩ | ⟨-,-,-,-,hclosed,-⟩
  · rw [notify,hsend,if_neg Bool.false_ne_true,hq.completed,Nat.add_zero,hq.outputBuffer]
    rw [hq.accepted] at ha
    exact h (hq.opened ho) (fun c hc => hne c (hq.calls hc)) ha
  · -- the count starts again
    have hbr : r.outputBuffer.WF := by
      rw [hq.outputBuffer]
      exact hi.buffer
    have hsame : completed r t = completed s t := by rw [completed,completed,hp]
    have hopen := open_of_step hi.buffer hs ho
    have hup : r.connectState ≠ .disconnected := mt hq.disconnected (hw.up hopen)
    rw [notify,hsend,if_pos rfl,Nat.zero_add,← hsame]
    refine completed_sendInLoop hcb hbr hup (hne c (hit.accepted_calls ?_)) hrun
    rcases sendInLoop_cases hbr hrun with ⟨hdown,-⟩ | ⟨-,m,b,-,-,-,-,rfl⟩
    · exact absurd hdown hup
    · exact List.mem_append_right _ (List.mem_singleton_self c)
  · rw [notify,show sendsInLoop threadId s (.handleWrite answer) = false from rfl,if_neg Bool.false_ne_true]
    rcases handleWrite_cases hi.buffer hrun with ⟨-,rfl⟩ | ⟨hbusy,m,b,-,-,hm,-,hread,rfl⟩
    · rw [completed_append [] (List.append_nil _).symm]
      exact h ho hne ha
    · rw [h ho hne ha,if_neg (hw.busy hbusy),Nat.zero_add,
        @completed_completions cb s _ (m = s.outputBuffer.readable.length) _ rfl]
      have hiff : m = s.outputBuffer.readable.length ↔ b.readable = [] := by
        rw [hread,List.drop_eq_nil_iff]
        omega
      simp only [hiff,hcb,and_true]
  · exact absurd (hclosed ho).2 (hw.untorn (hclosed ho).1)

/-- A notification is queued only when nothing is left to write. -/
theorem allWritten_of_completed {s t : State} {a : Label} (hi : StreamInv threadId s)
    (hs : step threadId cb s a = .ok t) (hn : 0 < completed s t) : t.AllWritten := by
  have hdone : ∀ {r : State} {done : Prop} [Decidable done], r.pendingFunctors = s.pendingFunctors →
      t.pendingFunctors = r.pendingFunctors ++ completions cb done → done := fun {r done _} hr hp => by
    rw [hr] at hp
    exact ((completed_pos_iff hp).mp hn).2
  rw [(streamInv_step hi hs).allWritten_iff]
  rcases move_of_step hs with ⟨hq,-,-⟩ | ⟨r,c,answer,hq,hp,-,-,hrun⟩ | ⟨answer,rfl,hrun⟩ | ⟨-,-,hzero,-,-,-⟩
  · rw [hq.completed] at hn
    exact absurd hn (lt_irrefl 0)
  · rcases sendInLoop_cases (by rw [hq.outputBuffer]; exact hi.buffer) hrun with ⟨-,rfl⟩ | ⟨-,m,b,-,hcount,-,hread,rfl⟩
    · rw [completed_append [] (by rw [List.append_nil]; exact hp)] at hn
      exact absurd hn (lt_irrefl 0)
    · obtain ⟨hd,rfl⟩ := hdone hp rfl
      rw [State.nWrite,if_pos hd] at hcount
      rw [hcount,hd.2,List.nil_append] at hread
      exact hread.trans (List.drop_eq_nil_of_le le_rfl)
  · rcases handleWrite_cases hi.buffer hrun with ⟨-,rfl⟩ | ⟨-,m,b,-,-,-,-,hread,rfl⟩
    · rw [completed_append [] (List.append_nil _).symm] at hn
      exact absurd hn (lt_irrefl 0)
    · have hall : m = s.outputBuffer.readable.length := hdone rfl rfl
      exact hread.trans (List.drop_eq_nil_of_le hall.ge)
  · rw [hzero] at hn
    exact absurd hn (lt_irrefl 0)

/-- In every run with a write-complete callback: on an open connection whose payloads are
not empty, the functors queued since the start of the latest sendInLoop are none while an
accepted byte is unwritten and one when there is no such byte; and a step that queues a
notification leaves no accepted byte unwritten. -/
theorem writeComplete_exact {labels : List Label} {t : State} (hcb : cb.writeComplete = true)
    (hr : (machine threadId cb).run initial labels = .ok t) :
    (t.Open → (∀ c ∈ t.calls, c.payload ≠ []) → t.accepted ≠ [] →
      notifications threadId cb labels = if t.AllWritten then 1 else 0) ∧
    ∀ a u, step threadId cb t a = .ok u → 0 < completed t u → u.AllWritten := by
  have hi : StreamInv threadId t ∧ WriteInv t ∧ Exact (notifications threadId cb labels) t := by
    refine (machine threadId cb).run_observe (P := fun n s => StreamInv threadId s ∧ WriteInv s ∧ Exact n s)
      (fun n s a t h hs => ?_) ⟨streamInv_initial,writeInv_initial,fun _ _ ha => absurd rfl ha⟩ hr
    exact ⟨streamInv_step h.1 hs,writeInv_step h.1.buffer h.2.1 hs,exact_step hcb h.1 h.2.1 h.2.2 hs⟩
  refine ⟨fun ho hne ha => ?_,fun a u hs hn => allWritten_of_completed hi.1 hs hn⟩
  simp only [hi.1.allWritten_iff]
  exact hi.2.2 ho hne ha

/-- Two messages, the second behind the rest of the first, then one write for all of it. -/
theorem writeComplete_exact_merged :
    let labels : List Label := [.connectedEstablished,.send 0 (.string [1,2]) (.ok 1),.send 0 (.string [3]) (.ok 1),
      .handleWrite (.ok 2)]
    ∃ t, (machine 0 ⟨true,none,true⟩).run initial labels = .ok t ∧ t.wire = [1,2,3] ∧
      notifications 0 ⟨true,none,true⟩ labels = 1 := by
  intro labels
  obtain ⟨t,hr,hv⟩ := (machine 0 ⟨true,none,true⟩).exists_run_eq (s := initial) labels
    (fun t : State => (t.wire,t.accepted,t.calls,decide t.Open)) (b := ([1,2,3],[⟨0,0,[1,2]⟩,⟨0,1,[3]⟩],
      [⟨0,0,[1,2]⟩,⟨0,1,[3]⟩],true)) (by decide +kernel)
  simp only [Prod.mk.injEq,decide_eq_true_eq] at hv
  obtain ⟨hwire,haccepted,hcalls,ho⟩ := hv
  have hcount := (writeComplete_exact rfl hr).1 ho (by rw [hcalls]; decide) (by rw [haccepted]; decide)
  rw [if_pos (by rw [State.AllWritten,hwire,haccepted]; rfl)] at hcount
  exact ⟨t,hr,hwire,hcount⟩

end LinuxServer.Reactor.TcpConnection
