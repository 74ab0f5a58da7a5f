import LinuxServer.Reactor.TimerInvariant

/-! Cancelling with the id that AddTimer returns. The id has no sequence, so it takes
no timer out of the queue: a cancelled timer stays silent where it is already spent. -/
namespace LinuxServer.Reactor.TimerQueue
open LinuxServer.Lib

def Event.adds (k : Nat) : Event → Bool
  | .added j _ _ _ => j = k
  | _ => false

def Event.deletes (k : Nat) : Event → Bool
  | .deleted j _ => j = k
  | _ => false

/-- The timer has been inserted into the queue. -/
def Inserted (log : List Event) (k : Nat) : Prop := ∃ a ∈ log, a.adds k = true

/-- The timer is freed, or is a one-shot of the present batch that has been started. -/
def Spent (s : State) (k : Nat) : Prop :=
  (∃ a ∈ s.log, a.deletes k = true) ∨ ∃ e ∈ s.phase.ran, ∃ t ∈ s.heap e.timer, t.created = k ∧ t.isReapeat = false

instance (log : List Event) (k : Nat) : Decidable (Inserted log k) :=
  inferInstanceAs (Decidable (∃ a ∈ log, a.adds k = true))
instance (s : State) (k : Nat) : Decidable (Spent s k) :=
  inferInstanceAs (Decidable ((∃ a ∈ s.log, a.deletes k = true) ∨
    ∃ e ∈ s.phase.ran, ∃ t ∈ s.heap e.timer, t.created = k ∧ t.isReapeat = false))

/-- The timer whose Cancel the step processes in the loop. -/
def State.cancels (s : State) : Label → Option Nat
  | .cancel true k => some k
  | .runFunctor =>
    match s.functors with
    | .cancelInLoop _ of :: _ => of
    | _ => none
  | _ => none

/-- The step cancels no inserted timer that is not spent, and the 64-bit counter of
the timers has not come round. -/
def CancelsSpent (s : State) (a : Label) : Prop :=
  s.numCreated < 2 ^ 64 ∧ ∀ k ∈ s.cancels a, Inserted s.log k → Spent s k

instance (s : State) (a : Label) : Decidable (CancelsSpent s a) :=
  inferInstanceAs (Decidable (s.numCreated < 2 ^ 64 ∧ ∀ k ∈ s.cancels a, Inserted s.log k → Spent s k))

section History
variable {P Q : Nat → Prop} {log : List Event}

/-- Timers cancelled once inserted have the property, and are not started after it. -/
def Effective (P : Nat → Prop) (log : List Event) : Prop :=
  ∀ before k after, log = before ++ .cancelled k :: after → Inserted before k →
    P k ∧ ∀ read expiration, .started k read expiration ∉ after

theorem Effective.mono (h : Effective P log) (hPQ : ∀ k, P k → Q k) : Effective Q log := fun before k after hl hb =>
  (h before k after hl hb).imp_left (hPQ k)

theorem Effective.append {a : Event} (h : Effective P log) (hPQ : ∀ k, P k → Q k)
    (hstart : ∀ k read expiration, a = .started k read expiration → ¬ P k)
    (hcancel : ∀ k, a = .cancelled k → Inserted log k → Q k) : Effective Q (log ++ [a]) := by
  intro before k after hl hb
  rcases List.eq_nil_or_concat' after with rfl | ⟨after,b,rfl⟩
  · obtain ⟨rfl,ha⟩ := List.append_inj' hl rfl
    exact ⟨hcancel k (List.singleton_inj.mp ha) hb,fun _ _ => List.not_mem_nil⟩
  · rw [← List.cons_append,← List.append_assoc] at hl
    obtain ⟨hlog,ha⟩ := List.append_inj' hl rfl
    obtain ⟨hP,hs⟩ := h before k after hlog hb
    refine ⟨hPQ k hP,fun read expiration hm => ?_⟩
    rcases List.mem_append.mp hm with hm | hm
    · exact hs read expiration hm
    · exact hstart k read expiration ((List.singleton_inj.mp ha).trans (List.mem_singleton.mp hm).symm) hP

end History

section Steps
variable {s t : State} {k : Nat}

/-- What is spent stays so while the started entries and their timers stay. -/
theorem Spent.frame (h : Spent s k) (hlog : s.log ⊆ t.log)
    (hran : ∀ e ∈ s.phase.ran, e ∈ t.phase.ran ∧ t.heap e.timer = s.heap e.timer) : Spent t k := by
  rcases h with ⟨a,ha,hd⟩ | ⟨e,he,hs⟩
  · exact .inl ⟨a,hlog ha,hd⟩
  · obtain ⟨hm,hh⟩ := hran e he
    exact .inr ⟨e,hm,hh ▸ hs⟩

private theorem ran_update {p : Addr} (x : Option Timer) (hp : ∀ e ∈ s.phase.batch, e.timer ≠ p) :
    ∀ e ∈ s.phase.ran, e ∈ s.phase.ran ∧ Function.update s.heap p x e.timer = s.heap e.timer := fun e he =>
  ⟨he,Function.update_of_ne (hp e (Phase.ran_batch he)) ..⟩

theorem Spent.cancelled {id : TimerId} {of : Option Nat} (h : Spent s k) (hi : Inv s) (hc : Cancelled s id of t) : Spent t k := by
  cases hc with
  | removed u hu hseq hlist =>
    exact h.frame (fun a ha => List.mem_append_left _ (List.mem_append_left _ ha)) (ran_update none (hi.listed_ne hlist))
  | marked | ignored => exact h.frame (fun a ha => List.mem_append_left _ ha) fun e he => ⟨he,rfl⟩

/-- Once spent, for good: reset frees a one-shot, and nothing else touches the batch. -/
theorem Spent.move {a : Label} (h : Spent s k) (hi : Inv s) (hm : Move s a t) : Spent t k := by
  cases hm with
  | queueTimer p expiration dInterval hp hb => exact h.frame (List.Subset.refl _) (ran_update _ (hi.fresh_ne hp))
  | addTimer p expiration dInterval hp hb =>
    exact h.frame (fun a ha => List.mem_append_left _ ha) (ran_update _ (hi.fresh_ne hp))
  | runAdd => exact h.frame (fun a ha => List.mem_append_left _ ha) fun e he => ⟨he,rfl⟩
  | cancel _ id of _ ha ht => exact h.cancelled hi ht
  | runCancel id of rest _ hf hidle ht => exact Spent.cancelled (s := { s with functors := rest }) h (hi.popped hf) ht
  | queueCancel | otherQueue | setClock | advance | timerFdExpires | settime =>
    exact h.frame (List.Subset.refl _) fun e he => ⟨he,rfl⟩
  | handleRead hidle => exact h.frame (List.Subset.refl _) fun e he => by rw [hidle] at he; cases he
  | readTimerFd now active hp ha => exact h.frame (List.Subset.refl _) fun e he => by rw [hp] at he; cases he
  | runTimer now ran e rest u hp hu hw =>
    refine h.frame (fun a ha => List.mem_append_left _ ha) fun f hf => ⟨?_,rfl⟩
    rw [hp] at hf
    exact List.mem_append_left _ hf
  | endTimers now ran hp =>
    refine h.frame (List.Subset.refl _) fun f hf => ⟨?_,rfl⟩
    rwa [hp] at hf
  | restart now e rest u hp hu hw hr =>
    rcases h with h | ⟨f,hf,v,hv,hk,hone⟩
    · obtain ⟨a,ha,hd⟩ := h
      exact .inl ⟨a,List.mem_append_left _ ha,hd⟩
    · rw [hp] at hf
      rcases List.mem_cons.mp hf with rfl | hf
      · cases hu.symm.trans hv
        rw [hr] at hone
        cases hone
      · exact .inr ⟨f,hf,v,(Function.update_of_ne (hi.batch_ne hp f hf) ..).trans hv,hk,hone⟩
  | retire now e rest u hp hu hw hr =>
    rcases h with h | ⟨f,hf,v,hv,hk,hone⟩
    · obtain ⟨a,ha,hd⟩ := h
      exact .inl ⟨a,List.mem_append_left _ ha,hd⟩
    · rw [hp] at hf
      rcases List.mem_cons.mp hf with rfl | hf
      · cases hu.symm.trans hv
        exact .inl ⟨_,List.mem_append_right _ List.mem_cons_self,decide_eq_true hk⟩
      · exact .inr ⟨f,hf,v,(Function.update_of_ne (hi.batch_ne hp f hf) ..).trans hv,hk,hone⟩
  | resetTimerFd now hp =>
    exact h.frame (List.Subset.refl _) fun e he => by rw [hp] at he; cases he

/-- The timer at the head of the rest is not spent. -/
theorem not_spent_next (hi : Inv s) {now : Int} {ran rest : List Entry} {e : Entry} {u : Timer}
    (hp : s.phase = .firing now ran (e :: rest)) (hu : s.heap e.timer = some u) : ¬ Spent s u.created := by
  rintro (⟨a,ha,hd⟩ | ⟨f,hf,v,hv,hk,-⟩)
  · cases a with
    | deleted j cause => exact hi.recorded.dead j cause ha e.timer u hu (of_decide_eq_true hd).symm
    | _ => cases hd
  · rw [hp] at hf
    have hnd := (List.nodup_append.mp (List.nodup_append.mp hi.indexed.nodup).1).2.1
    rw [hp,Phase.batch,List.map_append] at hnd
    exact (List.nodup_append.mp hnd).2.2 f.timer (List.mem_map_of_mem hf) e.timer List.mem_cons_self
      (hi.recorded.distinct _ _ _ _ hv hu hk)

/-- Within a round of the counter no sequence is zero. -/
theorem int64_ne_zero {n : Nat} (h : 0 < n) (hn : n < 2 ^ 64) : int64 n ≠ 0 := fun he => by
  have hd : ((2 ^ 64 : Nat) : Int) ∣ (n : Int) := Int.dvd_iff_bmod_eq_zero.mpr he
  have := Nat.le_of_dvd h (Int.natCast_dvd_natCast.mp hd)
  omega

theorem getSequence_ne_zero (hi : Inv s) (hn : s.numCreated < 2 ^ 64) {p : Addr} {u : Timer} (hu : s.heap p = some u) :
    u.getSequence ≠ 0 := by
  obtain ⟨hpos,hle⟩ := hi.recorded.created p u hu
  rw [Timer.getSequence]
  exact int64_ne_zero hpos (hle.trans_lt hn)

/-- The ids that AddTimer returns have no sequence. -/
def Issued (s : State) : Prop := ∀ k id, s.timerId k = some id → id.seq = 0

private theorem issued_newTimer (h : Issued s) (p : Addr) (expiration : Int) (dInterval : Interval) :
    Issued (s.newTimer p expiration dInterval) := fun k id hk => by
  simp only [State.newTimer,Function.update_apply] at hk
  split at hk
  · cases hk
    rfl
  · exact h k id hk

private theorem issued_move {a : Label} (h : Issued s) (hm : Move s a t) : Issued t := by
  cases hm with
  | queueTimer p expiration dInterval | addTimer p expiration dInterval => exact issued_newTimer h p expiration dInterval
  | cancel _ _ _ _ _ ht | runCancel _ _ _ _ _ _ ht => cases ht <;> exact h
  | _ => exact h

theorem issued_reachable (h : machine.Reachable s) : Issued s := by
  refine h.induction (P := Issued) (fun s hs => ?_) fun s a t hr hi hs => ?_
  · obtain ⟨clock,monotonic,numCreated,rfl⟩ := hs
    exact fun _ _ h => (by cases h)
  · exact issued_move hi (move_of_step (inv_reachable hr) hs)

/-- A Cancel with the id of AddTimer leaves the timers and both indexes as they are. -/
theorem cancel_removes_nothing (h : machine.Reachable s) (hn : s.numCreated < 2 ^ 64) {id : TimerId}
    (hid : s.timerId k = some id) (ht : s.cancelInLoop id (some k) = .ok t) :
    t.heap = s.heap ∧ t.timerList = s.timerList ∧ t.activeTimers = s.activeTimers := by
  have hi := inv_reachable h
  obtain ⟨u,hu,hc⟩ := cancelInLoop_ok hi.indexed id (some k)
  cases ht.symm.trans hu
  cases hc with
  | removed v hv hseq hlist => exact absurd (hseq.trans (issued_reachable h k id hid)) (getSequence_ne_zero hi hn hv)
  | marked | ignored => exact ⟨rfl,rfl,rfl⟩

/-- Those that took a timer out have a sequence, and the cancelled timers are silent. -/
structure Silent (s : State) : Prop where
  inv : Inv s
  issued : Issued s
  causes : ∀ j id, .deleted j (some id) ∈ s.log → id.seq ≠ 0
  effective : Effective (Spent s) s.log

theorem silent_initial (clock monotonic : Int) (numCreated : Nat) : Silent (initial clock monotonic numCreated) :=
  ⟨inv_initial clock monotonic numCreated,fun _ _ h => (by cases h),fun _ _ h => (by cases h),
    fun before _ _ h => absurd h.symm (by simp [initial])⟩

private theorem causes_append {log : List Event} {a : Event} (h : ∀ j id, .deleted j (some id) ∈ log → id.seq ≠ 0)
    (ha : ∀ j id, a = .deleted j (some id) → id.seq ≠ 0) : ∀ j id, .deleted j (some id) ∈ log ++ [a] → id.seq ≠ 0 :=
  fun j id hm => (List.mem_append.mp hm).elim (h j id) fun hm => ha j id (List.mem_singleton.mp hm).symm

/-- The last event of a Cancel, once its effect is there. -/
private theorem effective_cancelled {log : List Event} {P : Nat → Prop} (of : Option Nat) (h : Effective P log)
    (hc : ∀ k ∈ of, Inserted log k → P k) : Effective P (log ++ of.toList.map .cancelled) := by
  cases of with
  | none => simpa using h
  | some j =>
    refine h.append (fun _ hk => hk) (fun _ _ _ => Event.noConfusion) fun k hk hk' => ?_
    cases hk
    exact hc j rfl hk'

private theorem silent_cancelled {id : TimerId} {of : Option Nat} (h : Silent s) (hn : s.numCreated < 2 ^ 64)
    (hof : ∀ k ∈ of, Inserted s.log k → Spent s k) (hc : Cancelled s id of t) : Silent t := by
  have hi := inv_cancelled h.inv hc
  have hs : ∀ k, Spent s k → Spent t k := fun k hk => hk.cancelled h.inv hc
  have heff : Effective (Spent t) (s.log ++ of.toList.map .cancelled) :=
    (effective_cancelled of h.effective hof).mono hs
  have hcauses : ∀ j d, .deleted j (some d) ∈ s.log ++ of.toList.map .cancelled → d.seq ≠ 0 := fun j d hm => by
    rcases List.mem_append.mp hm with hm | hm
    · exact h.causes j d hm
    · obtain ⟨_,_,he⟩ := List.mem_map.mp hm
      cases he
  cases hc with
  | removed u hu hseq hlist =>
    have hmid : Effective (Spent s) (s.log ++ [.deleted u.created (some id)]) :=
      h.effective.append (fun _ hk => hk) (fun _ _ _ => Event.noConfusion) fun _ => Event.noConfusion
    refine ⟨hi,h.issued,fun j d hm => ?_,(effective_cancelled of hmid fun k hk hins => ?_).mono hs⟩
    · rcases List.mem_append.mp hm with hm | hm
      · refine causes_append h.causes (fun j d he => ?_) j d hm
        cases he
        exact hseq ▸ getSequence_ne_zero h.inv hn hu
      · exact hcauses j d (List.mem_append_right _ hm)
    · obtain ⟨a,ha,hadd⟩ := hins
      refine hof k hk ⟨a,?_,hadd⟩
      rcases List.mem_append.mp ha with ha | ha
      · exact ha
      · rw [List.mem_singleton.mp ha] at hadd
        cases hadd
  | marked | ignored => exact ⟨hi,h.issued,hcauses,heff⟩

theorem silent_move {a : Label} (h : Silent s) (hc : CancelsSpent s a) (hm : Move s a t) : Silent t := by
  have hi := inv_move h.inv hm
  have hs : ∀ k, Spent s k → Spent t k := fun k hk => hk.move h.inv hm
  have hid := issued_move h.issued hm
  cases hm with
  | addTimer | runAdd | restart =>
    exact ⟨hi,hid,causes_append h.causes fun _ _ => Event.noConfusion,
      h.effective.append hs (fun _ _ _ => Event.noConfusion) fun _ => Event.noConfusion⟩
  | cancel _ id of _ ha ht =>
    refine silent_cancelled h hc.1 (fun k hk => hc.2 k ?_) ht
    cases a with
    | cancel b j =>
      obtain ⟨rfl,rfl,-⟩ := ha
      exact hk
    | cancelId b i =>
      obtain ⟨-,rfl,-⟩ := ha
      cases hk
    | _ => exact ha.elim
  | runCancel id of rest _ hf hidle ht =>
    have hof : s.cancels .runFunctor = of := by simp only [State.cancels,hf]
    exact silent_cancelled (s := { s with functors := rest }) ⟨h.inv.popped hf,h.issued,h.causes,h.effective⟩ hc.1
      (fun k hk => hc.2 k (hof ▸ hk)) ht
  | queueTimer | queueCancel | otherQueue | setClock | advance | timerFdExpires | settime | handleRead | readTimerFd | endTimers
  | resetTimerFd =>
    exact ⟨hi,hid,h.causes,h.effective.mono hs⟩
  | runTimer now ran e rest u hp hu hw =>
    refine ⟨hi,hid,causes_append h.causes fun _ _ => Event.noConfusion,h.effective.append hs ?_ fun _ => Event.noConfusion⟩
    intro k read expiration he
    cases he
    exact not_spent_next h.inv hp hu
  | retire now e rest u hp hu hw hr =>
    refine ⟨hi,hid,causes_append h.causes fun j d he => ?_,
      h.effective.append hs (fun _ _ _ => Event.noConfusion) fun _ => Event.noConfusion⟩
    split at he
    · cases he
      simpa only using getSequence_ne_zero h.inv hc.1 hu
    · cases he

/-- In a run that cancels inserted timers only when they are spent, a cancelled timer
is never started again, and no Cancel removes a timer other than its own. -/
theorem cancelled_silent {s₀ : State} {as : List Label} (h₀ : machine.Init s₀) (hc : machine.Along CancelsSpent s₀ as)
    (hr : machine.run s₀ as = .ok s) :
    (∀ before k after, s.log = before ++ .cancelled k :: after → Inserted before k →
      ∀ read expiration, .started k read expiration ∉ after) ∧
    ∀ j id, .deleted j (some id) ∈ s.log → ∀ k, s.timerId k = some id → j = k := by
  obtain ⟨clock,monotonic,numCreated,rfl⟩ := h₀
  have h : Silent s := machine.run_along (P := Silent) (fun u a v hu ha hs => silent_move hu ha (move_of_step hu.inv hs))
    (silent_initial clock monotonic numCreated) hc hr
  exact ⟨fun before k after hl hb => (h.effective before k after hl hb).2,
    fun j id hm k hk => absurd (h.issued k id hk) (h.causes j id hm)⟩

/-- A one-shot that cancels itself in its callback, and is cancelled again after it. -/
theorem cancelled_silent_oneShot : ∃ s, machine.run (initial 10 0 0)
      [.addTimer true 1 8 ⟨false,0,by decide,by decide⟩,.settime,.handleRead,.readTimerFd,.runTimer,.cancel true 1,.endTimers,
        .resetTimer,.resetTimerFd,.cancel true 1,.handleRead,.readTimerFd] = .ok s ∧
    (∀ before k after, s.log = before ++ .cancelled k :: after → Inserted before k →
      ∀ read expiration, .started k read expiration ∉ after) ∧
    ∀ j id, .deleted j (some id) ∈ s.log → ∀ k, s.timerId k = some id → j = k := by
  refine (machine.exists_run ?_).imp fun s hr => ⟨hr,cancelled_silent ⟨10,0,0,rfl⟩ ?_ hr⟩
  · decide +kernel
  · decide +kernel

/-- A repeating timer that cancels itself in its callback with the id it was given:
it is put back, and started again by the next read. -/
theorem cancelSelf_started_again : ∃ s, machine.Reachable s ∧ ∃ before after, s.log = before ++ .cancelled 1 :: after ∧
    Inserted before 1 ∧ .started 1 1 15 ∈ after := by
  obtain ⟨s,hr,hv⟩ := machine.exists_reachable ⟨10,0,0,rfl⟩
    [.addTimer true 1 8 ⟨true,5,by decide,by decide⟩,.settime,.handleRead,.readTimerFd,.runTimer,.cancel true 1,.endTimers,
      .resetTimer,.resetTimerFd,.settime,.advance 5,.handleRead,.readTimerFd,.runTimer] State.log
    (b := [.added 1 8 ⟨true,5,by decide,by decide⟩ 0,.started 1 0 8,.cancelled 1,.restarted 1,.started 1 1 15]) (by decide +kernel)
  refine ⟨s,hr,[.added 1 8 ⟨true,5,by decide,by decide⟩ 0,.started 1 0 8],[.restarted 1,.started 1 1 15],hv,?_,?_⟩
  · decide
  · decide

end Steps

end LinuxServer.Reactor.TimerQueue
