import LinuxServer.Lib.Schedule
import LinuxServer.Reactor.TimerInvariant

/-! Without cancellation each timer runs at the reads that its expiration and its
interval prescribe, and the callbacks of one read run by expiration. -/
namespace LinuxServer.Reactor.TimerQueue
open LinuxServer.Lib

/-- The interval of a repeating timer. -/
def every (i : Interval) : Option Int := if i.positive then some i.micros else none

/-- The reads that ran the timer. -/
def runs (k : Nat) (log : List Event) : List Nat := log.filterMap fun
  | .started j read _ => if j = k then some read else none
  | _ => none

def Label.isCancel : Label → Bool
  | .cancel _ _ | .cancelId _ _ => true
  | _ => false

/-- The reading and the entry that a round of reset is for. -/
def State.resetting (s : State) : Label → Option (Int × Entry)
  | .resetTimer =>
    match s.phase with
    | .resetting now (e :: _) => some (now,e)
    | _ => none
  | _ => none

/-- The step is no Cancel, and restarts no timer beyond 64 bits. -/
def Uncancelled (s : State) (a : Label) : Prop :=
  a.isCancel = false ∧ ∀ x ∈ s.resetting a, ∀ t ∈ s.heap x.2.timer, t.isReapeat = true → Fits (x.1 + t.interval.micros)

instance (s : State) (a : Label) : Decidable (Uncancelled s a) := inferInstanceAs (Decidable (_ ∧ _))

def Phase.reading : Phase → Option Int
  | .idle | .entered _ => none
  | .firing now _ _ | .resetting now _ => some now

section Runs
variable {k : Nat} {log : List Event}

theorem runs_other {a : Event} (h : ∀ read expiration, a ≠ .started k read expiration) : runs k (log ++ [a]) = runs k log := by
  rw [runs,List.filterMap_append]
  cases a with
  | started j read expiration =>
    have hj : j ≠ k := fun hj => h read expiration (hj ▸ rfl)
    simp [runs,hj]
  | _ => simp [runs]

theorem runs_started (read : Nat) (expiration : Int) : runs k (log ++ [.started k read expiration]) = runs k log ++ [read] := by
  simp [runs]

theorem runs_nil (h : ∀ a ∈ log, ¬ a.touches k) : runs k log = [] := by
  refine List.filterMap_eq_nil_iff.mpr fun a ha => ?_
  cases a with
  | started j read expiration => exact if_neg (h _ ha)
  | _ => rfl

end Runs

section Steps
variable {s t : State} {k : Nat} {i : Interval} {l : Lane Int}

/-- The entry is the timer with this number and interval. -/
def Holds (s : State) (k : Nat) (i : Interval) (e : Entry) : Prop :=
  ∃ t, s.heap e.timer = some t ∧ t.created = k ∧ t.interval = i

/-- Where an inserted timer is, and how far it has come on its lane: in the list it
waits for its key; taken for the present read it still has to run, or has run; and it
is gone once it is not due again. -/
inductive Tracked (s : State) (k : Nat) (i : Interval) (l : Lane Int) : Prop
  | listed (e : Entry) (he : e ∈ s.timerList) (hh : Holds s k i e) (hl : l = ⟨some e.when,runs k s.log⟩)
  | due (now : Int) (ran rest : List Entry) (e : Entry) (hp : s.phase = .firing now ran rest) (he : e ∈ rest)
      (hh : Holds s k i e) (hl : l = ⟨(every i).map (now + ·),runs k s.log ++ [s.reads.length - 1]⟩)
  | ran (now : Int) (e : Entry) (hp : s.phase.reading = some now) (he : e ∈ s.phase.ran) (hh : Holds s k i e)
      (hl : l = ⟨(every i).map (now + ·),runs k s.log⟩)
  | gone (hg : ∀ p t, s.heap p = some t → t.created ≠ k) (hl : l = ⟨none,runs k s.log⟩)

/-- What neither moves the timer nor runs it. -/
theorem Tracked.frame (h : Tracked s k i l) (hlog : runs k t.log = runs k s.log) (hreads : t.reads = s.reads)
    (hphase : t.phase = s.phase) (hlist : ∀ e ∈ s.timerList, e ∈ t.timerList)
    (hheap : ∀ p u, s.heap p = some u → t.heap p = some u) (hback : ∀ p u, t.heap p = some u → u.created = k → s.heap p = some u) :
    Tracked t k i l := by
  have hkeep : ∀ e, Holds s k i e → Holds t k i e := by
    rintro e ⟨u,hu,h⟩
    exact ⟨u,hheap _ u hu,h⟩
  cases h with
  | listed e he hh hl => exact .listed e (hlist e he) (hkeep e hh) (hlog ▸ hl)
  | due now ran rest e hp he hh hl => exact .due now ran rest e (hphase ▸ hp) he (hkeep e hh) (by rw [hlog,hreads]; exact hl)
  | ran now e hp he hh hl => exact .ran now e (hphase ▸ hp) (hphase ▸ he) (hkeep e hh) (hlog ▸ hl)
  | gone hg hl => exact .gone (fun p u hu hk => hg p u (hback p u hu hk) hk) (hlog ▸ hl)

/-- The timer at another address has another number. -/
theorem Holds.created_ne (hi : Inv s) {e f : Entry} {u : Timer} (hf : Holds s k i f) (hu : s.heap e.timer = some u)
    (hne : f.timer ≠ e.timer) : u.created ≠ k := fun hk => by
  obtain ⟨v,hv,hvk,-⟩ := hf
  exact hne (hi.recorded.distinct _ _ v u hv hu (hvk.trans hk.symm))

theorem Inv.batch_nodup (hi : Inv s) : (s.phase.batch.map Entry.timer).Nodup :=
  (List.nodup_append.mp (List.nodup_append.mp hi.indexed.nodup).1).2.1

private theorem holds_update {p : Addr} {e : Entry} (x : Option Timer) (h : Holds s k i e) (hne : e.timer ≠ p)
    (ht : t.heap = Function.update s.heap p x) : Holds t k i e := by
  obtain ⟨u,hu,hk⟩ := h
  exact ⟨u,by rw [ht,Function.update_of_ne hne,hu],hk⟩

/-- A read takes the timers that are due, and leaves the others where they are. -/
private theorem tracked_readTimerFd (hi : Inv s) (h : Tracked s k i l) {now : Int} (hp : s.phase = .entered now)
    (hphase : t.phase = .firing now [] (s.timerList.before (sentry now))) (hheap : t.heap = s.heap)
    (hlist : t.timerList = s.timerList.onward (sentry now)) (hreads : t.reads = s.reads ++ [now]) (hlog : t.log = s.log) :
    Tracked t k i (l.read (every i) s.reads.length now) := by
  have hkeep : ∀ e, Holds s k i e → Holds t k i e := by
    rintro e ⟨u,hu,h⟩
    exact ⟨u,hheap ▸ hu,h⟩
  cases h with
  | listed e he hh hl =>
    have hb : e.timer < uintptrMax := by
      obtain ⟨u,hu,-⟩ := hh
      exact hi.indexed.bounded _ u hu
    rcases le_or_gt e.when now with hw | hw
    · rw [Lane.read_due (every i) (by rw [hl]) hw,hl]
      refine .due now [] _ e hphase ((OrderedSet.mem_before _ _ _).mpr ⟨he,(lt_sentry hb).mpr hw⟩) (hkeep e hh) ?_
      rw [hreads,List.length_append,hlog]
      rfl
    · rw [Lane.read_early (every i) (by rw [hl]) hw,hl]
      exact .listed e (hlist ▸ (OrderedSet.mem_onward _ _ _).mpr ⟨he,(sentry_le hb).mpr hw⟩) (hkeep e hh) (by rw [hlog])
  | due now' ran rest e hp' => cases hp.symm.trans hp'
  | ran now' e hp' => rw [hp] at hp'; cases hp'
  | gone hg hl =>
    rw [Lane.read_over (every i) (by rw [hl]),hl]
    exact .gone (hheap ▸ hg) (by rw [hlog])

/-- A callback runs its timer on its lane, and no other timer. -/
private theorem tracked_runTimer (hi : Inv s) (h : Tracked s k i l) {now : Int} {ran rest : List Entry} {e : Entry} {u : Timer}
    (hp : s.phase = .firing now ran (e :: rest)) (hu : s.heap e.timer = some u)
    (ht : t = { s with
      phase := .firing now (ran ++ [e]) rest
      log := s.log ++ [.started u.created (s.reads.length - 1) u.expiration] }) : Tracked t k i l := by
  subst ht
  have hnd := hi.batch_nodup
  rw [hp,Phase.batch,List.map_append,List.map_cons] at hnd
  have hran : ∀ f ∈ ran, f.timer ≠ e.timer := fun f hf =>
    (List.nodup_append.mp hnd).2.2 f.timer (List.mem_map_of_mem hf) e.timer List.mem_cons_self
  have hrest : ∀ f ∈ rest, f.timer ≠ e.timer := fun f hf heq =>
    (List.nodup_cons.mp (List.nodup_append.mp hnd).2.1).1 (heq ▸ List.mem_map_of_mem hf)
  have hother : u.created ≠ k →
      runs k (s.log ++ [.started u.created (s.reads.length - 1) u.expiration]) = runs k s.log := fun hne =>
    runs_other fun _ _ heq => hne (Event.started.inj heq).1
  have hbatch := Phase.mem_batch_firing hp
  cases h with
  | listed f hf hh hl =>
    have hne := hh.created_ne hi hu fun heq => hi.listed_ne hf e hbatch heq.symm
    exact .listed f hf hh (by rw [hother hne]; exact hl)
  | due now' ran' rest' f hp' hf hh hl =>
    cases hp.symm.trans hp'
    rcases List.mem_cons.mp hf with rfl | hf
    · obtain ⟨v,hv,rfl,hvi⟩ := hh
      cases hu.symm.trans hv
      refine .ran now f rfl (List.mem_append_right _ List.mem_cons_self) ⟨u,hu,rfl,hvi⟩ ?_
      rw [runs_started]
      exact hl
    · have hne := hh.created_ne hi hu (hrest f hf)
      exact .due now (ran ++ [e]) rest f rfl hf hh (by rw [hother hne]; exact hl)
  | ran now' f hp' hf hh hl =>
    rw [hp] at hp' hf
    cases hp'
    have hne := hh.created_ne hi hu (hran f hf)
    exact .ran now f rfl (List.mem_append_left _ hf) hh (by rw [hother hne]; exact hl)
  | gone hg hl => exact .gone hg (by rw [hother (hg _ u hu)]; exact hl)

/-- A round of reset for one timer: the others stay where they are, and what becomes
of this one is up to the caller. -/
private theorem tracked_reset (hi : Inv s) (h : Tracked s k i l) {now : Int} {rest : List Entry} {e : Entry} {u : Timer}
    (hp : s.phase = .resetting now (e :: rest)) (hu : s.heap e.timer = some u) {x : Option Timer}
    (hx : ∀ v, x = some v → v.created = u.created) (hphase : t.phase = .resetting now rest)
    (hheap : t.heap = Function.update s.heap e.timer x) (hlist : ∀ f ∈ s.timerList, f ∈ t.timerList) (hlog : runs k t.log = runs k s.log)
    (hself : u.created = k → u.interval = i → l = ⟨(every i).map (now + ·),runs k s.log⟩ → Tracked t k i l) : Tracked t k i l := by
  have hbatch := Phase.mem_batch_resetting hp
  cases h with
  | listed f hf hh hl =>
    exact .listed f (hlist f hf) (holds_update x hh (fun heq => hi.listed_ne hf e hbatch heq.symm) hheap) (hlog ▸ hl)
  | due now' ran' rest' f hp' => cases hp.symm.trans hp'
  | ran now' f hp' hf hh hl =>
    rw [hp] at hp' hf
    cases hp'
    rcases List.mem_cons.mp hf with rfl | hf
    · obtain ⟨v,hv,hvk,hvi⟩ := hh
      cases hu.symm.trans hv
      exact hself hvk hvi hl
    · exact .ran now f (by rw [hphase]; rfl) (by rw [hphase]; exact hf) (holds_update x hh (hi.batch_ne hp f hf) hheap) (hlog ▸ hl)
  | gone hg hl =>
    refine .gone (fun p v hv => ?_) (hlog ▸ hl)
    rw [hheap,Function.update_apply] at hv
    split at hv
    · rw [hx v hv]
      exact hg _ u hu
    · exact hg p v hv

/-- Timers of add functors have no history, the inserted ones are on their lanes, and
no Cancel is on its way. -/
structure Scheduled (s : State) : Prop where
  inv : Inv s
  functors : ∀ id of, .cancelInLoop id of ∉ s.functors
  unmarked : ∀ a, a ∉ s.cancelTimers
  unused : ∀ p ∈ adding s.functors, ∀ u, s.heap p = some u → ∀ a ∈ s.log, ¬ a.touches u.created
  since : ∀ k expiration i start, .added k expiration i start ∈ s.log → start ≤ s.reads.length
  tracked : ∀ k expiration i start, .added k expiration i start ∈ s.log →
    Tracked s k i (Lane.after (every i) expiration start s.reads)

theorem scheduled_initial (clock monotonic : Int) (numCreated : Nat) : Scheduled (initial clock monotonic numCreated) :=
  ⟨inv_initial clock monotonic numCreated,fun _ _ h => (by cases h),OrderedSet.not_mem_empty,fun _ h => (by cases h),
    fun _ _ _ _ h => (by cases h),fun _ _ _ _ h => (by cases h)⟩

/-- Add functors that stay, with their timers, while the history gets no event of them. -/
private theorem Scheduled.unused_of (h : Scheduled s) {fs : List Functor} {heap : Addr → Option Timer} {log : List Event}
    (hsub : ∀ p ∈ adding fs, p ∈ adding s.functors) (hheap : ∀ p ∈ adding fs, heap p = s.heap p)
    (hlog : ∀ a ∈ log, a ∈ s.log ∨ ∀ p ∈ adding fs, ∀ u, s.heap p = some u → ¬ a.touches u.created) :
    ∀ p ∈ adding fs, ∀ u, heap p = some u → ∀ a ∈ log, ¬ a.touches u.created := by
  intro p hp u hu a ha
  rw [hheap p hp] at hu
  rcases hlog a ha with ha | ha
  · exact h.unused p (hsub p hp) u hu a ha
  · exact ha p hp u hu

/-- A timer of the batch is not the one of an add functor. -/
private theorem Inv.adding_ne (hi : Inv s) {e : Entry} (he : e ∈ s.phase.batch) : ∀ p ∈ adding s.functors, p ≠ e.timer :=
  fun p hp => (List.nodup_append.mp (List.nodup_append.mp hi.indexed.nodup).1).2.2 p hp e.timer (List.mem_map_of_mem he)

/-- After an event of a batch timer, the add functors are still without history. -/
private theorem Scheduled.unused_batch (h : Scheduled s) {e : Entry} {u : Timer} (he : e ∈ s.phase.batch) (hu : s.heap e.timer = some u)
    {heap : Addr → Option Timer} (hheap : ∀ p, p ≠ e.timer → heap p = s.heap p) {a : Event} (ha : ∀ j, a.touches j → u.created = j) :
    ∀ p ∈ adding s.functors, ∀ v, heap p = some v → ∀ b ∈ s.log ++ [a], ¬ b.touches v.created := by
  refine h.unused_of (fun _ hp => hp) (fun p hp => hheap p (h.inv.adding_ne he p hp)) fun b hb => ?_
  refine (List.mem_append.mp hb).imp_right fun hb p hp v hv htouch => ?_
  rw [List.mem_singleton.mp hb] at htouch
  exact h.inv.adding_ne he p hp (h.inv.recorded.distinct _ _ v u hv hu (ha _ htouch).symm)

/-- An event that inserts nothing new leaves the insertions and their places. -/
private theorem inserted_append {P : Nat → Int → Interval → Nat → Prop} {log : List Event} {a : Event}
    (h : ∀ k expiration i start, .added k expiration i start ∈ log → P k expiration i start)
    (ha : ∀ k expiration i start, a = .added k expiration i start → P k expiration i start) :
    ∀ k expiration i start, .added k expiration i start ∈ log ++ [a] → P k expiration i start :=
  fun k expiration i start hm => (List.mem_append.mp hm).elim (h k expiration i start) fun hm =>
    ha k expiration i start (List.mem_singleton.mp hm).symm

/-- A timer without history that is inserted starts on its lane. -/
private theorem scheduled_inserted {p : Addr} {x : Timer} (h : Scheduled s) (hi : Inv t) (hfunctors : ∀ f ∈ t.functors, f ∈ s.functors)
    (hsub : ∀ q ∈ adding t.functors, q ∈ adding s.functors ∧ q ≠ p) (hmarks : t.cancelTimers = s.cancelTimers)
    (hfresh : ∀ a ∈ s.log, ¬ a.touches x.created)
    (hnew : ∀ q u, s.heap q = some u → q ≠ p → u.created ≠ x.created)
    (hlog : t.log = s.log ++ [.added x.created x.expiration x.interval s.reads.length])
    (hreads : t.reads = s.reads) (hphase : t.phase = s.phase) (hlist : ∀ e ∈ s.timerList, e ∈ t.timerList)
    (hmem : toLex (x.expiration,p) ∈ t.timerList) (hself : t.heap p = some x) (hold : ∀ u, s.heap p = some u → u = x)
    (hheap : ∀ q, q ≠ p → t.heap q = s.heap q) : Scheduled t := by
  refine ⟨hi,fun id of hm => h.functors id of (hfunctors _ hm),hmarks ▸ h.unmarked,?_,?_,?_⟩
  · rw [hlog]
    refine h.unused_of (fun q hq => (hsub q hq).1) (fun q hq => hheap q (hsub q hq).2) fun a ha => ?_
    refine (List.mem_append.mp ha).imp_right fun ha q hq u hu htouch => ?_
    rw [List.mem_singleton.mp ha] at htouch
    exact hnew q u hu (hsub q hq).2 htouch.symm
  · rw [hlog,hreads]
    refine inserted_append h.since fun k expiration i start heq => ?_
    cases heq
    exact le_rfl
  · rw [hlog,hreads]
    refine inserted_append (fun k expiration i start hm => ?_) fun k expiration i start heq => ?_
    · have hk : x.created ≠ k := fun heq => hfresh _ hm heq.symm
      refine (h.tracked k expiration i start hm).frame ?_ hreads hphase hlist (fun q u hu => ?_) fun q u hu huk => ?_
      · rw [hlog]
        exact runs_other fun _ _ => Event.noConfusion
      · by_cases hq : q = p
        · rw [hq,hself,hold u (hq ▸ hu)]
        · rw [hheap q hq,hu]
      · by_cases hq : q = p
        · rw [hq,hself] at hu
          cases hu
          exact absurd huk hk
        · rw [← hheap q hq,hu]
    · cases heq
      refine .listed _ hmem ⟨x,hself,rfl,rfl⟩ ?_
      rw [Lane.after_start _ _ le_rfl,hlog,runs_other fun _ _ => Event.noConfusion,runs_nil hfresh]
      rfl

theorem scheduled_move {a : Label} (h : Scheduled s) (hc : Uncancelled s a) (hm : Move s a t) : Scheduled t := by
  have hi := inv_move h.inv hm
  have hne : ∀ {p : Addr}, s.heap p = none → ∀ q u, s.heap q = some u → q ≠ p := fun hp q u hu heq => by
    rw [heq,hp] at hu
    cases hu
  have hfresh : ∀ a ∈ s.log, ¬ a.touches (s.numCreated + 1) := fun a ha htouch =>
    absurd (h.inv.recorded.logged a ha _ htouch) (by omega)
  have hnew : ∀ q u, s.heap q = some u → u.created ≠ s.numCreated + 1 := fun q u hu heq =>
    absurd (h.inv.recorded.created q u hu).2 (by omega)
  have halive : ∀ p ∈ adding s.functors, ∃ u, s.heap p = some u := fun p hp =>
    h.inv.indexed.alive (List.mem_append_left _ hp)
  cases hm with
  | queueTimer p expiration dInterval hp hb =>
    refine ⟨hi,fun id of hm => ?_,h.unmarked,fun q hq u hu a ha => ?_,h.since,fun k e i start hm => ?_⟩
    · rcases List.mem_append.mp hm with hm | hm
      · exact h.functors id of hm
      · cases List.mem_singleton.mp hm
    · change q ∈ adding (s.functors ++ [.addTimerInLoop p]) at hq
      change Function.update s.heap p _ q = some u at hu
      rw [adding_append] at hq
      rcases List.mem_append.mp hq with hq | hq
      · obtain ⟨v,hv⟩ := halive q hq
        rw [Function.update_of_ne (hne hp q v hv)] at hu
        exact h.unused q hq u hu a ha
      · obtain rfl := List.mem_singleton.mp hq
        rw [Function.update_self] at hu
        cases hu
        exact hfresh a ha
    · refine (h.tracked k e i start hm).frame rfl rfl rfl (fun _ he => he) (fun q u hu => ?_) fun q u hu huk => ?_
      · exact (Function.update_of_ne (hne hp q u hu) ..).trans hu
      · change Function.update s.heap p _ q = some u at hu
        rw [Function.update_apply] at hu
        split at hu
        · cases hu
          exact absurd huk (fun hk => hfresh _ hm hk.symm)
        · exact hu
  | addTimer p expiration dInterval hp hb =>
    refine scheduled_inserted (p := p) (x := ⟨expiration,dInterval,s.numCreated + 1⟩) h hi (fun _ hf => hf) (fun q hq => ⟨hq,?_⟩)
      rfl hfresh (fun q u hu _ => hnew q u hu) rfl rfl rfl (fun _ he => (OrderedSet.mem_insert _ _ _).mpr (.inr he))
      ((OrderedSet.mem_insert _ _ _).mpr (.inl rfl)) (Function.update_self ..) (fun u hu => by cases hp.symm.trans hu)
      fun q hq => Function.update_of_ne hq ..
    obtain ⟨u,hu⟩ := halive q hq
    exact hne hp q u hu
  | runAdd p rest u hf hu hidle =>
    have hadd : adding s.functors = p :: adding rest := by rw [hf]; rfl
    have hnd : (p :: adding rest).Nodup := hadd ▸ (List.nodup_append.mp (List.nodup_append.mp h.inv.indexed.nodup).1).1
    exact scheduled_inserted (p := p) (x := u) h hi (fun f hm => by rw [hf]; exact List.mem_cons_of_mem _ hm)
      (fun q hq => ⟨by rw [hadd]; exact List.mem_cons_of_mem _ hq,fun heq => (List.nodup_cons.mp hnd).1 (heq ▸ hq)⟩) rfl
      (h.unused p (by rw [hadd]; exact List.mem_cons_self) u hu)
      (fun q v hv hq heq => hq (h.inv.recorded.distinct q p v u hv hu heq)) rfl rfl rfl
      (fun _ he => (OrderedSet.mem_insert _ _ _).mpr (.inr he)) ((OrderedSet.mem_insert _ _ _).mpr (.inl rfl)) hu
      (fun v hv => Option.some.inj (hv.symm.trans hu)) fun q hq => rfl
  | queueCancel _ id of ha | cancel _ id of _ ha ht =>
    have hcancel := hc.1
    cases a <;> first | exact ha.elim | cases hcancel
  | runCancel id of rest _ hf hidle ht => exact absurd (by rw [hf]; exact List.mem_cons_self) (h.functors id of)
  | otherQueue | setClock | advance | timerFdExpires | settime =>
    exact ⟨hi,h.functors,h.unmarked,h.unused,h.since,fun k e i start hm =>
      (h.tracked k e i start hm).frame rfl rfl rfl (fun _ he => he) (fun _ _ hu => hu) fun _ _ hu _ => hu⟩
  | handleRead hidle =>
    refine ⟨hi,h.functors,h.unmarked,h.unused,h.since,fun k e i start hm => ?_⟩
    cases h.tracked k e i start hm with
    | listed f hf hh hl => exact .listed f hf hh hl
    | due now ran rest f hp => cases hidle.symm.trans hp
    | ran now f hp =>
      rw [hidle] at hp
      cases hp
    | gone hg hl => exact .gone hg hl
  | readTimerFd now active hp ha =>
    refine ⟨hi,h.functors,OrderedSet.not_mem_empty,h.unused,fun k e i start hm => ?_,fun k e i start hm => ?_⟩
    · rw [List.length_append]
      exact Nat.le_add_right_of_le (h.since k e i start hm)
    · rw [Lane.after_append _ _ _ (h.since k e i start hm)]
      exact tracked_readTimerFd h.inv (h.tracked k e i start hm) hp rfl rfl rfl rfl rfl
  | runTimer now ran e rest u hp hu hw =>
    have he := Phase.mem_batch_firing hp
    refine ⟨hi,h.functors,h.unmarked,h.unused_batch he hu (fun _ _ => rfl) fun _ hj => hj,
      inserted_append h.since fun _ _ _ _ => Event.noConfusion,inserted_append (fun k x i start hm => ?_) fun _ _ _ _ => Event.noConfusion⟩
    exact tracked_runTimer h.inv (h.tracked k x i start hm) hp hu rfl
  | endTimers now ran hp =>
    refine ⟨hi,h.functors,h.unmarked,h.unused,h.since,fun k e i start hm => ?_⟩
    cases h.tracked k e i start hm with
    | listed f hf hh hl => exact .listed f hf hh hl
    | due now' ran' rest' f hp' hf =>
      cases hp.symm.trans hp'
      cases hf
    | ran now' f hp' hf hh hl =>
      rw [hp] at hp' hf
      exact .ran now' f hp' hf hh hl
    | gone hg hl => exact .gone hg hl
  | restart now e rest u hp hu hw hr =>
    have he := Phase.mem_batch_resetting hp
    have hruns : ∀ k, runs k (s.log ++ [.restarted u.created]) = runs k s.log := fun k =>
      runs_other fun _ _ => Event.noConfusion
    have hexp : (u.restart now).expiration = now + u.interval.micros := by
      have hres : s.resetting .resetTimer = some (now,e) := by rw [State.resetting,hp]
      rw [Timer.restart,if_pos hr]
      exact int64_eq (hc.2 (now,e) hres u hu hr)
    refine ⟨hi,h.functors,h.unmarked,h.unused_batch he hu (fun p hp => Function.update_of_ne hp ..) fun _ hj => hj,
      inserted_append h.since fun _ _ _ _ => Event.noConfusion,inserted_append (fun k x i start hm => ?_) fun _ _ _ _ => Event.noConfusion⟩
    refine tracked_reset h.inv (h.tracked k x i start hm) hp hu (x := some (u.restart now)) (fun v hv => ?_) rfl rfl
      (fun _ hf => (OrderedSet.mem_insert _ _ _).mpr (.inr hf)) (hruns k) fun hk hint hl => ?_
    · cases hv
      rfl
    · refine .listed _ ((OrderedSet.mem_insert _ _ _).mpr (.inl rfl)) ⟨u.restart now,Function.update_self ..,hk,hint⟩ ?_
      have hev : every i = some u.interval.micros := hint ▸ if_pos hr
      rw [hl,hev,Entry.when_mk,hexp]
      exact Lane.ext rfl (hruns k).symm
  | retire now e rest u hp hu hw hr =>
    have he := Phase.mem_batch_resetting hp
    have hone : u.isReapeat = false := Bool.eq_false_iff.mpr fun hrep => h.unmarked _ (hr hrep)
    have hruns : ∀ k c, runs k (s.log ++ [.deleted u.created c]) = runs k s.log := fun k c =>
      runs_other fun _ _ => Event.noConfusion
    refine ⟨hi,h.functors,h.unmarked,h.unused_batch he hu (fun p hp => Function.update_of_ne hp ..) fun _ hj => hj,
      inserted_append h.since fun _ _ _ _ => Event.noConfusion,inserted_append (fun k x i start hm => ?_) fun _ _ _ _ => Event.noConfusion⟩
    refine tracked_reset h.inv (h.tracked k x i start hm) hp hu (x := none) (fun _ hv => (by cases hv)) rfl rfl
      (fun _ hf => hf) (hruns k _) fun hk hint hl => ?_
    refine .gone (fun p v hv hvk => ?_) ?_
    · change Function.update s.heap e.timer none p = some v at hv
      rw [Function.update_apply] at hv
      split at hv
      · cases hv
      · rename_i hpe
        exact hpe (h.inv.recorded.distinct _ _ v u hv hu (hvk.trans hk.symm))
    · have hev : every i = none := hint ▸ if_neg (Bool.eq_false_iff.mp hone)
      rw [hl,hev]
      exact Lane.ext rfl (hruns k _).symm
  | resetTimerFd now hp =>
    refine ⟨hi,h.functors,h.unmarked,h.unused,h.since,fun k e i start hm => ?_⟩
    cases h.tracked k e i start hm with
    | listed f hf hh hl => exact .listed f hf hh hl
    | due now' ran' rest' f hp' => cases hp.symm.trans hp'
    | ran now' f hp' hf =>
      rw [hp] at hf
      cases hf
    | gone hg hl => exact .gone hg hl

/-- Two callbacks of one read are in the order of their expirations. -/
def InOrder (a b : Event) : Prop :=
  ∀ j k read x y, a = .started j read x → b = .started k read y → x ≤ y

/-- The timer has been inserted by addTimerInLoop. -/
def Known (log : List Event) (k : Nat) : Prop := ∃ expiration i start, .added k expiration i start ∈ log

theorem Known.mono {log log' : List Event} (h : Known log k) (hl : log ⊆ log') : Known log' k := by
  obtain ⟨expiration,i,start,hm⟩ := h
  exact ⟨expiration,i,start,hl hm⟩

/-- What was run and what is left of the batch are in order, and all of it was inserted. -/
structure Ordered (s : State) : Prop where
  inv : Inv s
  log : s.log.Pairwise InOrder
  past : ∀ j read x, .started j read x ∈ s.log → read < s.reads.length
  reading : ∀ now ran rest, s.phase = .firing now ran rest → 0 < s.reads.length
  sorted : ∀ now ran rest, s.phase = .firing now ran rest → rest.Pairwise fun e f => e.when ≤ f.when
  next : ∀ now ran rest, s.phase = .firing now ran rest →
    ∀ j x, .started j (s.reads.length - 1) x ∈ s.log → ∀ e ∈ rest, x ≤ e.when
  known : ∀ e, e ∈ s.timerList ∨ e ∈ s.phase.batch → ∀ u, s.heap e.timer = some u → Known s.log u.created
  started : ∀ j read x, .started j read x ∈ s.log → Known s.log j

theorem ordered_initial (clock monotonic : Int) (numCreated : Nat) : Ordered (initial clock monotonic numCreated) :=
  ⟨inv_initial clock monotonic numCreated,.nil,fun _ _ _ h => (by cases h),fun _ _ _ h => (by cases h),fun _ _ _ h => (by cases h),
    fun _ _ _ h => (by cases h),fun _ _ _ h => (by cases h),fun _ _ _ h => (by cases h)⟩

/-- Events that start no callback, in a batch that is as before or over. -/
private theorem Ordered.quiet (h : Ordered s) (hi : Inv t) (es : List Event) (hlog : t.log = s.log ++ es)
    (hes : ∀ j read x, .started j read x ∉ es) (hreads : t.reads = s.reads)
    (hphase : ∀ now ran rest, t.phase = .firing now ran rest → s.phase = .firing now ran rest)
    (hknown : ∀ e, e ∈ t.timerList ∨ e ∈ t.phase.batch → ∀ u, t.heap e.timer = some u → Known t.log u.created) : Ordered t := by
  have hold : ∀ {j read x}, .started j read x ∈ t.log → .started j read x ∈ s.log := fun hm =>
    (List.mem_append.mp (hlog ▸ hm)).resolve_right (hes _ _ _)
  refine ⟨hi,?_,fun j read x hm => hreads ▸ h.past j read x (hold hm),fun now ran rest hp => hreads ▸ h.reading now ran rest (hphase _ _ _ hp),
    fun now ran rest hp => h.sorted now ran rest (hphase _ _ _ hp),fun now ran rest hp j x hm => ?_,hknown,fun j read x hm => ?_⟩
  · rw [hlog]
    refine List.pairwise_append.mpr ⟨h.log,List.pairwise_of_forall_mem_list fun a ha b _ j k read x y he _ => ?_,
      fun a _ b hb j k read x y _ he => ?_⟩
    · exact absurd (he ▸ ha) (hes _ _ _)
    · exact absurd (he ▸ hb) (hes _ _ _)
  · rw [hreads] at hm
    exact h.next now ran rest (hphase _ _ _ hp) j x (hold hm)
  · exact (h.started j read x (hold hm)).mono (hlog ▸ List.subset_append_left _ _)

private theorem ordered_cancelled {id : TimerId} {of : Option Nat} (h : Ordered s) (hc : Cancelled s id of t) : Ordered t := by
  have hi := inv_cancelled h.inv hc
  have hof : ∀ j read x, .started j read x ∉ of.toList.map Event.cancelled := fun j read x hm => by
    obtain ⟨_,_,he⟩ := List.mem_map.mp hm
    cases he
  have hmono : ∀ es, ∀ e, e ∈ s.timerList ∨ e ∈ s.phase.batch → ∀ u, s.heap e.timer = some u → Known (s.log ++ es) u.created :=
    fun es e he u hu => (h.known e he u hu).mono (List.subset_append_left _ _)
  cases hc with
  | removed v hv hseq hlist =>
    refine h.quiet hi ([.deleted v.created (some id)] ++ of.toList.map .cancelled) (List.append_assoc ..)
      (fun j read x hm => ?_) rfl (fun _ _ _ hp => hp) fun e he u hu => ?_
    · exact (List.mem_append.mp hm).elim (fun hm => by cases List.mem_singleton.mp hm) (hof j read x)
    · change Function.update s.heap id.pTimer none e.timer = some u at hu
      rw [Function.update_apply] at hu
      split at hu
      · cases hu
      · rw [List.append_assoc]
        exact hmono _ e (he.imp_left fun he => ((OrderedSet.mem_erase _ _ _).mp he).2) u hu
  | marked | ignored => exact h.quiet hi _ rfl hof rfl (fun _ _ _ hp => hp) (hmono _)

theorem ordered_move {a : Label} (h : Ordered s) (hm : Move s a t) : Ordered t := by
  have hi := inv_move h.inv hm
  have hlive : ∀ e, e ∈ s.timerList ∨ e ∈ s.phase.batch → ∃ u, s.heap e.timer = some u := fun e he =>
    he.elim (fun he => (h.inv.indexed.keyed e he).imp fun _ hu => hu.1) fun he => (h.inv.batched e he).imp fun _ hu => hu.1
  cases hm with
  | queueTimer p expiration dInterval hp hb =>
    refine h.quiet hi [] (List.append_nil _).symm (fun _ _ _ => List.not_mem_nil) rfl (fun _ _ _ hp => hp) fun e he u hu => ?_
    obtain ⟨v,hv⟩ := hlive e he
    have hne : e.timer ≠ p := fun heq => by cases (heq ▸ hp).symm.trans hv
    exact h.known e he u ((Function.update_of_ne hne ..).symm.trans hu)
  | addTimer p expiration dInterval hp hb =>
    refine h.quiet hi _ rfl (fun _ _ _ hm => by cases List.mem_singleton.mp hm) rfl (fun _ _ _ hp => hp) fun e he u hu => ?_
    change Function.update s.heap p _ e.timer = some u at hu
    by_cases hne : e.timer = p
    · rw [hne,Function.update_self] at hu
      cases hu
      exact ⟨expiration,dInterval,s.reads.length,List.mem_append_right _ List.mem_cons_self⟩
    · rw [Function.update_of_ne hne] at hu
      refine (h.known e (he.imp_left fun he => ?_) u hu).mono (List.subset_append_left _ _)
      exact ((OrderedSet.mem_insert _ _ _).mp he).resolve_left fun heq => hne (heq ▸ rfl)
  | runAdd p rest v hf hv hidle =>
    refine h.quiet hi _ rfl (fun _ _ _ hm => by cases List.mem_singleton.mp hm) rfl (fun _ _ _ hp => hp) fun e he u hu => ?_
    change s.heap e.timer = some u at hu
    by_cases hne : e.timer = p
    · cases hv.symm.trans (hne ▸ hu)
      exact ⟨v.expiration,v.interval,s.reads.length,List.mem_append_right _ List.mem_cons_self⟩
    · refine (h.known e (he.imp_left fun he => ?_) u hu).mono (List.subset_append_left _ _)
      exact ((OrderedSet.mem_insert _ _ _).mp he).resolve_left fun heq => hne (heq ▸ rfl)
  | cancel _ id of _ ha ht => exact ordered_cancelled h ht
  | runCancel id of rest _ hf hidle ht =>
    exact ordered_cancelled (s := { s with functors := rest })
      ⟨h.inv.popped hf,h.log,h.past,h.reading,h.sorted,h.next,h.known,h.started⟩ ht
  | queueCancel | otherQueue | setClock | advance | timerFdExpires | settime =>
    exact ⟨hi,h.log,h.past,h.reading,h.sorted,h.next,h.known,h.started⟩
  | handleRead hidle =>
    refine h.quiet hi [] (List.append_nil _).symm (fun _ _ _ => List.not_mem_nil) rfl (fun _ _ _ hp => by cases hp) fun e he u hu => ?_
    exact h.known e (he.imp_right fun he => by cases he) u hu
  | readTimerFd clock active hp' ha =>
    have hlen : (s.reads ++ [clock]).length = s.reads.length + 1 := by rw [List.length_append,List.length_singleton]
    refine ⟨hi,h.log,fun j read x hm => ?_,fun _ _ _ _ => ?_,fun now ran rest hp => ?_,fun now ran rest hp j x hm e he => ?_,
      fun e he u hu => ?_,h.started⟩
    · exact (h.past j read x hm).trans (by rw [hlen]; exact Nat.lt_succ_self _)
    · rw [hlen]
      exact Nat.succ_pos _
    · cases hp
      exact (OrderedSet.before_sorted _ _).imp fun hlt => when_le hlt.le
    · change .started j ((s.reads ++ [clock]).length - 1) x ∈ s.log at hm
      rw [hlen] at hm
      exact absurd (h.past j _ x hm) (Nat.lt_irrefl _)
    · refine h.known e (.inl ?_) u hu
      rcases he with he | he
      · exact ((OrderedSet.mem_onward _ _ _).mp he).1
      · exact ((OrderedSet.mem_before _ _ _).mp he).1
  | runTimer now ran e rest u hp hu hw =>
    have hb : s.phase.batch = ran ++ [e] ++ rest := by rw [hp,Phase.batch,List.append_cons]
    have hbatch := Phase.mem_batch_firing hp
    obtain ⟨hle,hsorted⟩ := List.pairwise_cons.mp (h.sorted now ran _ hp)
    have hmono : ∀ j, Known s.log j → Known (s.log ++ [.started u.created (s.reads.length - 1) u.expiration]) j :=
      fun j hk => hk.mono (List.subset_append_left _ _)
    refine ⟨hi,?_,fun j read x hm => ?_,fun _ _ _ _ => h.reading now ran _ hp,fun now' ran' rest' hp' => ?_,
      fun now' ran' rest' hp' j x hm f hf => ?_,fun f hf v hv => hmono _ (h.known f (hf.imp_right fun hf => hb ▸ hf) v hv),
      fun j read x hm => ?_⟩
    · refine List.pairwise_append.mpr ⟨h.log,List.pairwise_singleton _ _,fun a ha b hb j k read x y hx hy => ?_⟩
      cases (List.mem_singleton.mp hb).symm.trans hy
      rw [hw]
      exact h.next now ran _ hp j x (hx ▸ ha) e List.mem_cons_self
    · rcases List.mem_append.mp hm with hm | hm
      · exact h.past j read x hm
      · cases List.mem_singleton.mp hm
        exact Nat.sub_lt (h.reading now ran _ hp) Nat.one_pos
    · cases hp'
      exact hsorted
    · cases hp'
      rcases List.mem_append.mp hm with hm | hm
      · exact h.next now ran _ hp j x hm f (List.mem_cons_of_mem _ hf)
      · cases List.mem_singleton.mp hm
        rw [hw]
        exact hle f hf
    · rcases List.mem_append.mp hm with hm | hm
      · exact hmono j (h.started j read x hm)
      · cases List.mem_singleton.mp hm
        exact hmono _ (h.known e (.inr hbatch) u hu)
  | endTimers now ran hp =>
    refine h.quiet hi [] (List.append_nil _).symm (fun _ _ _ => List.not_mem_nil) rfl (fun _ _ _ hp => by cases hp) fun e he u hu => ?_
    exact h.known e (he.imp_right fun he => by rw [hp]; exact List.mem_append_left _ he) u hu
  | restart now e rest v hp hv hw hr =>
    refine h.quiet hi _ rfl (fun _ _ _ hm => by cases List.mem_singleton.mp hm) rfl (fun _ _ _ hp => by cases hp) fun f hf u hu => ?_
    have hbatch := Phase.mem_batch_resetting hp
    change Function.update s.heap e.timer (some (v.restart now)) f.timer = some u at hu
    by_cases hne : f.timer = e.timer
    · rw [hne,Function.update_self] at hu
      cases hu
      exact (h.known e (.inr hbatch) v hv).mono (List.subset_append_left _ _)
    · rw [Function.update_of_ne hne] at hu
      refine (h.known f ?_ u hu).mono (List.subset_append_left _ _)
      rcases hf with hf | hf
      · exact .inl (((OrderedSet.mem_insert _ _ _).mp hf).resolve_left fun heq => hne (heq ▸ rfl))
      · exact .inr (by rw [hp]; exact List.mem_cons_of_mem _ hf)
  | retire now e rest v hp hv hw hr =>
    refine h.quiet hi _ rfl (fun _ _ _ hm => by cases List.mem_singleton.mp hm) rfl (fun _ _ _ hp => by cases hp) fun f hf u hu => ?_
    change Function.update s.heap e.timer none f.timer = some u at hu
    rw [Function.update_apply] at hu
    split at hu
    · cases hu
    · refine (h.known f (hf.imp_right fun hf => ?_) u hu).mono (List.subset_append_left _ _)
      rw [hp]
      exact List.mem_cons_of_mem _ hf
  | resetTimerFd now hp =>
    refine h.quiet hi [] (List.append_nil _).symm (fun _ _ _ => List.not_mem_nil) rfl (fun _ _ _ hp => by cases hp) fun e he u hu => ?_
    exact h.known e (he.imp_right fun he => by cases he) u hu

/-- How an inserted timer fires: only at reads after its insertion, once in each at
most, first at the first reading not before its expiration; a one-shot never again, a
repeating timer at readings an interval apart. -/
structure Fires (s : State) (k : Nat) (expiration : Int) (i : Interval) (start : Nat) : Prop where
  later : ∀ r ∈ runs k s.log, start ≤ r ∧ r < s.reads.length
  increasing : (runs k s.log).Pairwise (· < ·)
  first : ∀ r, (runs k s.log).head? = some r → (∃ now, s.reads[r]? = some now ∧ expiration ≤ now) ∧
    ∀ q now, start ≤ q → q < r → s.reads[q]? = some now → now < expiration
  fired : s.phase = .idle → runs k s.log = [] → ∀ q now, start ≤ q → s.reads[q]? = some now → now < expiration
  once : i.positive = false → (runs k s.log).length ≤ 1
  spaced : i.positive = true → (runs k s.log).IsChain fun q r =>
    ∃ x y, s.reads[q]? = some x ∧ s.reads[r]? = some y ∧ x + i.micros ≤ y

/-- The runs so far are those of the lane, but for one that the present batch has to come. -/
theorem Tracked.runs_rounds (h : Tracked s k i l) : ∃ tail, l.rounds = runs k s.log ++ tail ∧ (s.phase = .idle → tail = []) := by
  cases h with
  | listed e he hh hl | ran now e hp he hh hl => exact ⟨[],by rw [hl,List.append_nil],fun _ => rfl⟩
  | due now ran rest e hp he hh hl => exact ⟨[s.reads.length - 1],by rw [hl],fun hidle => by cases hidle.symm.trans hp⟩
  | gone hg hl => exact ⟨[],by rw [hl,List.append_nil],fun _ => rfl⟩

theorem Scheduled.fires {expiration : Int} {start : Nat} (h : Scheduled s) (hm : .added k expiration i start ∈ s.log) :
    Fires s k expiration i start := by
  obtain ⟨tail,htail,hidle⟩ := (h.tracked k expiration i start hm).runs_rounds
  have hf := Lane.after_follows (every i) expiration start s.reads
  refine ⟨fun r hr => hf.within r ?_,?_,fun r hr => hf.first r ?_,fun hp hnil => (hf.waiting ?_).2,fun hone => ?_,fun hrep => ?_⟩
  · rw [htail]
    exact List.mem_append_left _ hr
  · have hinc := hf.increasing
    rw [htail] at hinc
    exact (List.pairwise_append.mp hinc).1
  · rw [htail,List.head?_append,hr]
    rfl
  · rw [htail,hnil,hidle hp]
    rfl
  · have hlen := (hf.once (if_neg (by rw [hone]; decide))).1
    rw [htail,List.length_append] at hlen
    omega
  · have hchain := (hf.spaced i.micros (if_pos hrep)).1
    rw [htail] at hchain
    exact (List.isChain_append.mp hchain).1

theorem ordered_reachable (h : machine.Reachable s) : Ordered s := by
  refine h.invariant (P := Ordered) (fun s hs => ?_) (fun s a t ho hs => ordered_move ho (move_of_step ho.inv hs))
  obtain ⟨clock,monotonic,numCreated,rfl⟩ := hs
  exact ordered_initial clock monotonic numCreated

/-- On every run without cancellation, whatever the clock shows, in which readings plus
intervals are numbers of 64 bits: what runs was inserted, every inserted timer fires as
it should, and the callbacks of one read run by expiration. -/
theorem timers_fire_on_schedule {s₀ : State} {as : List Label} (h₀ : machine.Init s₀) (hc : machine.Along Uncancelled s₀ as)
    (hr : machine.run s₀ as = .ok s) :
    (∀ k read x, .started k read x ∈ s.log → ∃ expiration i start, .added k expiration i start ∈ s.log) ∧
    (∀ k expiration i start, .added k expiration i start ∈ s.log → Fires s k expiration i start) ∧
    s.log.Pairwise fun a b => ∀ j k read x y, a = .started j read x → b = .started k read y → x ≤ y := by
  have ho := ordered_reachable ⟨s₀,as,h₀,hr⟩
  obtain ⟨clock,monotonic,numCreated,rfl⟩ := h₀
  have h : Scheduled s := machine.run_along (P := Scheduled)
    (fun u a v hu ha hs => scheduled_move hu ha (move_of_step hu.inv hs)) (scheduled_initial clock monotonic numCreated) hc hr
  exact ⟨ho.started,fun k expiration i start hm => h.fires hm,ho.log⟩

/-- Two timers of one read whose callback adds one that is past already, then a read
with the clock gone back, and one that runs the new timer and the repeating one again. -/
theorem timers_fire_on_schedule_backwards : ∃ s, machine.run (initial 100 0 0)
      [.addTimer true 1 90 ⟨true,30,by decide,by decide⟩,.settime,.addTimer true 2 80 ⟨false,0,by decide,by decide⟩,.settime,
        .handleRead,.readTimerFd,.runTimer,.addTimer true 3 50 ⟨false,0,by decide,by decide⟩,.settime,.runTimer,.endTimers,
        .resetTimer,.resetTimer,.resetTimerFd,.settime,.setClock 40,.handleRead,.readTimerFd,.endTimers,.resetTimerFd,.settime,
        .setClock 130,.handleRead,.readTimerFd,.runTimer,.runTimer] = .ok s ∧
    runs 1 s.log = [0,2] ∧ runs 2 s.log = [0] ∧ runs 3 s.log = [2] ∧
    ∀ k expiration i start, .added k expiration i start ∈ s.log → Fires s k expiration i start := by
  obtain ⟨s,hr,hv⟩ := machine.exists_run_eq (s := initial 100 0 0)
    [.addTimer true 1 90 ⟨true,30,by decide,by decide⟩,.settime,.addTimer true 2 80 ⟨false,0,by decide,by decide⟩,.settime,
      .handleRead,.readTimerFd,.runTimer,.addTimer true 3 50 ⟨false,0,by decide,by decide⟩,.settime,.runTimer,.endTimers,
      .resetTimer,.resetTimer,.resetTimerFd,.settime,.setClock 40,.handleRead,.readTimerFd,.endTimers,.resetTimerFd,.settime,
      .setClock 130,.handleRead,.readTimerFd,.runTimer,.runTimer]
    (fun s => (runs 1 s.log,runs 2 s.log,runs 3 s.log)) (b := ([0,2],[0],[2])) (by decide +kernel)
  simp only [Prod.mk.injEq] at hv
  exact ⟨s,hr,hv.1,hv.2.1,hv.2.2,(timers_fire_on_schedule ⟨100,0,0,rfl⟩ (by decide +kernel) hr).2.1⟩

end Steps

end LinuxServer.Reactor.TimerQueue
