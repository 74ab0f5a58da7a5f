import LinuxServer.Reactor.TimerInvariant

/-! The descriptor keeps a deadline for the earliest timer whenever the loop is
outside the queue, while both clocks advance together. -/
namespace LinuxServer.Reactor.TimerQueue
open LinuxServer.Lib

/-- A time that the monotonic clock shows, on the clock of gettimeofday. -/
def State.onClock (s : State) (x : Int) : Int := x + (s.clock - s.monotonic)

/-- The descriptor is armed, or readable and unread, for a deadline not after the given
time, put off by what passed from the reading of the clock to the arming, or 100
microseconds after it was armed. -/
def Covers (s : State) (x : Int) : Prop := ∃ deadline readAt armedAt,
  (s.timerFd = .armed deadline readAt armedAt ∨ s.timerFd = .readable deadline readAt armedAt) ∧ readAt ≤ armedAt ∧
    s.onClock deadline ≤ max (x + (armedAt - readAt)) (s.onClock armedAt + 100)

/-- The arming that is to come is for the given time or an earlier one. -/
def Intends (s : State) (a : Arming) (x : Int) : Prop := a.readAt ≤ s.monotonic ∧
  ∃ y ≤ x, Fits (y - s.onClock a.readAt) ∧ a.value = howMuchTimeFromNow y (s.onClock a.readAt)

/-- The time is covered, or will be by the call of timerfd_settime that is to come. -/
def Due (s : State) (x : Int) : Prop := (s.arming = none → Covers s x) ∧ ∀ a, s.arming = some a → Intends s a x

def Label.setsClock : Label → Bool
  | .setClock _ => true
  | _ => false

/-- The entry that the end of reset arms for. -/
def State.armsFor (s : State) : Label → Option Entry
  | .resetTimerFd => s.timerList.first?
  | _ => none

/-- The step sets no clock, and the time from now to a timer that it inserts, or arms
for at the end of reset, is a number of 64 bits. -/
def Fitting (s : State) (a : Label) : Prop :=
  a.setsClock = false ∧
    (∀ t ∈ (step s a).toOption, ∀ e ∈ t.timerList.toList, e ∉ s.timerList → Fits (e.when - t.clock)) ∧
    ∀ e ∈ s.armsFor a, Fits (e.when - s.clock)

instance (s : State) (a : Label) : Decidable (Fitting s a) :=
  inferInstanceAs (Decidable (_ ∧ _ ∧ _))

theorem settime_eq (fd : TimerFd) (monotonic readAt : Int) {now expiration : Int} (h : Fits (expiration - now)) :
    fd.settime monotonic ⟨howMuchTimeFromNow expiration now,readAt⟩ =
      .armed (monotonic + max (expiration - now) 100) readAt monotonic := by
  have hmax : (if expiration - now < 100 then 100 else expiration - now) = max (expiration - now) 100 := by
    split <;> omega
  rw [howMuchTimeFromNow,int64_eq h]
  simp only [hmax,TimerFd.settime,microSecondPerSecond]
  generalize hm : max (expiration - now) 100 = m
  have hpos : 100 ≤ m := hm ▸ le_max_right _ _
  rw [if_neg (by omega),if_neg (by omega)]
  congr 2
  omega

section Steps
variable {s t : State}

theorem Covers.mono {x y : Int} (h : Covers s x) (hxy : x ≤ y) : Covers s y := by
  obtain ⟨deadline,readAt,armedAt,hfd,hread,hle⟩ := h
  exact ⟨deadline,readAt,armedAt,hfd,hread,hle.trans (max_le_max_right _ (by omega))⟩

theorem Due.mono {x y : Int} (h : Due s x) (hxy : x ≤ y) : Due s y := by
  refine ⟨fun hset => (h.1 hset).mono hxy,fun a ha => ?_⟩
  obtain ⟨hread,z,hz,hfits⟩ := h.2 a ha
  exact ⟨hread,z,hz.trans hxy,hfits⟩

theorem Due.congr {x : Int} (h : Due s x) (hfd : t.timerFd = s.timerFd) (hset : t.arming = s.arming)
    (hmono : s.monotonic ≤ t.monotonic) (hclock : t.clock - t.monotonic = s.clock - s.monotonic) : Due t x := by
  have hon : ∀ z, t.onClock z = s.onClock z := fun z => by rw [State.onClock,State.onClock,hclock]
  refine ⟨fun hnone => ?_,fun a ha => ?_⟩
  · obtain ⟨deadline,readAt,armedAt,hs,hread,hle⟩ := h.1 (hset ▸ hnone)
    exact ⟨deadline,readAt,armedAt,hfd ▸ hs,hread,by rw [hon,hon]; exact hle⟩
  · obtain ⟨hread,y,hy,hfits⟩ := h.2 a (hset ▸ ha)
    exact ⟨hread.trans hmono,y,hy,by rw [hon]; exact hfits⟩

/-- What only the queue's other fields show. -/
theorem Due.same {x : Int} (h : Due s x) (hfd : t.timerFd = s.timerFd) (hset : t.arming = s.arming)
    (hclock : t.clock = s.clock) (hmonotonic : t.monotonic = s.monotonic) : Due t x :=
  h.congr hfd hset hmonotonic.ge (by rw [hclock,hmonotonic])

theorem onClock_monotonic : s.onClock s.monotonic = s.clock := by
  rw [State.onClock]
  omega

/-- The clock is read for the time. -/
theorem due_reset {x : Int} (hx : Fits (x - s.clock)) (hset : s.arming = some (Reactor.resetTimerFd x s.clock s.monotonic)) : Due s x := by
  refine ⟨fun hnone => ?_,fun a ha => ?_⟩
  · cases hset.symm.trans hnone
  · cases hset.symm.trans ha
    have hclock : s.onClock (Reactor.resetTimerFd x s.clock s.monotonic).readAt = s.clock := onClock_monotonic
    exact ⟨le_rfl,x,le_rfl,by rw [hclock]; exact hx,by rw [hclock]; rfl⟩

/-- The descriptor is armed later than the clock was read for it, by as much as its deadline. -/
theorem covers_settime {a : Arming} {x : Int} (h : Intends s a x) (hfd : t.timerFd = s.timerFd.settime s.monotonic a)
    (hclock : t.clock = s.clock) (hmonotonic : t.monotonic = s.monotonic) : Covers t x := by
  obtain ⟨value,readAt⟩ := a
  obtain ⟨hread,y,hy,hfits,hvalue⟩ := h
  simp only at hread hfits hvalue
  rw [hvalue,settime_eq _ _ _ hfits] at hfd
  refine ⟨_,_,_,.inl hfd,hread,?_⟩
  simp only [State.onClock,hclock,hmonotonic]
  omega

theorem isValid_mono {x y : Int} (h : x ≤ y) (hy : isValid y = false) : isValid x = false := by
  simp only [isValid,decide_eq_false_iff_not] at hy ⊢
  omega

theorem earliestChanged_iff {x : Int} : s.earliestChanged x = true ↔ ∀ e ∈ s.timerList, x < e.when := by
  rw [State.earliestChanged]
  cases hf : s.timerList.first? with
  | none => exact ⟨fun _ e he => absurd he (OrderedSet.first_none _ _ hf),fun _ => rfl⟩
  | some f =>
    refine ⟨fun h e he => ?_,fun h => decide_eq_true (h f (OrderedSet.first_mem _ _ hf))⟩
    exact (of_decide_eq_true h).trans_le (when_le (OrderedSet.first_le _ _ _ hf he))

/-- The reading of the clock that handleRead works with. -/
def Phase.clockRead : Phase → Option Int
  | .idle => none
  | .entered now | .firing now _ _ | .resetting now _ => some now

/-- Outside the queue every listed timer is covered, in the middle of a read the ones
whose time reset would not arm for. The reading of the batch is past. -/
structure Watched (s : State) : Prop where
  inv : Inv s
  clock : 0 < s.clock
  reading : ∀ now ∈ s.phase.clockRead, 0 < now ∧ now ≤ s.clock
  covered : ∀ e ∈ s.timerList, s.phase = .idle ∨ isValid e.when = false → Due s e.when

/-- What insertion leaves covered: it arms for a timer before all others, and covers
any other one as it covers an earlier one. -/
theorem covered_added {p : Addr} {x : Timer}
    (h : ∀ e ∈ s.timerList, s.phase = .idle ∨ isValid e.when = false → Due s e.when) (hx : Fits (x.expiration - s.clock)) :
    ∀ e ∈ (s.added p x).timerList, s.phase = .idle ∨ isValid e.when = false → Due (s.added p x) e.when := by
  intro e he hneed
  by_cases hearliest : s.earliestChanged x.expiration = true
  · have hc : Due (s.added p x) x.expiration := due_reset hx (if_pos hearliest)
    rcases (OrderedSet.mem_insert _ _ _).mp he with rfl | he
    · exact hc
    · exact hc.mono (earliestChanged_iff.mp hearliest e he).le
  · have hold : ∀ f ∈ s.timerList, s.phase = .idle ∨ isValid f.when = false → Due (s.added p x) f.when := fun f hf hn =>
      (h f hf hn).same rfl (if_neg hearliest) rfl rfl
    rcases (OrderedSet.mem_insert _ _ _).mp he with rfl | he
    · simp only [earliestChanged_iff,not_forall,not_lt,exists_prop] at hearliest
      obtain ⟨f,hf,hle⟩ := hearliest
      exact (hold f hf (hneed.imp_right (isValid_mono hle))).mono hle
    · exact hold e he hneed

/-- Restarting from a positive reading within 64 bits of now gives a valid time. -/
theorem restart_valid {x : Timer} {now clock : Int} (hr : x.isReapeat = true) (hnow : 0 < now) (hle : now ≤ clock)
    (hf : Fits ((x.restart now).expiration - clock)) : isValid (x.restart now).expiration = true := by
  have hexp : (x.restart now).expiration = int64 (now + x.interval.micros) := if_pos hr
  have hlow := x.interval.micros_nonneg hr
  have hhigh := x.interval.micros_fits
  obtain ⟨q,hq,hrange⟩ := int64_spec (now + x.interval.micros)
  rw [hexp] at hf ⊢
  simp only [Fits,isValid,decide_eq_true_eq] at hf hrange ⊢
  omega

theorem watched_initial {clock : Int} (monotonic : Int) (numCreated : Nat) (h : 0 < clock) :
    Watched (initial clock monotonic numCreated) :=
  ⟨inv_initial clock monotonic numCreated,h,fun _ h => (by cases h),fun e he => absurd he (OrderedSet.not_mem_empty e)⟩

private theorem covered_cancelled {id : TimerId} {of : Option Nat} (hc : Cancelled s id of t)
    (h : ∀ e ∈ s.timerList, s.phase = .idle ∨ isValid e.when = false → Due s e.when) :
    ∀ e ∈ t.timerList, t.phase = .idle ∨ isValid e.when = false → Due t e.when := by
  cases hc with
  | removed => exact fun e he hneed => (h e ((OrderedSet.mem_erase _ _ _).mp he).2 hneed).same rfl rfl rfl rfl
  | marked | ignored => exact fun e he hneed => (h e he hneed).same rfl rfl rfl rfl

private theorem kept_cancelled {id : TimerId} {of : Option Nat} (hc : Cancelled s id of t) :
    t.phase = s.phase ∧ t.clock = s.clock := by
  cases hc <;> exact ⟨rfl,rfl⟩

/-- In the middle of a read, what is listed is covered as before. -/
private theorem covered_inside (h : Watched s) (hout : t.phase ≠ .idle) (hlist : ∀ e ∈ t.timerList, e ∈ s.timerList)
    (hfd : t.timerFd = s.timerFd) (hset : t.arming = s.arming) (hclock : t.clock = s.clock) (hmonotonic : t.monotonic = s.monotonic) :
    ∀ e ∈ t.timerList, t.phase = .idle ∨ isValid e.when = false → Due t e.when := fun e he hneed =>
  (h.covered e (hlist e he) (hneed.imp_left fun hidle => absurd hidle hout)).same hfd hset hclock hmonotonic

theorem watched_move {a : Label} (h : Watched s) (hclocks : a.setsClock = false)
    (hnew : ∀ e ∈ t.timerList.toList, e ∉ s.timerList → Fits (e.when - t.clock)) (harm : ∀ e ∈ s.armsFor a, Fits (e.when - s.clock))
    (hm : Move s a t) : Watched t := by
  have hi := inv_move h.inv hm
  cases hm with
  | queueTimer | queueCancel | otherQueue =>
    exact ⟨hi,h.clock,h.reading,fun e he hneed => (h.covered e he hneed).same rfl rfl rfl rfl⟩
  | addTimer p expiration dInterval hp hb =>
    have hn : toLex (expiration,p) ∉ s.timerList := fun hm => by
      obtain ⟨u,hu,-⟩ := h.inv.indexed.keyed _ hm
      cases hp.symm.trans hu
    have hc : ∀ e ∈ s.timerList, s.phase = .idle ∨ isValid e.when = false → Due (s.newTimer p expiration dInterval) e.when :=
      fun e he hneed => (h.covered e he hneed).same rfl rfl rfl rfl
    exact ⟨hi,h.clock,h.reading,covered_added (s := s.newTimer p expiration dInterval) hc
      (hnew _ ((OrderedSet.mem_insert _ _ _).mpr (.inl rfl)) hn)⟩
  | runAdd p rest u hf hu hidle =>
    have hn : toLex (u.expiration,p) ∉ s.timerList := fun hm => by
      refine h.inv.indexed.listed_ne (p := p) (List.mem_append_left _ ?_) hm rfl
      rw [hf]
      exact List.mem_cons_self
    have hc : ∀ e ∈ s.timerList, s.phase = .idle ∨ isValid e.when = false → Due { s with functors := rest } e.when :=
      fun e he hneed => (h.covered e he hneed).same rfl rfl rfl rfl
    exact ⟨hi,h.clock,h.reading,covered_added (s := { s with functors := rest }) hc
      (hnew _ ((OrderedSet.mem_insert _ _ _).mpr (.inl rfl)) hn)⟩
  | cancel _ id of _ ha ht =>
    obtain ⟨hphase,hclock⟩ := kept_cancelled ht
    exact ⟨hi,hclock ▸ h.clock,hphase ▸ hclock ▸ h.reading,covered_cancelled ht h.covered⟩
  | runCancel id of rest _ hf hidle ht =>
    obtain ⟨hphase,hclock⟩ := kept_cancelled ht
    refine ⟨hi,hclock ▸ h.clock,hphase ▸ hclock ▸ h.reading,covered_cancelled ht fun e he hneed => ?_⟩
    exact (h.covered e he hneed).same rfl rfl rfl rfl
  | setClock now => cases hclocks
  | advance micros =>
    have hlater : s.clock ≤ s.clock + micros := Int.le_add_of_nonneg_right (Int.natCast_nonneg _)
    refine ⟨hi,h.clock.trans_le hlater,fun now hp => ?_,fun e he hneed => ?_⟩
    · exact ⟨(h.reading now hp).1,(h.reading now hp).2.trans hlater⟩
    · refine (h.covered e he hneed).congr rfl rfl ?_ ?_
      · change s.monotonic ≤ s.monotonic + _
        omega
      · change s.clock + _ - (s.monotonic + _) = _
        omega
  | timerFdExpires deadline readAt armedAt hfd =>
    refine ⟨hi,h.clock,h.reading,fun e he hneed => ⟨fun hset => ?_,(h.covered e he hneed).2⟩⟩
    obtain ⟨d,r,m,hs,hread,hle⟩ := (h.covered e he hneed).1 hset
    refine ⟨d,r,m,.inr ?_,hread,hle⟩
    rcases hs with hs | hs
    · cases hfd.symm.trans hs
      rfl
    · cases hfd.symm.trans hs
  | settime a ha =>
    refine ⟨hi,h.clock,h.reading,fun e he hneed => ⟨fun _ => ?_,fun _ hnone => by cases hnone⟩⟩
    exact covers_settime ((h.covered e he hneed).2 a ha) rfl rfl rfl
  | handleRead hidle =>
    refine ⟨hi,h.clock,fun now hp => ?_,fun e he _ => (h.covered e he (.inl hidle)).same rfl rfl rfl rfl⟩
    cases hp
    exact ⟨h.clock,le_rfl⟩
  | readTimerFd now active hp ha =>
    have hnow := h.reading now (by rw [hp]; rfl)
    refine ⟨hi,h.clock,fun now' hp' => ?_,fun e he hneed => ?_⟩
    · cases hp'
      exact hnow
    · -- what is left in the list is later than the reading
      obtain ⟨hl,hle⟩ := (OrderedSet.mem_onward _ _ _).mp he
      obtain ⟨u,hu,-⟩ := h.inv.indexed.keyed e hl
      have hlater := (sentry_le (h.inv.indexed.bounded _ u hu)).mp hle
      rcases hneed with hneed | hneed
      · cases hneed
      · simp only [isValid,decide_eq_false_iff_not] at hneed
        omega
  | runTimer now ran e rest u hp hu hw =>
    have hnow := h.reading now (by rw [hp]; rfl)
    refine ⟨hi,h.clock,fun now' hp' => ?_,covered_inside h (fun hidle => by cases hidle) (fun _ hf => hf) rfl rfl rfl rfl⟩
    cases hp'
    exact hnow
  | endTimers now ran hp =>
    have hnow := h.reading now (by rw [hp]; rfl)
    refine ⟨hi,h.clock,fun now' hp' => ?_,covered_inside h (fun hidle => by cases hidle) (fun _ hf => hf) rfl rfl rfl rfl⟩
    cases hp'
    exact hnow
  | restart now e rest u hp hu hw hr =>
    obtain ⟨hpos,hle⟩ := h.reading now (by rw [hp]; rfl)
    refine ⟨hi,h.clock,fun now' hp' => ?_,fun f hf hneed => ?_⟩
    · cases hp'
      exact ⟨hpos,hle⟩
    · rcases (OrderedSet.mem_insert _ _ _).mp hf with rfl | hf
      · have hn : toLex ((u.restart now).expiration,e.timer) ∉ s.timerList := fun hm =>
          h.inv.indexed.listed_ne (List.mem_append_right _ (List.mem_map.mpr ⟨e,Phase.mem_batch_resetting hp,rfl⟩)) hm rfl
        have hv := restart_valid hr hpos hle (hnew _ ((OrderedSet.mem_insert _ _ _).mpr (.inl rfl)) hn)
        rcases hneed with hneed | hneed
        · cases hneed
        · cases hneed.symm.trans hv
      · exact (h.covered f hf (hneed.imp_left fun hidle => by cases hidle)).same rfl rfl rfl rfl
  | retire now e rest u hp hu hw hr =>
    have hnow := h.reading now (by rw [hp]; rfl)
    refine ⟨hi,h.clock,fun now' hp' => ?_,covered_inside h (fun hidle => by cases hidle) (fun _ hf => hf) rfl rfl rfl rfl⟩
    cases hp'
    exact hnow
  | resetTimerFd now hp =>
    refine ⟨hi,h.clock,fun _ hp' => (by cases hp'),fun e he _ => ?_⟩
    -- the clock is read for the first entry, or its time is invalid and covered already
    obtain ⟨f,hf⟩ := OrderedSet.exists_first _ _ he
    have hearliest : s.earliest = f.when := by rw [State.earliest,hf,Option.elim_some]
    have hle := when_le (OrderedSet.first_le _ _ _ hf he)
    refine Due.mono ?_ hle
    by_cases hv : isValid f.when = true
    · refine due_reset (harm f hf) ?_
      simp only [hearliest,hv,if_true]
    · refine (h.covered f (OrderedSet.first_mem _ _ hf) (.inr (Bool.eq_false_iff.mpr hv))).same rfl ?_ rfl rfl
      simp only [hearliest,hv,Bool.false_eq_true,if_false]

/-- While the clocks advance together, from a time after the epoch, and the times to
the timers are numbers of 64 bits: between the steps of the loop the descriptor is
armed, or readable and unread, for a deadline that is not after 100 microseconds from its
arming, or after the earliest listed expiration by more than what passed from the reading
of the clock to the arming. -/
theorem no_timer_forgotten {s₀ : State} {as : List Label} (h₀ : machine.Init s₀) (hpos : 0 < s₀.clock)
    (hc : machine.Along Fitting s₀ as) (hr : machine.run s₀ as = .ok s) (hidle : s.phase = .idle) (hset : s.arming = none)
    {e : Entry} (he : s.timerList.first? = some e) :
    ∃ deadline readAt armedAt, (s.timerFd = .armed deadline readAt armedAt ∨ s.timerFd = .readable deadline readAt armedAt) ∧
      readAt ≤ armedAt ∧ s.onClock deadline ≤ max (e.when + (armedAt - readAt)) (s.onClock armedAt + 100) := by
  obtain ⟨clock,monotonic,numCreated,rfl⟩ := h₀
  have h : Watched s := machine.run_along (P := Watched)
    (fun u a v hu ha hs => by
      have hnew : ∀ f ∈ v.timerList.toList, f ∉ u.timerList → Fits (f.when - v.clock) := ha.2.1 v (by
        rw [show step u a = .ok v from hs]
        rfl)
      exact watched_move hu ha.1 hnew ha.2.2 (move_of_step hu.inv hs))
    (watched_initial monotonic numCreated hpos) hc hr
  exact (h.covered e (OrderedSet.first_mem _ _ he) (.inl hidle)).1 hset

/-- A repeating timer whose callback adds one for a time before the epoch. Reset does
not arm for it; the insertion has. -/
theorem no_timer_forgotten_invalid : ∃ s, machine.run (initial 1000 0 0)
      [.addTimer true 1 1200 ⟨true,500,by decide,by decide⟩,.settime,.advance 200,.timerFdExpires,.handleRead,.readTimerFd,.runTimer,
        .addTimer true 2 (-5) ⟨false,0,by decide,by decide⟩,.advance 7,.settime,.endTimers,.resetTimer,.resetTimerFd] = .ok s ∧
    s.timerList.first? = some (toLex (-5,2)) ∧ ∃ deadline readAt armedAt,
      (s.timerFd = .armed deadline readAt armedAt ∨ s.timerFd = .readable deadline readAt armedAt) ∧
        readAt ≤ armedAt ∧ s.onClock deadline ≤ max (-5 + (armedAt - readAt)) (s.onClock armedAt + 100) := by
  obtain ⟨s,hr,hv⟩ := machine.exists_run_eq (s := initial 1000 0 0)
    [.addTimer true 1 1200 ⟨true,500,by decide,by decide⟩,.settime,.advance 200,.timerFdExpires,.handleRead,.readTimerFd,.runTimer,
      .addTimer true 2 (-5) ⟨false,0,by decide,by decide⟩,.advance 7,.settime,.endTimers,.resetTimer,.resetTimerFd]
    (fun s => (s.phase,s.arming,s.timerList.first?)) (b := (.idle,none,some (toLex (-5,2)))) (by decide +kernel)
  simp only [Prod.mk.injEq] at hv
  obtain ⟨hidle,hset,hfirst⟩ := hv
  exact ⟨s,hr,hfirst,no_timer_forgotten ⟨1000,0,0,rfl⟩ (by decide) (by decide +kernel) hr hidle hset hfirst⟩

/-- 50 microseconds pass from the reading of the clock to the arming, and the deadline is
as much later than the timer's expiration. -/
theorem armed_late : ∃ s, machine.run (initial 1000 0 0)
      [.addTimer true 1 1500 ⟨false,0,by decide,by decide⟩,.advance 50,.settime] = .ok s ∧
    machine.Along Fitting (initial 1000 0 0) [.addTimer true 1 1500 ⟨false,0,by decide,by decide⟩,.advance 50,.settime] ∧
    s.phase = .idle ∧ s.arming = none ∧ s.timerList.first? = some (toLex (1500,1)) ∧ ¬ ∃ deadline readAt armedAt,
      (s.timerFd = .armed deadline readAt armedAt ∨ s.timerFd = .readable deadline readAt armedAt) ∧
        s.onClock deadline ≤ max 1500 (s.onClock armedAt + 100) := by
  obtain ⟨s,hr,hv⟩ := machine.exists_run_eq (s := initial 1000 0 0)
    [.addTimer true 1 1500 ⟨false,0,by decide,by decide⟩,.advance 50,.settime]
    (fun s => decide (s.phase = .idle ∧ s.arming = none ∧ s.timerList.first? = some (toLex (1500,1)) ∧
      s.timerFd = .armed 550 0 50 ∧ s.clock - s.monotonic = 1000)) (b := true) (by decide +kernel)
  obtain ⟨hidle,hset,hfirst,hfd,hdiff⟩ := of_decide_eq_true hv
  refine ⟨s,hr,by decide +kernel,hidle,hset,hfirst,?_⟩
  rintro ⟨deadline,readAt,armedAt,hs,hle⟩
  rw [hfd] at hs
  rcases hs with hs | hs
  · cases hs
    simp only [State.onClock,hdiff] at hle
    omega
  · cases hs

end Steps

end LinuxServer.Reactor.TimerQueue
