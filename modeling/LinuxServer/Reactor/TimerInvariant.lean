import LinuxServer.Reactor.TimerQueue

/-! The two indexes of the timer queue agree, and each timer is in one place, on
every run: no assertion of the queue fails and no freed timer is used. -/
namespace LinuxServer.Reactor.TimerQueue
open LinuxServer.Lib

@[simp] theorem Entry.when_mk (when_ : Int) (p : Addr) : Entry.when (toLex (when_,p)) = when_ := rfl
@[simp] theorem Entry.timer_mk (when_ : Int) (p : Addr) : Entry.timer (toLex (when_,p)) = p := rfl
theorem Entry.eta (e : Entry) : toLex (e.when,e.timer) = e := rfl

theorem when_le {e f : Entry} (h : e ≤ f) : e.when ≤ f.when := by
  rcases Prod.Lex.le_iff.mp h with h | h
  · exact le_of_lt h
  · exact le_of_eq h.1

def sentry (now : Int) : Entry := toLex (now,uintptrMax)

theorem lt_sentry {e : Entry} {now : Int} (h : e.timer < uintptrMax) : e < sentry now ↔ e.when ≤ now := by
  rw [Prod.Lex.lt_iff,le_iff_lt_or_eq]
  exact or_congr_right (and_iff_left h)

theorem sentry_le {e : Entry} {now : Int} (h : e.timer < uintptrMax) : sentry now ≤ e ↔ now < e.when := by
  rw [← not_lt,lt_sentry h,not_le]

section Indexes
variable {heap : Addr → Option Timer} {list : OrderedSet Entry} {active : OrderedSet ActiveTimer} {out : List Addr}

/-- The key of a timer in the active set. -/
def activeKey (heap : Addr → Option Timer) (p : Addr) : ActiveTimer :=
  toLex (p,(heap p).elim 0 Timer.getSequence)

theorem activeKey_eq {p : Addr} {t : Timer} (h : heap p = some t) : activeKey heap p = toLex (p,t.getSequence) := by
  rw [activeKey,h,Option.elim_some]
theorem activeKey_inj {p q : Addr} (h : activeKey heap p = activeKey heap q) : p = q :=
  congrArg (fun a => (ofLex a).1) h
theorem activeKey_update {p q : Addr} (x : Option Timer) (h : q ≠ p) :
    activeKey (Function.update heap p x) q = activeKey heap q := by
  rw [activeKey,activeKey,Function.update_of_ne h]

/-- The two sets hold the same timers under their present keys, and every timer on
the heap is either listed or one of the others, once. -/
structure Indexed (heap : Addr → Option Timer) (list : OrderedSet Entry) (active : OrderedSet ActiveTimer)
    (out : List Addr) : Prop where
  nodup : (out ++ list.toList.map Entry.timer).Nodup
  live : ∀ p, (∃ t, heap p = some t) ↔ p ∈ out ++ list.toList.map Entry.timer
  bounded : ∀ p t, heap p = some t → p < uintptrMax
  keyed : ∀ e ∈ list, ∃ t, heap e.timer = some t ∧ t.expiration = e.when
  active : ∀ a, a ∈ active ↔ ∃ e ∈ list, a = activeKey heap e.timer

theorem Indexed.perm {out' : List Addr} (h : Indexed heap list active out) (hp : out.Perm out') :
    Indexed heap list active out' :=
  ⟨(hp.append_right _).nodup_iff.mp h.nodup,fun p => (h.live p).trans (hp.append_right _).mem_iff,
    h.bounded,h.keyed,h.active⟩

theorem mem_listed {list : OrderedSet Entry} {p : Addr} :
    p ∈ list.toList.map Entry.timer ↔ ∃ e ∈ list, e.timer = p := List.mem_map

theorem Indexed.listed_ne {p : Addr} {e : Entry} (h : Indexed heap list active out) (hp : p ∈ out) (he : e ∈ list) :
    e.timer ≠ p := fun heq =>
  (List.nodup_append.mp h.nodup).2.2 p hp e.timer (mem_listed.mpr ⟨e,he,rfl⟩) heq.symm

theorem Indexed.alive {p : Addr} (h : Indexed heap list active out) (hp : p ∈ out) : ∃ t, heap p = some t :=
  (h.live p).mpr (List.mem_append_left _ hp)

/-- A timer is listed at most once, with its expiration. -/
theorem Indexed.entry_eq {e : Entry} {t : Timer} (h : Indexed heap list active out) (he : e ∈ list)
    (ht : heap e.timer = some t) : e = toLex (t.expiration,e.timer) := by
  obtain ⟨u,hu,hw⟩ := h.keyed e he
  cases ht.symm.trans hu
  rw [hw,Entry.eta]

theorem Indexed.timer_inj {e f : Entry} (h : Indexed heap list active out) (he : e ∈ list) (hf : f ∈ list)
    (heq : e.timer = f.timer) : e = f := by
  obtain ⟨t,ht,-⟩ := h.keyed e he
  rw [h.entry_eq he ht,h.entry_eq hf (heq ▸ ht),heq]

theorem Indexed.size_eq (h : Indexed heap list active out) : list.size = active.size := by
  have hnd : (list.toList.map fun e => activeKey heap e.timer).Nodup :=
    List.Nodup.map_on (fun e he f hf heq => h.timer_inj he hf (activeKey_inj heq)) list.nodup
  have hp : active.toList.Perm (list.toList.map fun e => activeKey heap e.timer) :=
    (List.perm_ext_iff_of_nodup active.nodup hnd).mpr fun a => by
      rw [OrderedSet.mem_toList,h.active,List.mem_map]
      constructor
      · rintro ⟨e,he,ha⟩
        exact ⟨e,he,ha.symm⟩
      · rintro ⟨e,he,ha⟩
        exact ⟨e,he,ha.symm⟩
  rw [OrderedSet.size,OrderedSet.size,hp.length_eq,List.length_map]

theorem indexed_empty : Indexed (fun _ => none) .empty .empty [] where
  nodup := .nil
  live p := by simp [OrderedSet.empty]
  bounded _ _ h := by cases h
  keyed e he := absurd he (OrderedSet.not_mem_empty e)
  active a := by
    constructor
    · intro ha
      exact absurd ha (OrderedSet.not_mem_empty a)
    · rintro ⟨e,he,-⟩
      exact absurd he (OrderedSet.not_mem_empty e)

theorem Indexed.alloc {p : Addr} (h : Indexed heap list active out) (hp : heap p = none) (hb : p < uintptrMax)
    (t : Timer) : Indexed (Function.update heap p (some t)) list active (p :: out) := by
  have hnew : p ∉ out ++ list.toList.map Entry.timer := fun hm => by
    obtain ⟨u,hu⟩ := (h.live p).mpr hm
    rw [hp] at hu
    cases hu
  have hne : ∀ e ∈ list, e.timer ≠ p := fun e he heq =>
    hnew (List.mem_append_right _ (mem_listed.mpr ⟨e,he,heq⟩))
  refine ⟨List.nodup_cons.mpr ⟨hnew,h.nodup⟩,fun q => ?_,fun q u hq => ?_,fun e he => ?_,fun a => ?_⟩
  · rw [List.cons_append,List.mem_cons,← h.live,Function.update_apply]
    by_cases hq : q = p <;> simp [hq]
  · rw [Function.update_apply] at hq
    split at hq
    · rename_i heq
      exact heq ▸ hb
    · exact h.bounded q u hq
  · rw [Function.update_of_ne (hne e he)]
    exact h.keyed e he
  · rw [h.active]
    refine exists_congr fun e => and_congr_right fun he => ?_
    rw [activeKey_update _ (hne e he)]

theorem Indexed.free {p : Addr} (h : Indexed heap list active (p :: out)) :
    Indexed (Function.update heap p none) list active out := by
  have hne : ∀ e ∈ list, e.timer ≠ p := fun e he => h.listed_ne List.mem_cons_self he
  have hp := (List.nodup_cons.mp h.nodup).1
  refine ⟨(List.nodup_cons.mp h.nodup).2,fun q => ?_,fun q u hq => ?_,fun e he => ?_,fun a => ?_⟩
  · rw [Function.update_apply]
    by_cases hq : q = p
    · rw [if_pos hq,hq]
      constructor
      · rintro ⟨_,hu⟩
        cases hu
      · intro hm
        exact absurd hm hp
    · rw [if_neg hq,h.live,List.cons_append,List.mem_cons,or_iff_right hq]
  · rw [Function.update_apply] at hq
    split at hq
    · cases hq
    · exact h.bounded q u hq
  · rw [Function.update_of_ne (hne e he)]
    exact h.keyed e he
  · rw [h.active]
    refine exists_congr fun e => and_congr_right fun he => ?_
    rw [activeKey_update _ (hne e he)]

theorem Indexed.replace {p : Addr} (h : Indexed heap list active (p :: out)) (t : Timer) :
    Indexed (Function.update heap p (some t)) list active (p :: out) := by
  obtain ⟨u,hu⟩ := h.alive List.mem_cons_self
  simpa only [Function.update_idem] using h.free.alloc (Function.update_self p none heap) (h.bounded p u hu) t

theorem Indexed.link {p : Addr} {t : Timer} (h : Indexed heap list active (p :: out)) (ht : heap p = some t) :
    toLex (t.expiration,p) ∉ list ∧ toLex (p,t.getSequence) ∉ active ∧
      Indexed heap (list.insert (toLex (t.expiration,p))).1 (active.insert (toLex (p,t.getSequence))).1 out := by
  have hl : toLex (t.expiration,p) ∉ list := fun hm => h.listed_ne List.mem_cons_self hm rfl
  have ha : toLex (p,t.getSequence) ∉ active := fun hm => by
    obtain ⟨e,he,heq⟩ := (h.active _).mp hm
    exact h.listed_ne List.mem_cons_self he (congrArg (fun a => (ofLex a).1) heq).symm
  have hperm : (out ++ (list.insert (toLex (t.expiration,p))).1.toList.map Entry.timer).Perm
      (p :: out ++ list.toList.map Entry.timer) :=
    (((list.insert_perm _ hl).map Entry.timer).append_left out).trans List.perm_middle
  refine ⟨hl,ha,hperm.nodup_iff.mpr h.nodup,fun q => (h.live q).trans hperm.mem_iff.symm,h.bounded,?_,?_⟩
  · intro e he
    rcases (OrderedSet.mem_insert _ _ _).mp he with rfl | he
    · exact ⟨t,ht,rfl⟩
    · exact h.keyed e he
  · intro a
    simp only [OrderedSet.mem_insert,h.active,or_and_right,exists_or,exists_eq_left,Entry.timer_mk,activeKey_eq ht]

theorem Indexed.unlink {e : Entry} {t : Timer} (h : Indexed heap list active out) (he : e ∈ list)
    (ht : heap e.timer = some t) :
    Indexed heap (list.erase e).1 (active.erase (toLex (e.timer,t.getSequence))).1 (e.timer :: out) := by
  have hperm : (e.timer :: out ++ (list.erase e).1.toList.map Entry.timer).Perm (out ++ list.toList.map Entry.timer) :=
    List.perm_middle.symm.trans (((list.erase_perm e he).map Entry.timer).append_left out).symm
  refine ⟨hperm.nodup_iff.mpr h.nodup,fun q => (h.live q).trans hperm.mem_iff.symm,h.bounded,?_,?_⟩
  · intro f hf
    exact h.keyed f ((OrderedSet.mem_erase _ _ _).mp hf).2
  · intro a
    rw [OrderedSet.mem_erase,h.active,← activeKey_eq ht]
    constructor
    · rintro ⟨hne,f,hf,rfl⟩
      exact ⟨f,(OrderedSet.mem_erase _ _ _).mpr ⟨fun heq => hne (heq ▸ rfl),hf⟩,rfl⟩
    · rintro ⟨f,hf,rfl⟩
      obtain ⟨hne,hf⟩ := (OrderedSet.mem_erase _ _ _).mp hf
      exact ⟨fun heq => hne (h.timer_inj hf he (activeKey_inj heq)),f,hf,rfl⟩

/-- Taking the entries before a bound out of the list and their keys out of the active set. -/
theorem Indexed.cut {active' : OrderedSet ActiveTimer} (h : Indexed heap list active out) (x : Entry)
    (ha : ∀ a, a ∈ active' ↔ a ∈ active ∧ ∀ e ∈ list.before x, a ≠ activeKey heap e.timer) :
    Indexed heap (list.onward x) active' (out ++ (list.before x).map Entry.timer) := by
  have heq : out ++ (list.before x).map Entry.timer ++ (list.onward x).toList.map Entry.timer
      = out ++ list.toList.map Entry.timer := by
    rw [List.append_assoc,← List.map_append,list.before_append]
  refine ⟨heq ▸ h.nodup,fun q => by rw [heq,h.live],h.bounded,?_,?_⟩
  · intro e he
    exact h.keyed e ((OrderedSet.mem_onward _ _ _).mp he).1
  · intro a
    rw [ha,h.active]
    constructor
    · rintro ⟨⟨e,he,rfl⟩,hne⟩
      refine ⟨e,(OrderedSet.mem_onward _ _ _).mpr ⟨he,not_lt.mp fun hlt => ?_⟩,rfl⟩
      exact hne e ((OrderedSet.mem_before _ _ _).mpr ⟨he,hlt⟩) rfl
    · rintro ⟨e,he,rfl⟩
      obtain ⟨he,hle⟩ := (OrderedSet.mem_onward _ _ _).mp he
      refine ⟨⟨e,he,rfl⟩,fun f hf heq => ?_⟩
      obtain ⟨hf,hlt⟩ := (OrderedSet.mem_before _ _ _).mp hf
      exact absurd (h.timer_inj he hf (activeKey_inj heq) ▸ hle) (not_le.mpr hlt)

end Indexes

section Records
variable {heap : Addr → Option Timer} {n : Nat} {log : List Event}

/-- The event inserts, runs or frees the timer. -/
def Event.touches (k : Nat) : Event → Prop
  | .added j _ _ _ | .restarted j | .started j _ _ | .deleted j _ => j = k
  | .cancelled _ => False

/-- Timers have numbers of their own, and nothing touches a timer once it is deleted. -/
structure Recorded (heap : Addr → Option Timer) (n : Nat) (log : List Event) : Prop where
  created : ∀ p t, heap p = some t → 0 < t.created ∧ t.created ≤ n
  distinct : ∀ p q t u, heap p = some t → heap q = some u → t.created = u.created → p = q
  logged : ∀ a ∈ log, ∀ k, a.touches k → k ≤ n
  dead : ∀ k cause, .deleted k cause ∈ log → ∀ p t, heap p = some t → t.created ≠ k
  once : log.Pairwise fun a b => ∀ k cause, a = .deleted k cause → ¬ b.touches k

theorem recorded_empty : Recorded (fun _ => none) n [] :=
  ⟨fun _ _ h => (by cases h),fun _ _ _ _ h => (by cases h),fun _ h => (by cases h),fun _ _ h => (by cases h),.nil⟩

theorem Recorded.mono {m : Nat} (h : Recorded heap n log) (hm : n ≤ m) : Recorded heap m log :=
  ⟨fun p t ht => ⟨(h.created p t ht).1,(h.created p t ht).2.trans hm⟩,h.distinct,fun a ha k hk => (h.logged a ha k hk).trans hm,h.dead,h.once⟩

/-- A heap whose timers all have the number of an older one at the same address. -/
theorem Recorded.of_heap {heap' : Addr → Option Timer} (h : Recorded heap n log)
    (hh : ∀ p t, heap' p = some t → ∃ u, heap p = some u ∧ u.created = t.created) : Recorded heap' n log := by
  refine ⟨fun p t ht => ?_,fun p q t u ht hu he => ?_,h.logged,fun k cause hd p t ht => ?_,h.once⟩
  · obtain ⟨u,hu,hc⟩ := hh p t ht
    exact hc ▸ h.created p u hu
  · obtain ⟨v,hv,hvc⟩ := hh p t ht
    obtain ⟨w,hw,hwc⟩ := hh q u hu
    exact h.distinct p q v w hv hw (by rw [hvc,hwc,he])
  · obtain ⟨u,hu,hc⟩ := hh p t ht
    exact hc ▸ h.dead k cause hd p u hu

theorem Recorded.alloc {p : Addr} (h : Recorded heap n log) (expiration : Int) (dInterval : Interval) :
    Recorded (Function.update heap p (some ⟨expiration,dInterval,n + 1⟩)) (n + 1) log := by
  have hh : ∀ q t, Function.update heap p (some ⟨expiration,dInterval,n + 1⟩) q = some t →
      q = p ∧ t.created = n + 1 ∨ heap q = some t := fun q t ht => by
    rw [Function.update_apply] at ht
    split at ht
    · rename_i hq
      cases ht
      exact .inl ⟨hq,rfl⟩
    · exact .inr ht
  refine ⟨fun q t ht => ?_,fun q r t u ht hu he => ?_,fun a ha k hk => (h.logged a ha k hk).trans (Nat.le_succ n),
    fun k cause hd q t ht => ?_,h.once⟩
  · rcases hh q t ht with ⟨-,hc⟩ | ht
    · exact ⟨hc ▸ Nat.succ_pos n,hc.le⟩
    · exact ⟨(h.created q t ht).1,(h.created q t ht).2.trans (Nat.le_succ n)⟩
  · rcases hh q t ht with ⟨hq,hc⟩ | hq <;> rcases hh r u hu with ⟨hr,hd⟩ | hr
    · exact hq.trans hr.symm
    · exact absurd (h.created r u hr).2 (by omega)
    · exact absurd (h.created q t hq).2 (by omega)
    · exact h.distinct q r t u hq hr he
  · rcases hh q t ht with ⟨-,hc⟩ | ht
    · exact fun hk => absurd (h.logged _ hd k rfl) (by omega)
    · exact h.dead k cause hd q t ht

/-- Recording what touches live timers only. -/
theorem Recorded.append {a : Event} (h : Recorded heap n log) (hl : ∀ k, a.touches k → ∃ p t, heap p = some t ∧ t.created = k)
    (hd : ∀ k cause, a ≠ .deleted k cause) : Recorded heap n (log ++ [a]) := by
  refine ⟨h.created,h.distinct,fun b hb k hk => ?_,fun k cause hm => ?_,?_⟩
  · rcases List.mem_append.mp hb with hb | hb
    · exact h.logged b hb k hk
    · rw [List.mem_singleton.mp hb] at hk
      obtain ⟨p,t,ht,rfl⟩ := hl k hk
      exact (h.created p t ht).2
  · rcases List.mem_append.mp hm with hm | hm
    · exact h.dead k cause hm
    · exact absurd (List.mem_singleton.mp hm).symm (hd k cause)
  · refine List.pairwise_append.mpr ⟨h.once,List.pairwise_singleton _ _,fun b hb c hc k cause he hk => ?_⟩
    rw [List.mem_singleton.mp hc] at hk
    obtain ⟨p,t,ht,hkt⟩ := hl k hk
    exact h.dead k cause (he ▸ hb) p t ht hkt

theorem Recorded.touch {a : Event} {p : Addr} {t : Timer} (h : Recorded heap n log) (ht : heap p = some t)
    (ha : ∀ k, a.touches k → t.created = k) (hd : ∀ k cause, a ≠ .deleted k cause) : Recorded heap n (log ++ [a]) :=
  h.append (fun k hk => ⟨p,t,ht,ha k hk⟩) hd

theorem Recorded.cancelled (h : Recorded heap n log) (of : Option Nat) :
    Recorded heap n (log ++ of.toList.map .cancelled) := by
  cases of with
  | none => simpa using h
  | some k => exact h.append (fun _ hf => hf.elim) fun _ _ => Event.noConfusion

theorem Recorded.free {p : Addr} {t : Timer} (h : Recorded heap n log) (ht : heap p = some t) (cause : Option TimerId) :
    Recorded (Function.update heap p none) n (log ++ [.deleted t.created cause]) := by
  have hh : ∀ q u, Function.update heap p none q = some u → q ≠ p ∧ heap q = some u := fun q u hu => by
    rw [Function.update_apply] at hu
    split at hu
    · cases hu
    · rename_i hq
      exact ⟨hq,hu⟩
  have hr := h.of_heap fun q u hu => ⟨u,(hh q u hu).2,rfl⟩
  refine ⟨hr.created,hr.distinct,fun b hb k hk => ?_,fun k d hm q u hu hk => ?_,?_⟩
  · rcases List.mem_append.mp hb with hb | hb
    · exact h.logged b hb k hk
    · rw [List.mem_singleton.mp hb] at hk
      exact hk ▸ (h.created p t ht).2
  · obtain ⟨hq,hu⟩ := hh q u hu
    rcases List.mem_append.mp hm with hm | hm
    · exact h.dead k d hm q u hu hk
    · cases List.mem_singleton.mp hm
      exact hq (h.distinct q p u t hu ht hk)
  · refine List.pairwise_append.mpr ⟨h.once,List.pairwise_singleton _ _,fun b hb c hc k d he hk => ?_⟩
    rw [List.mem_singleton.mp hc] at hk
    exact h.dead k d (he ▸ hb) p t ht hk

/-- A timer whose id was given out is on the heap or was deleted. -/
def Kept (heap : Addr → Option Timer) (timerId : Nat → Option TimerId) (log : List Event) : Prop :=
  ∀ k, timerId k ≠ none → (∃ p t, heap p = some t ∧ t.created = k) ∨ ∃ cause, .deleted k cause ∈ log

section Kept
variable {timerId : Nat → Option TimerId}

theorem Kept.append (h : Kept heap timerId log) (es : List Event) : Kept heap timerId (log ++ es) := by
  intro k hk
  refine (h k hk).imp_right ?_
  rintro ⟨cause,hm⟩
  exact ⟨cause,List.mem_append_left _ hm⟩

theorem Kept.alloc {p : Addr} {t : Timer} (h : Kept heap timerId log) (hp : heap p = none) (id : TimerId) :
    Kept (Function.update heap p (some t)) (Function.update timerId t.created (some id)) log := by
  intro k hk
  by_cases hkt : k = t.created
  · exact .inl ⟨p,t,Function.update_self ..,hkt.symm⟩
  · rw [Function.update_of_ne hkt] at hk
    refine (h k hk).imp_left ?_
    rintro ⟨q,u,hu,hc⟩
    refine ⟨q,u,?_,hc⟩
    rw [Function.update_of_ne (fun heq => by rw [heq,hp] at hu; cases hu)]
    exact hu

theorem Kept.replace {p : Addr} {t u : Timer} (h : Kept heap timerId log) (ht : heap p = some t) (hc : u.created = t.created) :
    Kept (Function.update heap p (some u)) timerId log := by
  intro k hk
  refine (h k hk).imp_left ?_
  rintro ⟨q,v,hv,hk⟩
  by_cases hq : q = p
  · cases (hq ▸ hv).symm.trans ht
    exact ⟨p,u,Function.update_self ..,hc.trans hk⟩
  · exact ⟨q,v,(Function.update_of_ne hq ..).trans hv,hk⟩

theorem Kept.free {p : Addr} {t : Timer} (h : Kept heap timerId log) (ht : heap p = some t) (cause : Option TimerId) :
    Kept (Function.update heap p none) timerId (log ++ [.deleted t.created cause]) := fun k hk => by
  rcases h k hk with ⟨q,v,hv,hk⟩ | ⟨d,hd⟩
  · by_cases hq : q = p
    · cases (hq ▸ hv).symm.trans ht
      exact .inr ⟨cause,hk ▸ List.mem_append_right _ List.mem_cons_self⟩
    · exact .inl ⟨q,v,(Function.update_of_ne hq ..).trans hv,hk⟩
  · exact .inr ⟨d,List.mem_append_left _ hd⟩

end Kept

end Records

section Operations
variable {s : State} {out : List Addr}

def Functor.adds : Functor → Option Addr
  | .addTimerInLoop p => some p
  | .cancelInLoop _ _ => none

/-- The timers of the add functors among these. -/
def adding (fs : List Functor) : List Addr := fs.filterMap Functor.adds

/-- Both sets with the keys of the timer. -/
def State.linked (s : State) (p : Addr) (t : Timer) : State :=
  { s with
    timerList := (s.timerList.insert (toLex (t.expiration,p))).1
    activeTimers := (s.activeTimers.insert (toLex (p,t.getSequence))).1 }

/-- After addTimerInLoop. -/
def State.added (s : State) (p : Addr) (t : Timer) : State :=
  { s.linked p t with
    arming := if s.earliestChanged t.expiration then some (Reactor.resetTimerFd t.expiration s.clock s.monotonic) else s.arming
    log := s.log ++ [.added t.created t.expiration t.interval s.reads.length] }

/-- After a round of reset that puts the timer back. -/
def State.restarted (s : State) (now : Int) (e : Entry) (t : Timer) : State :=
  { State.linked { s with heap := Function.update s.heap e.timer (some (t.restart now)) } e.timer (t.restart now) with
    log := s.log ++ [.restarted t.created] }

theorem deref_ok {p : Addr} {t : Timer} (ht : s.heap p = some t) : s.deref p = .ok t := by
  rw [State.deref,ht]

theorem assertSizes_ok (h : Indexed s.heap s.timerList s.activeTimers out) : s.assertSizes = .ok () :=
  ensure_of _ h.size_eq

theorem insert_ok {p : Addr} {t : Timer} (h : Indexed s.heap s.timerList s.activeTimers (p :: out)) (ht : s.heap p = some t) :
    s.insert p = .ok (s.linked p t,s.earliestChanged t.expiration) := by
  obtain ⟨hl,ha,hi⟩ := h.link ht
  have hsize : (s.linked p t).assertSizes = .ok () := ensure_of _ hi.size_eq
  rw [State.linked] at hsize
  simp only [State.insert,State.linked,assertSizes_ok h,deref_ok ht,ok_bind,OrderedSet.insert_new _ _ hl,
    OrderedSet.insert_new _ _ ha,ensure_of,hsize]

theorem addTimerInLoop_ok {p : Addr} {t : Timer} (h : Indexed s.heap s.timerList s.activeTimers (p :: out))
    (ht : s.heap p = some t) : s.addTimerInLoop p = .ok (s.added p t) := by
  have hd : (s.linked p t).deref p = .ok t := deref_ok ht
  simp only [State.addTimerInLoop,insert_ok h ht,ok_bind,hd]
  rfl

/-- What cancelInLoop does: it removes and frees a listed timer with this address and
sequence, or notes the id while a batch is fired, or does nothing. -/
inductive Cancelled (s : State) (id : TimerId) (of : Option Nat) : State → Prop
  | removed (t : Timer) (ht : s.heap id.pTimer = some t) (hseq : t.getSequence = id.seq)
      (hlist : toLex (t.expiration,id.pTimer) ∈ s.timerList) :
      Cancelled s id of { s with
        heap := Function.update s.heap id.pTimer none
        timerList := (s.timerList.erase (toLex (t.expiration,id.pTimer))).1
        activeTimers := (s.activeTimers.erase (toLex (id.pTimer,id.seq))).1
        log := s.log ++ [.deleted t.created (some id)] ++ of.toList.map .cancelled }
  | marked (hcalling : s.callingExpiredTimer = true) :
      Cancelled s id of { s with
        cancelTimers := (s.cancelTimers.insert (toLex (id.pTimer,id.seq))).1
        log := s.log ++ of.toList.map .cancelled }
  | ignored (hcalling : s.callingExpiredTimer = false) :
      Cancelled s id of { s with log := s.log ++ of.toList.map .cancelled }

theorem delete_ok {p : Addr} {t : Timer} (ht : s.heap p = some t) (cause : Option TimerId) :
    s.delete p cause = .ok { s with heap := Function.update s.heap p none, log := s.log ++ [.deleted t.created cause] } := by
  simp only [State.delete,deref_ok ht,ok_bind]

theorem cancelTimer_removed {id : TimerId} {t : Timer} (ha : toLex (id.pTimer,id.seq) ∈ s.activeTimers)
    (ht : s.heap id.pTimer = some t) (hlist : toLex (t.expiration,id.pTimer) ∈ s.timerList) :
    s.cancelTimer id = .ok { s with
      heap := Function.update s.heap id.pTimer none
      timerList := (s.timerList.erase (toLex (t.expiration,id.pTimer))).1
      activeTimers := (s.activeTimers.erase (toLex (id.pTimer,id.seq))).1
      log := s.log ++ [.deleted t.created (some id)] } := by
  have hd := delete_ok (s := { s with timerList := (s.timerList.erase (toLex (t.expiration,id.pTimer))).1 }) ht (some id)
  simp only [State.cancelTimer,if_pos ha,deref_ok ht,ok_bind,OrderedSet.erase_count _ _ hlist,ensure_of]
  rw [hd,ok_bind]

theorem cancelInLoop_eq {u : State} {id : TimerId} (of : Option Nat) (h : Indexed s.heap s.timerList s.activeTimers out)
    (hc : s.cancelTimer id = .ok u) (hu : Indexed u.heap u.timerList u.activeTimers out) :
    s.cancelInLoop id of = .ok { u with log := u.log ++ of.toList.map .cancelled } := by
  simp only [State.cancelInLoop,assertSizes_ok h,hc,assertSizes_ok hu,ok_bind]

/-- A key of the active set is the one of a listed timer. -/
theorem Indexed.of_active {p : Addr} {seq : Int} {heap : Addr → Option Timer} {list : OrderedSet Entry}
    {active : OrderedSet ActiveTimer} (h : Indexed heap list active out) (ha : toLex (p,seq) ∈ active) :
    ∃ t, heap p = some t ∧ t.getSequence = seq ∧ toLex (t.expiration,p) ∈ list := by
  obtain ⟨e,he,heq⟩ := (h.active _).mp ha
  have hp : p = e.timer := congrArg (fun a => (ofLex a).1) heq
  obtain ⟨t,ht,-⟩ := h.keyed e he
  have hseq : seq = t.getSequence := (Prod.mk.inj (toLex_inj.mp (heq.trans (activeKey_eq ht)))).2
  have hentry := h.entry_eq he ht
  subst hp
  exact ⟨t,ht,hseq.symm,hentry ▸ he⟩

theorem Cancelled.indexed {id : TimerId} {of : Option Nat} {t : State} (hc : Cancelled s id of t)
    (h : Indexed s.heap s.timerList s.activeTimers out) : Indexed t.heap t.timerList t.activeTimers out := by
  cases hc with
  | removed u ht hseq hlist => exact hseq ▸ (h.unlink hlist ht).free
  | marked | ignored => exact h

theorem cancelInLoop_ok (h : Indexed s.heap s.timerList s.activeTimers out) (id : TimerId) (of : Option Nat) :
    ∃ t, s.cancelInLoop id of = .ok t ∧ Cancelled s id of t := by
  by_cases hm : toLex (id.pTimer,id.seq) ∈ s.activeTimers
  · obtain ⟨t,ht,hseq,hlist⟩ := h.of_active hm
    have hi := (h.unlink hlist ht).free
    rw [hseq] at hi
    exact ⟨_,cancelInLoop_eq of h (cancelTimer_removed hm ht hlist) hi,.removed t ht hseq hlist⟩
  · by_cases hc : s.callingExpiredTimer = true
    · have he : s.cancelTimer id = .ok { s with cancelTimers := (s.cancelTimers.insert (toLex (id.pTimer,id.seq))).1 } := by
        rw [State.cancelTimer,if_neg hm,if_pos hc]
      exact ⟨_,cancelInLoop_eq of h he h,.marked hc⟩
    · have he : s.cancelTimer id = .ok s := by
        rw [State.cancelTimer,if_neg hm,if_neg hc]
      exact ⟨_,cancelInLoop_eq of h he h,.ignored (Bool.eq_false_iff.mpr hc)⟩

theorem eraseActive_all (es : List Entry) (s : State) (hnd : (es.map Entry.timer).Nodup)
    (hlive : ∀ e ∈ es, ∃ t, s.heap e.timer = some t) (hmem : ∀ e ∈ es, activeKey s.heap e.timer ∈ s.activeTimers) :
    ∃ active, es.foldlM State.eraseActive s = .ok { s with activeTimers := active } ∧
      ∀ a, a ∈ active ↔ a ∈ s.activeTimers ∧ ∀ e ∈ es, a ≠ activeKey s.heap e.timer := by
  induction es generalizing s with
  | nil => exact ⟨s.activeTimers,rfl,fun a => by simp⟩
  | cons e es ih =>
    obtain ⟨hne,hnd⟩ := List.nodup_cons.mp hnd
    obtain ⟨t,ht⟩ := hlive e List.mem_cons_self
    have hk := activeKey_eq ht
    have he := hmem e List.mem_cons_self
    rw [hk] at he
    have hstep : s.eraseActive e = .ok { s with activeTimers := (s.activeTimers.erase (toLex (e.timer,t.getSequence))).1 } := by
      simp only [State.eraseActive,deref_ok ht,ok_bind,OrderedSet.erase_count _ _ he,ensure_of]
    obtain ⟨active,hf,ha⟩ := ih { s with activeTimers := (s.activeTimers.erase (toLex (e.timer,t.getSequence))).1 } hnd
      (fun f hf => hlive f (List.mem_cons_of_mem _ hf))
      (fun f hf => (OrderedSet.mem_erase _ _ _).mpr ⟨fun heq =>
        hne (List.mem_map.mpr ⟨f,hf,congrArg (fun a => (ofLex a).1) heq⟩),hmem f (List.mem_cons_of_mem _ hf)⟩)
    refine ⟨active,?_,fun a => ?_⟩
    · rw [List.foldlM_cons,hstep,ok_bind,hf]
    · rw [ha,OrderedSet.mem_erase,List.forall_mem_cons,hk]
      tauto

/-- getExpired takes the entries up to the reading out of both sets. -/
theorem getExpired_ok (h : Indexed s.heap s.timerList s.activeTimers out) (now : Int) :
    ∃ active, s.getExpired now =
        .ok ({ s with timerList := s.timerList.onward (sentry now), activeTimers := active },s.timerList.before (sentry now)) ∧
      Indexed s.heap (s.timerList.onward (sentry now)) active (out ++ (s.timerList.before (sentry now)).map Entry.timer) := by
  have hlisted : ∀ e ∈ s.timerList.before (sentry now), e ∈ s.timerList := fun e he =>
    ((OrderedSet.mem_before _ _ _).mp he).1
  obtain ⟨active,hf,ha⟩ := eraseActive_all (s.timerList.before (sentry now))
    { s with timerList := s.timerList.onward (sentry now) }
    (List.Nodup.map_on (fun e he f hf heq => h.timer_inj (hlisted e he) (hlisted f hf) heq)
      (s.timerList.before_sorted _ |>.imp ne_of_lt))
    (fun e he => (h.keyed e (hlisted e he)).imp fun _ ht => ht.1)
    (fun e he => (h.active _).mpr ⟨e,hlisted e he,rfl⟩)
  have hi := h.cut (sentry now) ha
  have hassert : ∀ e ∈ (s.timerList.onward (sentry now)).first?, now < e.when := fun e he => by
    obtain ⟨hm,hle⟩ := (OrderedSet.mem_onward _ _ _).mp (OrderedSet.first_mem _ _ he)
    obtain ⟨t,ht,-⟩ := h.keyed e hm
    exact (sentry_le (h.bounded _ _ ht)).mp hle
  have hsize := assertSizes_ok (s := { s with timerList := s.timerList.onward (sentry now), activeTimers := active }) hi
  refine ⟨active,?_,hi⟩
  rw [sentry] at hf hsize hassert ⊢
  simp only [State.getExpired,assertSizes_ok h,ok_bind,ensure_of _ hassert,hf,hsize]

theorem restarted_indexed {e : Entry} {t : Timer} (h : Indexed s.heap s.timerList s.activeTimers (e.timer :: out)) (now : Int) :
    Indexed (s.restarted now e t).heap (s.restarted now e t).timerList (s.restarted now e t).activeTimers out :=
  ((h.replace (t.restart now)).link (Function.update_self ..)).2.2

theorem resetTimer_restart {e : Entry} {t : Timer} (h : Indexed s.heap s.timerList s.activeTimers (e.timer :: out))
    (now : Int) (ht : s.heap e.timer = some t)
    (hk : t.isReapeat = true ∧ toLex (e.timer,t.getSequence) ∉ s.cancelTimers) :
    s.resetTimer now e = .ok (s.restarted now e t) := by
  have hr := insert_ok (s := { s with heap := Function.update s.heap e.timer (some (t.restart now)) })
    (h.replace (t.restart now)) (Function.update_self ..)
  simp only [State.resetTimer,deref_ok ht,ok_bind,if_pos hk]
  rw [hr]
  rfl

theorem resetTimer_delete {e : Entry} {t : Timer} (now : Int) (ht : s.heap e.timer = some t)
    (hk : ¬ (t.isReapeat = true ∧ toLex (e.timer,t.getSequence) ∉ s.cancelTimers)) :
    s.resetTimer now e = .ok { s with
      heap := Function.update s.heap e.timer none
      log := s.log ++ [.deleted t.created (if t.isReapeat then some ⟨e.timer,t.getSequence⟩ else none)] } := by
  simp only [State.resetTimer,deref_ok ht,ok_bind,if_neg hk,delete_ok ht]

/-- The time of the first entry, or an invalid one. -/
def State.earliest (s : State) : Int := s.timerList.first?.elim invalid Entry.when

theorem nextExpired_ok (h : Indexed s.heap s.timerList s.activeTimers out) : s.nextExpired = .ok s.earliest := by
  rw [State.nextExpired,State.earliest]
  cases hf : s.timerList.first? with
  | none => rfl
  | some e =>
    obtain ⟨t,ht,hw⟩ := h.keyed e (OrderedSet.first_mem _ _ hf)
    simp only [deref_ok ht,ok_bind,hw,Option.elim_some]

theorem resetFd_ok (h : Indexed s.heap s.timerList s.activeTimers out) :
    s.resetFd = .ok { s with
      arming := if isValid s.earliest then some (Reactor.resetTimerFd s.earliest s.clock s.monotonic) else s.arming } := by
  simp only [State.resetFd,nextExpired_ok h,ok_bind]
  split <;> rfl

end Operations

/-- The invariant of the queue: the indexes, with the timers of add functors and of
the batch outside them, and the history. -/
structure Inv (s : State) : Prop where
  indexed : Indexed s.heap s.timerList s.activeTimers (adding s.functors ++ s.phase.batch.map Entry.timer)
  recorded : Recorded s.heap s.numCreated s.log
  batched : ∀ e ∈ s.phase.batch, ∃ t, s.heap e.timer = some t ∧ t.expiration = e.when
  kept : Kept s.heap s.timerId s.log

/-- A Cancel with this id, which AddTimer returned for the given timer if any. -/
def Label.Cancels (s : State) (inLoop : Bool) (id : TimerId) (of : Option Nat) : Label → Prop
  | .cancel b k => b = inLoop ∧ of = some k ∧ s.timerId k = some id
  | .cancelId b i => b = inLoop ∧ of = none ∧ i = id
  | _ => False

/-- What a step of the queue does, by its branches. -/
inductive Move (s : State) : Label → State → Prop
  | queueTimer (p : Addr) (expiration : Int) (dInterval : Interval) (hp : s.heap p = none) (hb : p < uintptrMax) :
      Move s (.addTimer false p expiration dInterval)
        { s.newTimer p expiration dInterval with functors := s.functors ++ [.addTimerInLoop p] }
  | addTimer (p : Addr) (expiration : Int) (dInterval : Interval) (hp : s.heap p = none) (hb : p < uintptrMax) :
      Move s (.addTimer true p expiration dInterval)
        ((s.newTimer p expiration dInterval).added p ⟨expiration,dInterval,s.numCreated + 1⟩)
  | queueCancel (a : Label) (id : TimerId) (of : Option Nat) (ha : a.Cancels s false id of) :
      Move s a { s with functors := s.functors ++ [.cancelInLoop id of] }
  | cancel (a : Label) (id : TimerId) (of : Option Nat) (t : State) (ha : a.Cancels s true id of)
      (ht : Cancelled s id of t) : Move s a t
  | runAdd (p : Addr) (rest : List Functor) (t : Timer) (hf : s.functors = .addTimerInLoop p :: rest)
      (ht : s.heap p = some t) (hidle : s.phase = .idle) : Move s .runFunctor (State.added { s with functors := rest } p t)
  | runCancel (id : TimerId) (of : Option Nat) (rest : List Functor) (t : State)
      (hf : s.functors = .cancelInLoop id of :: rest) (hidle : s.phase = .idle)
      (ht : Cancelled { s with functors := rest } id of t) : Move s .runFunctor t
  | otherQueue : Move s .otherQueue { s with numCreated := s.numCreated + 1 }
  | setClock (now : Int) : Move s (.setClock now) { s with clock := now }
  | advance (micros : Nat) :
      Move s (.advance micros) { s with clock := s.clock + micros, monotonic := s.monotonic + micros }
  | timerFdExpires (deadline readAt armedAt : Int) (hfd : s.timerFd = .armed deadline readAt armedAt) :
      Move s .timerFdExpires { s with timerFd := .readable deadline readAt armedAt }
  | settime (a : Arming) (ha : s.arming = some a) :
      Move s .settime { s with timerFd := s.timerFd.settime s.monotonic a, arming := none }
  | handleRead (hidle : s.phase = .idle) : Move s .handleRead { s with phase := .entered s.clock }
  | readTimerFd (now : Int) (active : OrderedSet ActiveTimer) (hp : s.phase = .entered now)
      (hi : Indexed s.heap (s.timerList.onward (sentry now)) active
        (adding s.functors ++ (s.timerList.before (sentry now)).map Entry.timer)) :
      Move s .readTimerFd { s with
        timerFd := s.timerFd.readTimerFd
        timerList := s.timerList.onward (sentry now)
        activeTimers := active
        callingExpiredTimer := true
        cancelTimers := .empty
        phase := .firing now [] (s.timerList.before (sentry now))
        reads := s.reads ++ [now] }
  | runTimer (now : Int) (ran : List Entry) (e : Entry) (rest : List Entry) (t : Timer)
      (hp : s.phase = .firing now ran (e :: rest)) (ht : s.heap e.timer = some t) (hw : t.expiration = e.when) :
      Move s .runTimer { s with
        phase := .firing now (ran ++ [e]) rest
        log := s.log ++ [.started t.created (s.reads.length - 1) t.expiration] }
  | endTimers (now : Int) (ran : List Entry) (hp : s.phase = .firing now ran []) :
      Move s .endTimers { s with callingExpiredTimer := false, phase := .resetting now ran }
  | restart (now : Int) (e : Entry) (rest : List Entry) (t : Timer) (hp : s.phase = .resetting now (e :: rest))
      (ht : s.heap e.timer = some t) (hw : t.expiration = e.when) (hr : t.isReapeat = true) :
      Move s .resetTimer { s.restarted now e t with phase := .resetting now rest }
  | retire (now : Int) (e : Entry) (rest : List Entry) (t : Timer) (hp : s.phase = .resetting now (e :: rest))
      (ht : s.heap e.timer = some t) (hw : t.expiration = e.when)
      (hr : t.isReapeat = true → toLex (e.timer,t.getSequence) ∈ s.cancelTimers) :
      Move s .resetTimer { s with
        heap := Function.update s.heap e.timer none
        log := s.log ++ [.deleted t.created (if t.isReapeat then some ⟨e.timer,t.getSequence⟩ else none)]
        phase := .resetting now rest }
  | resetTimerFd (now : Int) (hp : s.phase = .resetting now []) :
      Move s .resetTimerFd { s with
        arming := if isValid s.earliest then some (Reactor.resetTimerFd s.earliest s.clock s.monotonic) else s.arming
        phase := .idle }

section Steps
variable {s : State}

/-- A branch that is not taken, or one that is and does a known thing. -/
private def Moves (s : State) (a : Label) (r : Except Halt State) : Prop :=
  r = .error .notEnabled ∨ ∃ t, r = .ok t ∧ Move s a t

private theorem moves_ensure {a : Label} {p : Prop} [Decidable p] {r : Except Halt State} (h : p → Moves s a r) :
    Moves s a (ensure .notEnabled p >>= fun _ => r) := by
  by_cases hp : p
  · rw [ensure_of _ hp]
    exact h hp
  · rw [ensure_not _ hp]
    exact .inl rfl

private theorem moves_ok {a : Label} {t : State} (h : Move s a t) : Moves s a (.ok t) := .inr ⟨t,rfl,h⟩

theorem adding_append (fs : List Functor) (f : Functor) : adding (fs ++ [f]) = adding fs ++ f.adds.toList := by
  rw [adding,List.filterMap_append]
  cases f <;> rfl

private theorem moves_cancel (hi : Inv s) (a : Label) (id : TimerId) (of : Option Nat) (inLoop : Bool)
    (ha : a.Cancels s inLoop id of) : Moves s a (s.runInLoop inLoop (.cancelInLoop id of)) := by
  cases inLoop with
  | false => exact moves_ok (.queueCancel a id of ha)
  | true =>
    obtain ⟨t,ht,hc⟩ := cancelInLoop_ok hi.indexed id of
    change Moves s a (s.cancelInLoop id of)
    rw [ht]
    exact moves_ok (.cancel a id of t ha hc)

/-- Every step either is not enabled or completes, as one of the moves: no assertion
fails and no freed timer is touched. -/
theorem step_moves (hi : Inv s) (a : Label) : step s a = .error .notEnabled ∨ ∃ t, step s a = .ok t ∧ Move s a t := by
  change Moves s a (step s a)
  cases a with
  | addTimer inLoop p expiration dInterval =>
    refine moves_ensure ?_
    rintro ⟨hp,hb,-⟩
    cases inLoop with
    | false => exact moves_ok (.queueTimer p expiration dInterval hp hb)
    | true =>
      have hok := addTimerInLoop_ok (s := s.newTimer p expiration dInterval) (hi.indexed.alloc hp hb _) (Function.update_self ..)
      change Moves s _ ((s.newTimer p expiration dInterval).addTimerInLoop p)
      rw [hok]
      exact moves_ok (.addTimer p expiration dInterval hp hb)
  | cancel inLoop k =>
    rw [step]
    split
    · exact .inl rfl
    · rename_i id hid
      exact moves_ensure fun _ => moves_cancel hi (.cancel inLoop k) id (some k) inLoop ⟨rfl,rfl,hid⟩
  | cancelId inLoop id => exact moves_ensure fun _ => moves_cancel hi (.cancelId inLoop id) id none inLoop ⟨rfl,rfl,rfl⟩
  | runFunctor =>
    rw [step]
    split
    · exact .inl rfl
    · rename_i f rest hf
      refine moves_ensure fun hout => ?_
      have h := hi.indexed
      rw [hf] at h
      cases f with
      | addTimerInLoop p =>
        obtain ⟨t,ht⟩ := h.alive (p := p) List.mem_cons_self
        have hok := addTimerInLoop_ok (s := { s with functors := rest }) (p := p) h ht
        change Moves s _ (State.addTimerInLoop { s with functors := rest } p)
        rw [hok]
        exact moves_ok (.runAdd p rest t hf ht hout.1)
      | cancelInLoop id of =>
        obtain ⟨t,ht,hc⟩ := cancelInLoop_ok (s := { s with functors := rest }) h id of
        change Moves s _ (State.cancelInLoop { s with functors := rest } id of)
        rw [ht]
        exact moves_ok (.runCancel id of rest t hf hout.1 hc)
  | otherQueue => exact moves_ok .otherQueue
  | setClock now => exact moves_ok (.setClock now)
  | advance micros => exact moves_ok (.advance micros)
  | timerFdExpires =>
    rw [step]
    split
    · rename_i deadline readAt armedAt hfd
      exact moves_ensure fun _ => moves_ok (.timerFdExpires deadline readAt armedAt hfd)
    · exact .inl rfl
  | settime =>
    rw [step]
    split
    · rename_i a ha
      exact moves_ok (.settime a ha)
    · exact .inl rfl
  | handleRead => exact moves_ensure fun hout => moves_ok (.handleRead hout.1)
  | readTimerFd =>
    rw [step]
    split
    · rename_i now hp
      have h := hi.indexed
      rw [hp] at h
      simp only [Phase.batch,List.map_nil,List.append_nil] at h
      obtain ⟨active,hok,ha⟩ := getExpired_ok (s := { s with timerFd := s.timerFd.readTimerFd }) h now
      rw [hok,ok_bind]
      exact moves_ok (.readTimerFd now active hp ha)
    · exact .inl rfl
  | runTimer =>
    rw [step]
    split
    · rename_i now ran e rest hp
      obtain ⟨t,ht,hw⟩ := hi.batched e (Phase.mem_batch_firing hp)
      rw [deref_ok ht,ok_bind]
      exact moves_ensure fun _ => moves_ok (.runTimer now ran e rest t hp ht hw)
    · exact .inl rfl
  | endTimers =>
    rw [step]
    split
    · rename_i now ran hp
      exact moves_ensure fun _ => moves_ok (.endTimers now ran hp)
    · exact .inl rfl
  | resetTimer =>
    rw [step]
    split
    · rename_i now e rest hp
      obtain ⟨t,ht,hw⟩ := hi.batched e (Phase.mem_batch_resetting hp)
      by_cases hk : t.isReapeat = true ∧ toLex (e.timer,t.getSequence) ∉ s.cancelTimers
      · have h := hi.indexed
        rw [hp] at h
        rw [resetTimer_restart (h.perm List.perm_middle) now ht hk,ok_bind]
        exact moves_ok (.restart now e rest t hp ht hw hk.1)
      · rw [resetTimer_delete now ht hk,ok_bind]
        exact moves_ok (.retire now e rest t hp ht hw fun hr => not_not.mp fun hn => hk ⟨hr,hn⟩)
    · exact .inl rfl
  | resetTimerFd =>
    rw [step]
    split
    · rename_i now hp
      rw [resetFd_ok hi.indexed,ok_bind]
      exact moves_ok (.resetTimerFd now hp)
    · exact .inl rfl

/-- Entries whose timers keep their place on the heap. -/
private theorem batched_update {heap : Addr → Option Timer} {es : List Entry} {p : Addr} (x : Option Timer)
    (h : ∀ e ∈ es, ∃ t, heap e.timer = some t ∧ t.expiration = e.when) (hp : ∀ e ∈ es, e.timer ≠ p) :
    ∀ e ∈ es, ∃ t, Function.update heap p x e.timer = some t ∧ t.expiration = e.when := fun e he => by
  rw [Function.update_of_ne (hp e he)]
  exact h e he

/-- A timer of the batch is there once. -/
theorem Inv.batch_ne (hi : Inv s) {now : Int} {e : Entry} {rest : List Entry} (hp : s.phase = .resetting now (e :: rest)) :
    ∀ f ∈ rest, f.timer ≠ e.timer := fun f hf heq => by
  have h := (List.nodup_append.mp (List.nodup_append.mp hi.indexed.nodup).1).2.1
  rw [hp] at h
  exact (List.nodup_cons.mp h).1 (List.mem_map.mpr ⟨f,hf,heq⟩)

theorem inv_initial (clock monotonic : Int) (numCreated : Nat) : Inv (initial clock monotonic numCreated) :=
  ⟨indexed_empty,recorded_empty,fun _ h => (by cases h),fun _ h => absurd rfl h⟩

theorem Inv.fresh_ne (hi : Inv s) {p : Addr} (hp : s.heap p = none) : ∀ e ∈ s.phase.batch, e.timer ≠ p :=
  fun e he heq => by
    obtain ⟨t,ht,-⟩ := hi.batched e he
    rw [heq,hp] at ht
    cases ht

theorem Inv.listed_ne (hi : Inv s) {f : Entry} (hf : f ∈ s.timerList) : ∀ e ∈ s.phase.batch, e.timer ≠ f.timer :=
  fun _ he heq => hi.indexed.listed_ne (List.mem_append_right _ (List.mem_map_of_mem he)) hf heq.symm

/-- A functor of a Cancel that is taken from the queue. -/
theorem Inv.popped (hi : Inv s) {id : TimerId} {of : Option Nat} {rest : List Functor}
    (hf : s.functors = .cancelInLoop id of :: rest) : Inv { s with functors := rest } := by
  have h := hi.indexed
  rw [hf] at h
  exact ⟨h,hi.recorded,hi.batched,hi.kept⟩

theorem inv_cancelled {id : TimerId} {of : Option Nat} {t : State} (hi : Inv s) (hc : Cancelled s id of t) : Inv t := by
  have hx := hc.indexed hi.indexed
  cases hc with
  | removed u ht hseq hlist =>
    exact ⟨hx,(hi.recorded.free ht _).cancelled of,batched_update none hi.batched (hi.listed_ne hlist),
      (hi.kept.free ht _).append _⟩
  | marked | ignored => exact ⟨hx,hi.recorded.cancelled of,hi.batched,hi.kept.append _⟩

theorem inv_move {a : Label} {t : State} (hi : Inv s) (hm : Move s a t) : Inv t := by
  cases hm with
  | queueTimer p expiration dInterval hp hb =>
    refine ⟨?_,hi.recorded.alloc expiration dInterval,batched_update _ hi.batched (hi.fresh_ne hp),hi.kept.alloc hp _⟩
    change Indexed _ _ _ (adding (s.functors ++ [.addTimerInLoop p]) ++ _)
    rw [adding_append,List.append_assoc]
    exact (hi.indexed.alloc hp hb _).perm List.perm_middle.symm
  | addTimer p expiration dInterval hp hb =>
    have hself := Function.update_self p (some ⟨expiration,dInterval,s.numCreated + 1⟩) s.heap
    exact ⟨((hi.indexed.alloc hp hb _).link hself).2.2,
      (hi.recorded.alloc expiration dInterval).touch hself (fun _ h => h) fun _ _ => Event.noConfusion,
      batched_update _ hi.batched (hi.fresh_ne hp),(hi.kept.alloc hp _).append _⟩
  | queueCancel _ id of ha =>
    refine ⟨?_,hi.recorded,hi.batched,hi.kept⟩
    change Indexed _ _ _ (adding (s.functors ++ [.cancelInLoop id of]) ++ _)
    rw [adding_append]
    simpa only [Functor.adds,Option.toList_none,List.append_nil] using hi.indexed
  | cancel _ id of _ ha ht => exact inv_cancelled hi ht
  | runAdd p rest u hf hu hidle =>
    have h := hi.indexed
    rw [hf] at h
    exact ⟨(h.link (p := p) hu).2.2,hi.recorded.touch hu (fun _ h => h) fun _ _ => Event.noConfusion,hi.batched,
      hi.kept.append _⟩
  | runCancel id of rest _ hf hidle ht =>
    exact inv_cancelled (hi.popped hf) ht
  | otherQueue => exact ⟨hi.indexed,hi.recorded.mono (Nat.le_succ _),hi.batched,hi.kept⟩
  | setClock | advance | timerFdExpires | settime => exact ⟨hi.indexed,hi.recorded,hi.batched,hi.kept⟩
  | handleRead hidle =>
    have h := hi.indexed
    rw [hidle] at h
    exact ⟨h,hi.recorded,fun _ h => (by cases h),hi.kept⟩
  | readTimerFd now active hp ha =>
    refine ⟨ha,hi.recorded,fun e he => ?_,hi.kept⟩
    exact hi.indexed.keyed e ((OrderedSet.mem_before _ _ _).mp he).1
  | runTimer now ran e rest u hp hu hw =>
    have hb : s.phase.batch = ran ++ [e] ++ rest := by rw [hp,Phase.batch,List.append_cons]
    refine ⟨?_,hi.recorded.touch hu (fun _ h => h) fun _ _ => Event.noConfusion,?_,hi.kept.append _⟩
    · change Indexed _ _ _ (_ ++ (ran ++ [e] ++ rest).map Entry.timer)
      rw [← hb]
      exact hi.indexed
    · change ∀ f ∈ ran ++ [e] ++ rest, _
      rw [← hb]
      exact hi.batched
  | endTimers now ran hp =>
    have hb : s.phase.batch = ran := by rw [hp,Phase.batch,List.append_nil]
    refine ⟨?_,hi.recorded,?_,hi.kept⟩
    · change Indexed _ _ _ (_ ++ ran.map Entry.timer)
      rw [← hb]
      exact hi.indexed
    · change ∀ f ∈ ran, _
      rw [← hb]
      exact hi.batched
  | restart now e rest u hp hu hw hr =>
    have h := hi.indexed
    have hb := hi.batched
    rw [hp] at h hb
    refine ⟨restarted_indexed (h.perm List.perm_middle) now,?_,?_,(hi.kept.replace (u := u.restart now) hu rfl).append _⟩
    · refine (hi.recorded.touch (a := .restarted u.created) hu (fun _ h => h) fun _ _ => Event.noConfusion).of_heap
        fun q v hv => ?_
      change Function.update s.heap e.timer (some (u.restart now)) q = some v at hv
      rw [Function.update_apply] at hv
      split at hv
      · rename_i hq
        cases hv
        exact ⟨u,hq ▸ hu,rfl⟩
      · exact ⟨v,hv,rfl⟩
    · exact batched_update _ (fun f hf => hb f (List.mem_cons_of_mem _ hf)) (hi.batch_ne hp)
  | retire now e rest u hp hu hw hr =>
    have h := hi.indexed
    have hb := hi.batched
    rw [hp] at h hb
    exact ⟨(h.perm List.perm_middle).free,hi.recorded.free hu _,
      batched_update _ (fun f hf => hb f (List.mem_cons_of_mem _ hf)) (hi.batch_ne hp),hi.kept.free hu _⟩
  | resetTimerFd now hp =>
    have h := hi.indexed
    rw [hp] at h
    exact ⟨h,hi.recorded,fun _ h => (by cases h),hi.kept⟩

theorem move_of_step {a : Label} {t : State} (hi : Inv s) (hs : step s a = .ok t) : Move s a t := by
  obtain he | ⟨u,hu,hm⟩ := step_moves hi a
  · cases hs.symm.trans he
  · cases hs.symm.trans hu
    exact hm

theorem inv_reachable (h : machine.Reachable s) : Inv s := by
  refine h.invariant (P := Inv) (fun s hs => ?_) (fun s a t hi hs => ?_)
  · obtain ⟨clock,monotonic,numCreated,rfl⟩ := hs
    exact inv_initial clock monotonic numCreated
  · exact inv_move hi (move_of_step hi hs)

/-- The two indexes hold the same timers, the list under their present expirations
and the active set under their sequences; every timer on the heap is in one add
functor, in the batch or in the list, and every timer made was deleted or is there; a
deleted timer is not inserted, run or deleted any more. -/
structure Consistent (s : State) : Prop where
  listed : ∀ expiration p, toLex (expiration,p) ∈ s.timerList ↔
    ∃ t, s.heap p = some t ∧ t.expiration = expiration ∧ toLex (p,t.getSequence) ∈ s.activeTimers
  active : ∀ p seq, toLex (p,seq) ∈ s.activeTimers ↔
    ∃ t, s.heap p = some t ∧ t.getSequence = seq ∧ toLex (t.expiration,p) ∈ s.timerList
  live : ∀ p, (∃ t, s.heap p = some t) ↔
    p ∈ adding s.functors ∨ p ∈ s.phase.batch.map Entry.timer ∨ p ∈ s.timerList.toList.map Entry.timer
  places : (adding s.functors ++ s.phase.batch.map Entry.timer ++ s.timerList.toList.map Entry.timer).Nodup
  numbered : ∀ p q t u, s.heap p = some t → s.heap q = some u → t.created = u.created → p = q
  kept : ∀ k, s.timerId k ≠ none → (∃ p t, s.heap p = some t ∧ t.created = k) ∨ ∃ cause, .deleted k cause ∈ s.log
  once : s.log.Pairwise fun a b => ∀ k cause, a = .deleted k cause → ¬ b.touches k

theorem Inv.consistent (hi : Inv s) : Consistent s := by
  have h := hi.indexed
  refine ⟨fun expiration p => ⟨fun hm => ?_,?_⟩,fun p seq => ⟨h.of_active,?_⟩,fun p => ?_,h.nodup,
    hi.recorded.distinct,hi.kept,hi.recorded.once⟩
  · obtain ⟨t,ht,hw⟩ := h.keyed _ hm
    exact ⟨t,ht,hw,(h.active _).mpr ⟨_,hm,(activeKey_eq ht).symm⟩⟩
  · rintro ⟨t,ht,rfl,ha⟩
    obtain ⟨u,hu,-,hl⟩ := h.of_active ha
    cases ht.symm.trans hu
    exact hl
  · rintro ⟨t,ht,rfl,hl⟩
    exact (h.active _).mpr ⟨_,hl,(activeKey_eq ht).symm⟩
  · rw [h.live,List.mem_append,List.mem_append,or_assoc]

/-- On every run the indexes are consistent, and no step fails an assertion of the
queue or touches a freed timer: what is enabled completes, and consistently. -/
theorem indexes_never_diverge (h : machine.Reachable s) :
    Consistent s ∧ ∀ a, step s a = .error .notEnabled ∨ ∃ t, step s a = .ok t ∧ Consistent t := by
  have hi := inv_reachable h
  refine ⟨hi.consistent,fun a => (step_moves hi a).imp_right ?_⟩
  rintro ⟨t,ht,hm⟩
  exact ⟨t,ht,(inv_move hi hm).consistent⟩

/-- A repeating timer that adds a timer and cancels a forged id and its own, while
another thread's timer waits in its functor. -/
theorem indexes_never_diverge_callBack :
    ∃ s, machine.Reachable s ∧ s.timerList.toList = [toLex (7,2),toLex (13,1)] ∧ adding s.functors = [3] ∧ Consistent s := by
  obtain ⟨s,hr,hv⟩ := machine.exists_reachable ⟨10,0,0,rfl⟩
    [.addTimer true 1 8 ⟨true,3,by decide,by decide⟩,.settime,.handleRead,.readTimerFd,.runTimer,
      .addTimer true 2 7 ⟨false,0,by decide,by decide⟩,.settime,.cancelId true ⟨2,9⟩,.cancel true 1,.addTimer false 3 9 ⟨false,0,by decide,by decide⟩,.endTimers,.resetTimer,.resetTimerFd]
    (fun s => (s.timerList.toList,adding s.functors)) (b := ([toLex (7,2),toLex (13,1)],[3])) (by decide +kernel)
  simp only [Prod.mk.injEq] at hv
  exact ⟨s,hr,hv.1,hv.2,(indexes_never_diverge hr).1⟩

end Steps

end LinuxServer.Reactor.TimerQueue
