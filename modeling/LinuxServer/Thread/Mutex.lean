import LinuxServer.Lib.Condition

/-! A mutex that records its holder, and a condition on it, step by step. The wait functions
give up and take again the mutex underneath, and know nothing of the record. -/
namespace LinuxServer.Thread.Mutex
open LinuxServer.Lib

structure Timespec where
  tv_sec : Int
  tv_nsec : Int
  deriving DecidableEq

/-- The time until which WaitForSeconds waits, with the time of its call. -/
def deadline (now : Timespec) (nSeconds : Int) : Timespec := { now with tv_sec := nSeconds }

/-- The threads' ids, as the kernel gives them out. -/
structure Tids (θ : Type) where
  tid : θ → Int
  injective : Function.Injective tid
  positive : ∀ t, 0 < tid t

/-- Where a thread is in the functions of the mutex and the condition. -/
inductive Place where
  | outside
  /-- In Lock: it has the mutex and has not yet set the holder. -/
  | acquired
  /-- Lock or a wait has returned, and Unlock has not begun. -/
  | inside
  /-- In Unlock: the holder is cleared, the mutex not yet given up. -/
  | releasing
  /-- In a wait, asleep or in front of the mutex. -/
  | inWait
  deriving DecidableEq

structure State (θ : Type) [DecidableEq θ] where
  /-- Who has m_Mutex. -/
  mutex : Option θ
  holder : Int
  cond : Condition θ
  place : θ → Place

inductive Label (θ : Type) where
  /-- In Lock, pthread_mutex_lock returns. -/
  | lock (t : θ)
  | setHolder (t : θ)
  | clearHolder (t : θ)
  | unlock (t : θ)
  | wait (t : θ)
  | waitForSeconds (t : θ) (now : Timespec) (nSeconds : Int)
  /-- A sleeper's time is over, or it wakes for no reason. -/
  | wake (t : θ)
  /-- A wait takes the mutex and returns. -/
  | resume (t : θ)
  | notify (woken : Option θ)
  | notifyAll
  deriving DecidableEq

section Functions
variable {θ : Type} [DecidableEq θ] (threads : Tids θ)

def initial : State θ := ⟨none,0,.idle,fun _ => .outside⟩

def isLockedByThisThread (s : State θ) (t : θ) : Bool := s.holder = threads.tid t

def assertLocked (s : State θ) (t : θ) : Except Halt Unit :=
  ensure (.assertion "IsLockedByThisThread()") (isLockedByThisThread threads s t)

def goto (s : State θ) (t : θ) (p : Place) : State θ := { s with place := Function.update s.place t p }

/-- pthread_cond_wait and pthread_cond_timedwait up to the sleep. -/
def sleep (s : State θ) (t : θ) : Except Halt (State θ) := do
  ensure .notEnabled (s.place t = .inside)
  .ok (goto { s with mutex := none, cond := s.cond.wait t } t .inWait)

def step (s : State θ) : Label θ → Except Halt (State θ)
  | .lock t => do
    ensure .notEnabled (s.place t = .outside ∧ s.mutex = none)
    .ok (goto { s with mutex := some t } t .acquired)
  | .setHolder t => do
    ensure .notEnabled (s.place t = .acquired)
    .ok (goto { s with holder := threads.tid t } t .inside)
  | .clearHolder t => do
    ensure .notEnabled (s.place t = .inside)
    .ok (goto { s with holder := 0 } t .releasing)
  | .unlock t => do
    ensure .notEnabled (s.place t = .releasing)
    .ok (goto { s with mutex := none } t .outside)
  | .wait t => sleep s t
  | .waitForSeconds t _ _ => sleep s t
  | .wake t => do
    ensure .notEnabled (t ∈ s.cond.waiting)
    .ok { s with cond := s.cond.wake t }
  | .resume t => do
    ensure .notEnabled (t ∈ s.cond.woken ∧ s.mutex = none)
    .ok (goto { s with mutex := some t, cond := s.cond.resume t } t .inside)
  | .notify woken => do
    ensure .notEnabled (s.cond.CanNotify woken)
    .ok { s with cond := s.cond.notify woken }
  | .notifyAll => .ok { s with cond := s.cond.notifyAll }

def machine : Machine (State θ) (Label θ) Halt := ⟨fun s => s = initial,step threads⟩

/-- The recorded holder is the thread inside the critical section, and nobody else. -/
def HolderRecorded (s : State θ) : Prop :=
  ∀ t, s.place t = .inside → isLockedByThisThread threads s t = true ∧ assertLocked threads s t = .ok () ∧
    ∀ u ≠ t, isLockedByThisThread threads s u = false

/-- The label begins a wait of the thread. -/
def Label.Waits (t : θ) : Label θ → Bool
  | .wait u => u = t
  | .waitForSeconds u _ _ => u = t
  | _ => false

/-- What has happened since the thread's last wait began. -/
def sinceWait (t : θ) (labels : List (Label θ)) : List (Label θ) := labels.rtakeWhile fun a => !a.Waits t

/-- A thread has got the mutex in Lock since then. -/
def LockedSince (t : θ) (labels : List (Label θ)) : Prop := ∃ u, .lock u ∈ sinceWait t labels

end Functions

section Proofs
variable {θ : Type} [DecidableEq θ] {threads : Tids θ} {s s' : State θ} {t u : θ}

theorem holderRecorded_iff : HolderRecorded threads s ↔ ∀ t, s.place t = .inside → s.holder = threads.tid t := by
  constructor
  · intro h t ht
    exact of_decide_eq_true (h t ht).1
  · intro h t ht
    have hself : isLockedByThisThread threads s t = true := decide_eq_true (h t ht)
    refine ⟨hself,ensure_of _ hself,fun u hu => decide_eq_false ?_⟩
    rw [h t ht]
    exact fun heq => hu (threads.injective heq).symm

/-! Who has the mutex. -/

/-- The thread has the mutex. -/
def Place.Has (p : Place) : Prop := p = .acquired ∨ p = .inside ∨ p = .releasing

/-- The mutex, the condition and the places go together. -/
structure Exclusive (s : State θ) : Prop where
  mutex : ∀ t, (s.place t).Has → s.mutex = some t
  waits : ∀ t, s.cond.Inside t → s.place t = .inWait

theorem Exclusive.only (h : Exclusive s) (ht : (s.place t).Has) (hu : (s.place u).Has) : u = t :=
  Option.some.inj ((h.mutex u hu).symm.trans (h.mutex t ht))

theorem Exclusive.free (h : Exclusive s) (hmutex : s.mutex = none) (t : θ) : ¬ (s.place t).Has := by
  intro ht
  cases hmutex.symm.trans (h.mutex t ht)

@[simp] theorem goto_place (s : State θ) (t : θ) (p : Place) (u : θ) :
    (goto s t p).place u = if u = t then p else s.place u := Function.update_apply ..

/-- A thread goes somewhere with the mutex, where nobody else has it. -/
theorem Exclusive.take (h : Exclusive s) (hfree : ∀ u ≠ t, ¬ (s.place u).Has) {p : Place} (hmutex : s'.mutex = some t)
    (hplace : s'.place = Function.update s.place t p) (hcond : ∀ u, s'.cond.Inside u → u ≠ t ∧ s.cond.Inside u) :
    Exclusive s' := by
  refine ⟨?_,?_⟩
  · intro u hu
    rw [hplace,Function.update_apply] at hu
    split at hu
    · rename_i heq
      rw [heq,hmutex]
    · rename_i hne
      exact absurd hu (hfree u hne)
  · intro u hu
    obtain ⟨hne,hin⟩ := hcond u hu
    rw [hplace,Function.update_of_ne hne]
    exact h.waits u hin

/-- A thread gives the mutex up. -/
theorem Exclusive.give (h : Exclusive s) (ht : (s.place t).Has) {p : Place} (hp : ¬ p.Has)
    (hplace : s'.place = Function.update s.place t p)
    (hcond : ∀ u, s'.cond.Inside u → u = t ∧ p = .inWait ∨ u ≠ t ∧ s.cond.Inside u) : Exclusive s' := by
  refine ⟨?_,?_⟩
  · intro u hu
    rw [hplace,Function.update_apply] at hu
    split at hu
    · exact absurd hu hp
    · rename_i hne
      exact absurd (h.only ht hu) hne
  · intro u hu
    rcases hcond u hu with ⟨rfl,hwait⟩ | ⟨hne,hin⟩
    · rw [hplace,Function.update_self,hwait]
    · rw [hplace,Function.update_of_ne hne]
      exact h.waits u hin

/-- The sleepers are the same, and nobody moves. -/
theorem Exclusive.sleepers (h : Exclusive s) (hmutex : s'.mutex = s.mutex) (hplace : s'.place = s.place)
    (hcond : ∀ u, s'.cond.Inside u ↔ s.cond.Inside u) : Exclusive s' := by
  refine ⟨?_,?_⟩
  · intro u hu
    rw [hplace] at hu
    rw [hmutex]
    exact h.mutex u hu
  · intro u hu
    rw [hplace]
    exact h.waits u ((hcond u).mp hu)

/-- Who is not in a wait does not sleep. -/
theorem Exclusive.awake (h : Exclusive s) (ht : s.place t ≠ .inWait) (hu : s.cond.Inside u) : u ≠ t ∧ s.cond.Inside u := by
  refine ⟨?_,hu⟩
  rintro rfl
  exact ht (h.waits u hu)

/-- All that a step can do. -/
inductive Move (threads : Tids θ) (s : State θ) : Label θ → State θ → Prop where
  | lock (t : θ) (hplace : s.place t = .outside) (hfree : s.mutex = none) :
      Move threads s (.lock t) (goto { s with mutex := some t } t .acquired)
  | setHolder (t : θ) (hplace : s.place t = .acquired) :
      Move threads s (.setHolder t) (goto { s with holder := threads.tid t } t .inside)
  | clearHolder (t : θ) (hplace : s.place t = .inside) : Move threads s (.clearHolder t) (goto { s with holder := 0 } t .releasing)
  | unlock (t : θ) (hplace : s.place t = .releasing) : Move threads s (.unlock t) (goto { s with mutex := none } t .outside)
  /-- Both wait functions go to sleep in the same way. -/
  | sleep {a : Label θ} (t : θ) (hplace : s.place t = .inside) (ha : ∀ u, a.Waits u = decide (t = u)) (hlock : ∀ u, a ≠ .lock u)
      (hresume : ∀ u, a ≠ .resume u) : Move threads s a (goto { s with mutex := none, cond := s.cond.wait t } t .inWait)
  /-- Some are woken. -/
  | wakes {a : Label θ} {cond : Condition θ} (hcond : ∀ u, cond.Inside u ↔ s.cond.Inside u) (ha : ∀ u, a.Waits u = false)
      (hlock : ∀ u, a ≠ .lock u) (hresume : ∀ u, a ≠ .resume u) : Move threads s a { s with cond := cond }
  | resume (t : θ) (hwoken : t ∈ s.cond.woken) (hfree : s.mutex = none) :
      Move threads s (.resume t) (goto { s with mutex := some t, cond := s.cond.resume t } t .inside)

theorem sleep_eq (hs : sleep s t = .ok s') :
    s.place t = .inside ∧ s' = goto { s with mutex := none, cond := s.cond.wait t } t .inWait := by
  obtain ⟨_,hplace,hs⟩ := (bind_ok_iff _ _ _).mp hs
  cases hs
  exact ⟨(ensure_ok_iff _ _ _).mp hplace,rfl⟩

theorem move_of_step {a : Label θ} (hs : step threads s a = .ok s') : Move threads s a s' := by
  cases a with
  | lock t =>
    obtain ⟨_,hguard,hs⟩ := (bind_ok_iff _ _ _).mp hs
    cases hs
    obtain ⟨hplace,hfree⟩ := (ensure_ok_iff _ _ _).mp hguard
    exact .lock t hplace hfree
  | setHolder t =>
    obtain ⟨_,hguard,hs⟩ := (bind_ok_iff _ _ _).mp hs
    cases hs
    exact .setHolder t ((ensure_ok_iff _ _ _).mp hguard)
  | clearHolder t =>
    obtain ⟨_,hguard,hs⟩ := (bind_ok_iff _ _ _).mp hs
    cases hs
    exact .clearHolder t ((ensure_ok_iff _ _ _).mp hguard)
  | unlock t =>
    obtain ⟨_,hguard,hs⟩ := (bind_ok_iff _ _ _).mp hs
    cases hs
    exact .unlock t ((ensure_ok_iff _ _ _).mp hguard)
  | wait t =>
    obtain ⟨hplace,rfl⟩ := sleep_eq hs
    exact .sleep t hplace (fun _ => rfl) (by simp) (by simp)
  | waitForSeconds t now nSeconds =>
    obtain ⟨hplace,rfl⟩ := sleep_eq hs
    exact .sleep t hplace (fun _ => rfl) (by simp) (by simp)
  | wake t =>
    obtain ⟨_,-,hs⟩ := (bind_ok_iff _ _ _).mp hs
    cases hs
    exact .wakes (fun u => Condition.inside_wake) (fun _ => rfl) (by simp) (by simp)
  | resume t =>
    obtain ⟨_,hguard,hs⟩ := (bind_ok_iff _ _ _).mp hs
    cases hs
    obtain ⟨hwoken,hfree⟩ := (ensure_ok_iff _ _ _).mp hguard
    exact .resume t hwoken hfree
  | notify woken =>
    obtain ⟨_,-,hs⟩ := (bind_ok_iff _ _ _).mp hs
    cases hs
    exact .wakes (fun u => Condition.inside_notify) (fun _ => rfl) (by simp) (by simp)
  | notifyAll =>
    cases hs
    exact .wakes (fun u => Condition.inside_notifyAll) (fun _ => rfl) (by simp) (by simp)

theorem exclusive_move {a : Label θ} (h : Exclusive s) (hm : Move threads s a s') : Exclusive s' := by
  cases hm with
  | lock t hplace hfree => exact h.take (fun u _ => h.free hfree u) rfl rfl fun u => h.awake (by rw [hplace]; decide)
  | setHolder t hplace =>
    have hhas : (s.place t).Has := .inl hplace
    exact h.take (fun u hu hu' => hu (h.only hhas hu')) (h.mutex t hhas) rfl fun u => h.awake (by rw [hplace]; decide)
  | clearHolder t hplace =>
    have hhas : (s.place t).Has := .inr (.inl hplace)
    exact h.take (fun u hu hu' => hu (h.only hhas hu')) (h.mutex t hhas) rfl fun u => h.awake (by rw [hplace]; decide)
  | unlock t hplace =>
    exact h.give (.inr (.inr hplace)) (by simp [Place.Has]) rfl fun u hu => .inr (h.awake (by rw [hplace]; decide) hu)
  | sleep t hplace =>
    refine h.give (.inr (.inl hplace)) (by simp [Place.Has]) rfl fun u hu => ?_
    rcases Condition.inside_wait.mp hu with heq | hin
    · exact .inl ⟨heq,rfl⟩
    · exact .inr (h.awake (by rw [hplace]; decide) hin)
  | wakes hcond => exact h.sleepers rfl rfl hcond
  | resume t hwoken hfree =>
    exact h.take (fun u _ => h.free hfree u) rfl rfl fun u hu => (Condition.inside_resume hwoken).mp hu

theorem exclusive_initial : Exclusive (initial : State θ) := by
  refine ⟨?_,fun t h => absurd h Condition.not_inside_idle⟩
  rintro t (h | h | h) <;> cases h

/-! Waits, and the locks since they began. -/

theorem sinceWait_concat (t : θ) (labels : List (Label θ)) (a : Label θ) :
    sinceWait t (labels ++ [a]) = if a.Waits t then [] else sinceWait t labels ++ [a] := by
  rw [sinceWait,List.rtakeWhile_concat]
  cases a.Waits t <;> rfl

theorem lockedSince_concat {labels : List (Label θ)} {a : Label θ} :
    LockedSince t (labels ++ [a]) ↔ a.Waits t = false ∧ (LockedSince t labels ∨ ∃ u, a = .lock u) := by
  rw [LockedSince,sinceWait_concat]
  cases a.Waits t
  · simp only [LockedSince,Bool.false_eq_true,if_false,List.mem_append,List.mem_singleton,true_and]
    rw [exists_or]
    exact or_congr_right ⟨fun ⟨u,hu⟩ => ⟨u,hu.symm⟩,fun ⟨u,hu⟩ => ⟨u,hu.symm⟩⟩
  · simp only [if_true,List.not_mem_nil,exists_false,Bool.true_eq_false,false_and]

/-- Of a thread in a wait the record is lost exactly if a thread has got the mutex in Lock
since the wait began, but for one that has still to set the holder. -/
def Since (threads : Tids θ) (labels : List (Label θ)) (s : State θ) : Prop :=
  ∀ t, s.place t = .inWait → (LockedSince t labels ↔ s.holder ≠ threads.tid t ∨ ∃ u, s.place u = .acquired)

variable {labels : List (Label θ)} {a : Label θ}

/-- A step that neither waits nor locks nor writes the holder. -/
theorem Since.keep (h : Since threads labels s) (hplace : ∀ u, s'.place u = .inWait → s.place u = .inWait)
    (hacquired : ∀ u, s'.place u = .acquired ↔ s.place u = .acquired) (hholder : s'.holder = s.holder)
    (hlock : ∀ u, a ≠ .lock u) (hwaits : ∀ u, s'.place u = .inWait → a.Waits u = false) : Since threads (labels ++ [a]) s' := by
  intro u hu
  rw [lockedSince_concat,hholder]
  simp only [hwaits u hu,hlock,exists_false,or_false,true_and,hacquired]
  exact h u (hplace u hu)

/-- A step that writes the holder, where the record of those in a wait is already lost, or is lost by it. -/
theorem Since.lose (h : Since threads labels s) (hplace : ∀ u, s'.place u = .inWait → s.place u = .inWait)
    (hbefore : ∀ u, s.place u = .inWait → s.holder ≠ threads.tid u ∨ ∃ v, s.place v = .acquired)
    (hafter : ∀ u, s'.place u = .inWait → s'.holder ≠ threads.tid u)
    (hwaits : ∀ u, s'.place u = .inWait → a.Waits u = false) : Since threads (labels ++ [a]) s' := by
  intro u hu
  have hlocked := (h u (hplace u hu)).mpr (hbefore u (hplace u hu))
  exact iff_of_true (lockedSince_concat.mpr ⟨hwaits u hu,.inl hlocked⟩) (.inl (hafter u hu))

/-- What is true after a thread went to a place other than a wait. -/
theorem inWait_of_goto {p : Place} (hp : p ≠ .inWait) (hplace : s'.place = Function.update s.place t p) (u : θ)
    (hu : s'.place u = .inWait) : u ≠ t ∧ s.place u = .inWait := by
  rw [hplace,Function.update_apply] at hu
  split at hu
  · exact absurd hu hp
  · rename_i hne
    exact ⟨hne,hu⟩

theorem acquired_of_goto {p : Place} (hp : p ≠ .acquired) (ht : s.place t ≠ .acquired)
    (hplace : s'.place = Function.update s.place t p) (u : θ) : s'.place u = .acquired ↔ s.place u = .acquired := by
  rw [hplace,Function.update_apply]
  split
  · rename_i heq
    rw [heq]
    exact iff_of_false hp ht
  · rfl

theorem since_move (hex : Exclusive s) (hrec : HolderRecorded threads s) (h : Since threads labels s)
    (hm : Move threads s a s') : Since threads (labels ++ [a]) s' := by
  have hrec' := holderRecorded_iff.mp hrec
  cases hm with
  | lock t hplace hfree =>
    intro u hu
    refine iff_of_true (lockedSince_concat.mpr ⟨rfl,.inr ⟨t,rfl⟩⟩) (.inr ⟨t,?_⟩)
    rw [goto_place,if_pos rfl]
  | setHolder t hplace =>
    refine h.lose (fun u hu => (inWait_of_goto (by decide) rfl u hu).2) (fun u _ => .inr ⟨t,hplace⟩) ?_ fun _ _ => rfl
    intro u hu heq
    exact (inWait_of_goto (by decide) rfl u hu).1 (threads.injective heq).symm
  | clearHolder t hplace =>
    refine h.lose (fun u hu => (inWait_of_goto (by decide) rfl u hu).2) ?_ ?_ fun _ _ => rfl
    · intro u hu
      left
      rw [hrec' t hplace]
      intro heq
      obtain rfl := threads.injective heq
      cases hplace.symm.trans hu
    · intro u hu
      exact (threads.positive u).ne
  | unlock t hplace =>
    exact h.keep (fun u hu => (inWait_of_goto (by decide) rfl u hu).2)
      (acquired_of_goto (by decide) (by rw [hplace]; decide) rfl) rfl (fun _ => by simp) fun _ _ => rfl
  | sleep t hplace ha hlock =>
    have hnone (u : θ) : s.place u ≠ .acquired := by
      intro hu
      obtain rfl := hex.only (.inr (.inl hplace)) (.inl hu)
      cases hplace.symm.trans hu
    have hacquired : ∀ v, (goto { s with mutex := none, cond := s.cond.wait t } t .inWait).place v = .acquired ↔
        s.place v = .acquired := acquired_of_goto (by decide) (hnone t) rfl
    intro u hu
    rw [lockedSince_concat,ha]
    simp only [hlock,exists_false,or_false,hacquired,hnone]
    by_cases heq : t = u
    · subst heq
      simp only [decide_true,Bool.true_eq_false,false_and,false_iff,not_not]
      exact hrec' t hplace
    · have hwas : s.place u = .inWait := by
        rw [goto_place,if_neg (Ne.symm heq)] at hu
        exact hu
      have hbefore := h u hwas
      simp only [hnone,exists_false,or_false] at hbefore
      simp only [heq,decide_false,true_and]
      exact hbefore
  | wakes hcond ha hlock => exact h.keep (fun _ => id) (fun _ => Iff.rfl) rfl hlock fun u _ => ha u
  | resume t hwoken hfree =>
    have hplace := hex.waits t (.inr hwoken)
    exact h.keep (fun u hu => (inWait_of_goto (by decide) rfl u hu).2)
      (acquired_of_goto (by decide) (by rw [hplace]; decide) rfl) rfl (fun _ => by simp) fun _ _ => rfl

/-! The record. -/

/-- Of the threads only the one that moved can be inside. -/
theorem inside_of_goto {p : Place} (hplace : s'.place = Function.update s.place t p) (hfree : ∀ u ≠ t, ¬ (s.place u).Has) (u : θ)
    (hu : s'.place u = .inside) : u = t ∧ p = .inside := by
  rw [hplace,Function.update_apply] at hu
  split at hu
  · rename_i heq
    exact ⟨heq,hu⟩
  · rename_i hne
    exact absurd (.inr (.inl hu)) (hfree u hne)

/-- A thread that moves anywhere else leaves nobody inside. -/
theorem recorded_of_goto {p : Place} (hp : p ≠ .inside) (hplace : s'.place = Function.update s.place t p)
    (hfree : ∀ u ≠ t, ¬ (s.place u).Has) : HolderRecorded threads s' :=
  holderRecorded_iff.mpr fun u hu => absurd (inside_of_goto hplace hfree u hu).2 hp

theorem Exclusive.others (h : Exclusive s) (ht : (s.place t).Has) : ∀ u ≠ t, ¬ (s.place u).Has :=
  fun _ hne hu => hne (h.only ht hu)

/-- The end of a wait finds the record right if nobody has got the mutex in Lock since its beginning. -/
theorem resume_recorded_iff (hex : Exclusive s) (hsince : Since threads labels s) (hwoken : t ∈ s.cond.woken) (hfree : s.mutex = none) :
    HolderRecorded threads (goto { s with mutex := some t, cond := s.cond.resume t } t .inside) ↔ ¬ LockedSince t labels := by
  have hnone (u : θ) : s.place u ≠ .acquired := fun hu => hex.free hfree u (.inl hu)
  have hlocked := hsince t (hex.waits t (.inr hwoken))
  simp only [hnone,exists_false,or_false] at hlocked
  rw [hlocked,not_not,holderRecorded_iff]
  constructor
  · intro h
    exact h t (by rw [goto_place,if_pos rfl])
  · intro h u hu
    obtain ⟨rfl,-⟩ := inside_of_goto rfl (fun u _ => hex.free hfree u) u hu
    exact h

/-- The record stays right in every step but the end of a wait in which another thread has got the mutex. -/
theorem move_recorded_iff (hex : Exclusive s) (hrec : HolderRecorded threads s) (hsince : Since threads labels s)
    (hm : Move threads s a s') : HolderRecorded threads s' ↔ ∀ t, a = .resume t → ¬ LockedSince t labels := by
  cases hm with
  | resume t hwoken hfree =>
    rw [resume_recorded_iff hex hsince hwoken hfree]
    constructor
    · rintro h u heq
      cases heq
      exact h
    · exact fun h => h t rfl
  | lock t hplace hfree =>
    exact iff_of_true (recorded_of_goto (by decide) rfl fun u _ => hex.free hfree u) fun _ heq => by cases heq
  | setHolder t hplace =>
    refine iff_of_true (holderRecorded_iff.mpr fun u hu => ?_) fun _ heq => by cases heq
    obtain ⟨rfl,-⟩ := inside_of_goto rfl (hex.others (.inl hplace)) u hu
    rfl
  | clearHolder t hplace =>
    exact iff_of_true (recorded_of_goto (by decide) rfl (hex.others (.inr (.inl hplace)))) fun _ heq => by cases heq
  | unlock t hplace =>
    exact iff_of_true (recorded_of_goto (by decide) rfl (hex.others (.inr (.inr hplace)))) fun _ heq => by cases heq
  | sleep t hplace ha hlock hresume =>
    exact iff_of_true (recorded_of_goto (by decide) rfl (hex.others (.inr (.inl hplace)))) fun u heq => absurd heq (hresume u)
  | wakes hcond ha hlock hresume => exact iff_of_true hrec fun u heq => absurd heq (hresume u)

/-! Runs. -/

/-- The record is right in every state of a run. -/
def Recorded (threads : Tids θ) (labels : List (Label θ)) : Prop :=
  ∀ before, before <+: labels → ∀ s, (machine threads).run initial before = .ok s → HolderRecorded threads s

/-- No thread gets the mutex in Lock between the beginning and the end of another's wait. -/
def Undisturbed (labels : List (Label θ)) : Prop := ∀ before t, before ++ [.resume t] <+: labels → ¬ LockedSince t before

theorem recorded_concat (hrun : (machine threads).run initial (labels ++ [a]) = .ok s') :
    Recorded threads (labels ++ [a]) ↔ Recorded threads labels ∧ HolderRecorded threads s' := by
  constructor
  · intro h
    exact ⟨fun before hpre => h before (hpre.trans (List.prefix_append ..)),h _ (List.prefix_refl _) s' hrun⟩
  · rintro ⟨hall,hlast⟩ before hpre s hs
    rcases List.prefix_concat_iff.mp hpre with rfl | hpre
    · cases hs.symm.trans hrun
      exact hlast
    · exact hall before hpre s hs

theorem undisturbed_concat : Undisturbed (labels ++ [a]) ↔ Undisturbed labels ∧ ∀ t, a = .resume t → ¬ LockedSince t labels := by
  constructor
  · intro h
    refine ⟨fun before t hpre => h before t (hpre.trans (List.prefix_append ..)),?_⟩
    rintro t rfl
    exact h labels t (List.prefix_refl _)
  · rintro ⟨hall,hlast⟩ before t hpre
    rcases List.prefix_concat_iff.mp hpre with heq | hpre
    · obtain ⟨rfl,ha⟩ := List.append_inj' heq rfl
      exact hlast t (List.cons.inj ha).1.symm
    · exact hall before t hpre

theorem run_exclusive (hrun : (machine threads).run initial labels = .ok s) : Exclusive s :=
  (machine threads).run_invariant (fun _ _ _ h hs => exclusive_move h (move_of_step hs)) exclusive_initial hrun

theorem run_recorded (hrun : (machine threads).run initial labels = .ok s) :
    (Recorded threads labels ↔ Undisturbed labels) ∧ (Recorded threads labels → Since threads labels s) := by
  induction labels using List.reverseRecOn generalizing s with
  | nil =>
    cases hrun
    have hstart : HolderRecorded threads initial := fun t ht => by cases ht
    refine ⟨iff_of_true ?_ ?_,fun _ t ht => by cases ht⟩
    · intro before hpre s hs
      obtain rfl := List.prefix_nil.mp hpre
      cases hs
      exact hstart
    · intro before t hpre
      exact absurd (List.prefix_nil.mp hpre) (List.append_ne_nil_of_right_ne_nil _ (List.cons_ne_nil _ _))
  | append_singleton labels a ih =>
    have hrun' := hrun
    rw [Machine.run_append] at hrun'
    obtain ⟨u,hu,hlast⟩ := (bind_ok_iff _ _ _).mp hrun'
    obtain ⟨s',hs,hs'⟩ := (bind_ok_iff _ _ _).mp hlast
    cases hs'
    obtain ⟨hiff,hsince⟩ := ih hu
    have hex := run_exclusive hu
    have hrec (h : Recorded threads labels) : HolderRecorded threads u := h labels (List.prefix_refl _) u hu
    rw [recorded_concat hrun,undisturbed_concat,← hiff]
    have hm := move_of_step hs
    refine ⟨and_congr_right fun h => move_recorded_iff hex (hrec h) (hsince h) hm,?_⟩
    rintro ⟨h,-⟩
    exact since_move hex (hrec h) (hsince h) hm

/-- For any threads and every interleaving of Lock, Unlock, Wait, WaitForSeconds, Notify and
NotifyAll: the recorded holder is always the thread inside the critical section exactly if
no wait ends after another thread has got the mutex in Lock since it began. -/
theorem holder_recorded_iff (threads : Tids θ) (labels : List (Label θ)) {s : State θ}
    (hrun : (machine threads).run initial labels = .ok s) :
    (∀ before, before <+: labels → ∀ s, (machine threads).run initial before = .ok s → HolderRecorded threads s) ↔
      ∀ before t, before ++ [.resume t] <+: labels → ¬ LockedSince t before := (run_recorded hrun).1

end Proofs

/-- Two threads. -/
def two : Tids Bool := ⟨fun t => if t then 2 else 1,by decide,by decide⟩

/-- A thread waits twice in its critical section. -/
def nested : List (Label Bool) :=
  [.lock true,.setHolder true,.wait true,.notify (some true),.resume true,.waitForSeconds true ⟨5,0⟩ 3,.wake true,.resume true]

theorem holder_recorded_iff_nested : ∃ s, (machine two).run initial nested = .ok s ∧ s.place true = .inside ∧
    HolderRecorded two s := by
  obtain ⟨s,hrun,hplace⟩ := @Machine.exists_run_eq _ _ _ _ (machine two) initial nested (fun s => s.place true) .inside (by decide)
  have hquiet : ∀ n < 8, ∀ t, nested[n]? = some (.resume t) → ∀ u, .lock u ∉ sinceWait t (nested.take n) := by decide
  refine ⟨s,hrun,hplace,(holder_recorded_iff two nested hrun).mpr ?_ nested (List.prefix_refl _) s hrun⟩
  rintro before t ⟨rest,heq⟩ ⟨u,hu⟩
  rw [List.append_assoc] at heq
  have htake : nested.take before.length = before := by rw [← heq,List.take_left]
  have hget : nested[before.length]? = some (.resume t) := by
    rw [← heq,List.getElem?_append_right le_rfl,Nat.sub_self]
    rfl
  have hlt : before.length < 8 := (List.getElem?_eq_some_iff.mp hget).1
  refine hquiet before.length hlt t hget u ?_
  rwa [htake]

/-- The other thread takes the mutex and gives it back during the wait. -/
def disturbed : List (Label Bool) :=
  [.lock true,.setHolder true,.wait true,.lock false,.setHolder false,.notify (some true),.clearHolder false,.unlock false,
    .resume true]

theorem disturbed_holder_lost : ∃ s, (machine two).run initial disturbed = .ok s ∧ s.place true = .inside ∧
    assertLocked two s true = .error (.assertion "IsLockedByThisThread()") ∧ ¬ HolderRecorded two s := by
  obtain ⟨s,hrun,hvalue⟩ := @Machine.exists_run_eq _ _ _ _ (machine two) initial disturbed
    (fun s => (s.place true,assertLocked two s true)) (.inside,.error (.assertion "IsLockedByThisThread()")) (by decide)
  obtain ⟨hplace,hfails⟩ := Prod.mk.inj hvalue
  refine ⟨s,hrun,hplace,hfails,fun h => ?_⟩
  cases hfails.symm.trans (h true hplace).2.1

end LinuxServer.Thread.Mutex
