import LinuxServer.Lib.Condition

/-! CountDownLatch: threads wait until it has been counted down often enough, and the one
notification that wakes them is at the step to zero. -/
namespace LinuxServer.Thread.CountDownLatch
open LinuxServer.Lib

variable {θ : Type} [DecidableEq θ]

/-- The calls of CountDown, the calls of Wait, and its returns with the calls of CountDown
by then, are recorded for the statements only. -/
structure State (θ : Type) [DecidableEq θ] where
  nCnt : Int
  cond : Condition θ
  countDowns : Nat
  calls : List θ
  returned : List (θ × Nat)

/-- The critical sections, of any threads. -/
inductive Label (θ : Type) where
  | wait (t : θ)
  /-- A woken thread has the mutex again, and goes on in its loop. -/
  | resume (t : θ)
  | wakeSpuriously (t : θ)
  | countDown (t : θ)

/-- Wait, from the test of its loop. -/
def State.test (s : State θ) (t : θ) : State θ :=
  if 0 < s.nCnt then { s with cond := s.cond.wait t } else { s with returned := s.returned ++ [(t,s.countDowns)] }

def step (s : State θ) : Label θ → Except Halt (State θ)
  | .wait t => do
    ensure .notEnabled (¬ s.cond.Inside t)
    .ok (State.test { s with calls := s.calls ++ [t] } t)
  | .resume t => do
    ensure .notEnabled (t ∈ s.cond.woken)
    .ok (State.test { s with cond := s.cond.resume t } t)
  | .wakeSpuriously t => do
    ensure .notEnabled (t ∈ s.cond.waiting)
    .ok { s with cond := s.cond.wake t }
  | .countDown t => do
    ensure .notEnabled (¬ s.cond.Inside t)
    ensure .overflow (-2 ^ 31 < s.nCnt)
    let nCnt := s.nCnt - 1
    .ok { s with
      nCnt := nCnt
      cond := if 0 = nCnt then s.cond.notifyAll else s.cond
      countDowns := s.countDowns + 1 }

def initial (nCnt : Int) : State θ := ⟨nCnt,Condition.idle,0,[],[]⟩

def machine (θ : Type) [DecidableEq θ] (nCnt : Int) : Machine (State θ) (Label θ) Halt := ⟨fun s => s = initial nCnt,step⟩

/-- A latch of so many, after its calls. -/
structure Inv (n : Int) (s : State θ) : Prop where
  count : s.nCnt = n - s.countDowns
  late : ∀ r ∈ s.returned, n ≤ r.2
  awake : s.nCnt ≤ 0 → s.cond.waiting = ∅
  once : ∀ u, s.calls.count u = (s.returned.map Prod.fst).count u + if s.cond.Inside u then 1 else 0

variable {n : Int} {s s' : State θ} {t : θ}

/-- The test of the loop: a call of Wait that is not yet counted as inside or returned is now. -/
private theorem Inv.test (hcount : s.nCnt = n - s.countDowns) (hlate : ∀ r ∈ s.returned, n ≤ r.2)
    (hawake : s.nCnt ≤ 0 → s.cond.waiting = ∅) (hout : ¬ s.cond.Inside t)
    (honce : ∀ u, s.calls.count u = (s.returned.map Prod.fst).count u + (if s.cond.Inside u then 1 else 0) + if u = t then 1 else 0) :
    Inv n (s.test t) := by
  by_cases hpos : 0 < s.nCnt
  · rw [State.test,if_pos hpos]
    refine ⟨hcount,hlate,fun hle => absurd hpos (not_lt.mpr hle),fun u => ?_⟩
    rw [honce u]
    by_cases hu : u = t
    · rw [hu]
      simp [Condition.inside_wait,hout]
    · simp [Condition.inside_wait,hu]
  · rw [State.test,if_neg hpos]
    refine ⟨hcount,List.forall_mem_append.mpr ⟨hlate,List.forall_mem_singleton.mpr (by omega)⟩,hawake,fun u => ?_⟩
    rw [honce u,List.map_append,List.count_append]
    by_cases hu : u = t
    · rw [hu]
      simp [hout]
    · simp [hu,Ne.symm hu]

private theorem Inv.step (h : Inv n s) {a : Label θ} (hs : step s a = .ok s') : Inv n s' := by
  cases a with
  | wait t =>
    simp only [CountDownLatch.step,bind_ok_iff,ensure_ok_iff,Except.ok.injEq] at hs
    obtain ⟨-,hout,rfl⟩ := hs
    refine Inv.test h.count h.late h.awake hout fun u => ?_
    rw [List.count_append,h.once u,List.count_singleton]
    by_cases hu : u = t
    · simp [hu]
    · simp [hu,Ne.symm hu]
  | resume t =>
    simp only [CountDownLatch.step,bind_ok_iff,ensure_ok_iff,Except.ok.injEq] at hs
    obtain ⟨-,hwoken,rfl⟩ := hs
    refine Inv.test h.count h.late h.awake ?_ fun u => ?_
    · rw [Condition.inside_resume hwoken]
      exact fun hboth => hboth.1 rfl
    · rw [h.once u]
      simp only [Condition.inside_resume hwoken]
      by_cases hu : u = t
      · have hin : s.cond.Inside t := .inr hwoken
        simp [hu,hin]
      · simp [hu]
  | wakeSpuriously t =>
    simp only [CountDownLatch.step,bind_ok_iff,ensure_ok_iff,Except.ok.injEq] at hs
    obtain ⟨-,hwaiting,rfl⟩ := hs
    refine ⟨h.count,h.late,fun hle => ?_,fun u => by rw [h.once u]; simp only [Condition.inside_wake]⟩
    rw [h.awake hle] at hwaiting
    exact absurd hwaiting (Finset.notMem_empty t)
  | countDown t =>
    simp only [CountDownLatch.step,bind_ok_iff,ensure_ok_iff,Except.ok.injEq] at hs
    obtain ⟨-,-,-,-,rfl⟩ := hs
    have hcount := h.count
    refine ⟨by push_cast; omega,h.late,fun hle => ?_,fun u => ?_⟩
    · -- only the step to zero wakes anyone, and below zero nobody has gone to sleep since
      by_cases hzero : 0 = s.nCnt - 1
      · rw [if_pos hzero]
        rfl
      · rw [if_neg hzero]
        exact h.awake (by simp only at hle; omega)
    · have hsame : ∀ c : Prop, [Decidable c] → ((if c then s.cond.notifyAll else s.cond).Inside u ↔ s.cond.Inside u) := by
        intro c hc
        split
        · exact Condition.inside_notifyAll
        · exact Iff.rfl
      rw [h.once u]
      simp only [hsame]

private theorem inv_reachable (h : (machine θ n).Reachable s) : Inv n s := by
  refine h.invariant (P := fun s => Inv n s) ?_ fun _ _ _ hi hs => hi.step hs
  rintro s rfl
  refine ⟨(Int.sub_zero n).symm,fun r hr => (by cases hr),fun _ => rfl,fun u => ?_⟩
  have hout : ¬ (initial n).cond.Inside u := Condition.not_inside_idle
  rw [if_neg hout]
  rfl

/-- On every run, for any count: no Wait returns before it has been counted down that often;
every call of Wait has returned once or its thread is still inside; and from the last
CountDown on nobody sleeps, and every thread inside returns with its next step. -/
theorem opens_for_all (h : (machine θ n).Reachable s) :
    (∀ r ∈ s.returned, n ≤ r.2) ∧
    (∀ u, s.calls.count u = (s.returned.map Prod.fst).count u + if s.cond.Inside u then 1 else 0) ∧
    (n ≤ s.countDowns → s.cond.waiting = ∅ ∧
      ∀ u, s.cond.Inside u → ∃ t, step s (.resume u) = .ok t ∧ t.returned = s.returned ++ [(u,s.countDowns)]) := by
  have hi := inv_reachable h
  refine ⟨hi.late,hi.once,fun hn => ?_⟩
  have hcount := hi.count
  have hempty := hi.awake (by omega)
  refine ⟨hempty,fun u hu => ?_⟩
  have hwoken : u ∈ s.cond.woken := by
    rcases hu with hu | hu
    · rw [hempty] at hu
      exact absurd hu (Finset.notMem_empty u)
    · exact hu
  have hopen : ¬ 0 < s.nCnt := by omega
  refine ⟨_,by rw [step,ensure_of _ hwoken]; rfl,?_⟩
  simp only [State.test,if_neg hopen]

/-- Two threads wait for two, one is woken for no reason and sleeps again; then it opens. -/
theorem opens_for_all_two : ∃ s : State (Fin 4), (machine (Fin 4) 2).Reachable s ∧ s.cond.waiting = ∅ ∧
    ∃ t, step s (.resume 0) = .ok t ∧ t.returned = [(0,2)] := by
  obtain ⟨s,hr,hv⟩ := (machine (Fin 4) 2).exists_reachable rfl
    [.wait 0,.wait 1,.wakeSpuriously 0,.countDown 2,.resume 0,.countDown 3]
    (fun s => (s.countDowns,s.returned,decide (s.cond.Inside 0))) (b := (2,[],true)) (by decide +kernel)
  simp only [Prod.mk.injEq,decide_eq_true_eq] at hv
  obtain ⟨hcount,hnone,hin⟩ := hv
  obtain ⟨hempty,hall⟩ := (opens_for_all hr).2.2 (by rw [hcount]; decide)
  obtain ⟨t,ht,hreturned⟩ := hall 0 hin
  refine ⟨s,hr,hempty,t,ht,?_⟩
  rw [hreturned,hnone,hcount]
  rfl

end LinuxServer.Thread.CountDownLatch
