import LinuxServer.Lib.Machine

/-! A condition variable: who sleeps in Wait, and who was woken and has still to take
the mutex again. Counting both shows when one signal for every change is enough. -/
namespace LinuxServer.Lib

structure Condition (θ : Type) [DecidableEq θ] where
  waiting : Finset θ
  woken : Finset θ
  apart : Disjoint waiting woken

namespace Condition
variable {θ : Type} [DecidableEq θ] {c : Condition θ} {t u : θ} {x : Option θ} {k : Nat}

/-- Nobody uses the condition. -/
def idle : Condition θ := ⟨∅,∅,Finset.disjoint_empty_left _⟩

/-- Give up the mutex and sleep. -/
def wait (c : Condition θ) (t : θ) : Condition θ where
  waiting := insert t c.waiting
  woken := c.woken.erase t
  apart := by
    rw [Finset.disjoint_insert_left]
    exact ⟨Finset.notMem_erase t _,c.apart.mono_right (Finset.erase_subset ..)⟩

/-- A sleeping thread is woken, for a signal or for no reason at all. -/
def wake (c : Condition θ) (t : θ) : Condition θ where
  waiting := c.waiting.erase t
  woken := if t ∈ c.waiting then insert t c.woken else c.woken
  apart := by
    have hsub := c.apart.mono_left (Finset.erase_subset t _)
    split
    · rw [Finset.disjoint_insert_right]
      exact ⟨Finset.notMem_erase t _,hsub⟩
    · exact hsub

/-- A woken thread has the mutex again. -/
def resume (c : Condition θ) (t : θ) : Condition θ where
  waiting := c.waiting
  woken := c.woken.erase t
  apart := c.apart.mono_right (Finset.erase_subset ..)

/-- Whom a signal may wake: one of the sleepers if there are any. -/
def CanNotify (c : Condition θ) : Option θ → Prop
  | none => c.waiting = ∅
  | some t => t ∈ c.waiting

instance (c : Condition θ) (x : Option θ) : Decidable (c.CanNotify x) :=
  match x with
  | none => inferInstanceAs (Decidable (c.waiting = ∅))
  | some t => inferInstanceAs (Decidable (t ∈ c.waiting))

def notify (c : Condition θ) : Option θ → Condition θ
  | none => c
  | some t => c.wake t

def notifyAll (c : Condition θ) : Condition θ := ⟨∅,c.waiting ∪ c.woken,Finset.disjoint_empty_left _⟩

/-- The thread is in Wait, asleep or woken. -/
def Inside (c : Condition θ) (t : θ) : Prop := t ∈ c.waiting ∨ t ∈ c.woken

instance (c : Condition θ) (t : θ) : Decidable (c.Inside t) := inferInstanceAs (Decidable (_ ∨ _))

theorem not_inside_idle : ¬ (idle : Condition θ).Inside t := by
  rintro (h | h)
  · exact Finset.notMem_empty _ h
  · exact Finset.notMem_empty _ h

theorem inside_wait : (c.wait t).Inside u ↔ u = t ∨ c.Inside u := by
  by_cases h : u = t <;> simp [Inside,wait,h]

theorem inside_wake : (c.wake t).Inside u ↔ c.Inside u := by
  by_cases ht : t ∈ c.waiting
  · by_cases h : u = t <;> simp [Inside,wake,h,ht]
  · simp [Inside,wake,ht]

theorem inside_notify : (c.notify x).Inside u ↔ c.Inside u := by
  cases x with
  | none => rfl
  | some t => exact inside_wake

theorem inside_notifyAll : c.notifyAll.Inside u ↔ c.Inside u := by
  simp [Inside,notifyAll]

/-- A thread that resumes was woken, so it does not sleep either. -/
theorem inside_resume (ht : t ∈ c.woken) : (c.resume t).Inside u ↔ u ≠ t ∧ c.Inside u := by
  have hne : t ∉ c.waiting := fun h => Finset.disjoint_left.mp c.apart h ht
  by_cases h : u = t
  · subst h
    simp [Inside,resume,hne]
  · simp [Inside,resume,h]

/-- Each of k changes has a woken thread on its way, as long as anyone still sleeps. -/
def Covers (c : Condition θ) (k : Nat) : Prop := c.waiting.Nonempty → k ≤ c.woken.card

theorem covers_idle : (idle : Condition θ).Covers k := by
  intro h
  exact absurd h Finset.not_nonempty_empty

theorem Covers.mono {j : Nat} (h : c.Covers k) (hj : j ≤ k) : c.Covers j := by
  intro hw
  exact hj.trans (h hw)

theorem covers_wait : (c.wait t).Covers 0 := by
  intro _
  exact Nat.zero_le _

theorem Covers.wake (h : c.Covers k) : (c.wake t).Covers k := by
  intro hw
  have hk := h (hw.mono (Finset.erase_subset ..))
  by_cases ht : t ∈ c.waiting
  · simp only [Condition.wake,if_pos ht]
    exact hk.trans (Finset.card_le_card (Finset.subset_insert ..))
  · simpa only [Condition.wake,if_neg ht] using hk

/-- One signal pays for one more change. -/
theorem Covers.notify (h : c.Covers k) (hx : c.CanNotify x) : (c.notify x).Covers (k + 1) := by
  intro hw
  cases x with
  | none =>
    have hempty : c.waiting = ∅ := hx
    exact absurd (hempty ▸ hw) Finset.not_nonempty_empty
  | some t =>
    have ht : t ∈ c.waiting := hx
    have hnew : t ∉ c.woken := Finset.disjoint_left.mp c.apart ht
    have hk := h ⟨t,ht⟩
    simp only [Condition.notify,Condition.wake,if_pos ht,Finset.card_insert_of_notMem hnew]
    omega

/-- A thread that resumes takes one change away from the count. -/
theorem Covers.resume (h : c.Covers k) (ht : t ∈ c.woken) : (c.resume t).Covers (k - 1) := by
  intro hw
  have hk := h hw
  simp only [Condition.resume,Finset.card_erase_of_mem ht]
  omega

/-- Where changes wait for a sleeper, a woken thread is still to run. -/
theorem Covers.woken_nonempty (h : c.Covers k) (hk : 0 < k) (hw : c.waiting.Nonempty) : c.woken.Nonempty := by
  apply Finset.card_pos.mp
  exact hk.trans_le (h hw)

end Condition
end LinuxServer.Lib
