import Mathlib

/-! What a fixed group of workers holds, counted over all of them. -/
namespace LinuxServer.Lib

variable {π β : Type}

/-- The things that the first n workers hold in their places. -/
def held (n : Nat) (g : π → Multiset β) (worker : Nat → π) : Multiset β := ∑ w ∈ Finset.range n,g (worker w)

section
variable {n w : Nat} {g : π → Multiset β} {f : Nat → π}

/-- One worker moves: what it held goes out and what it holds comes in. -/
theorem held_update (hw : w < n) (p : π) :
    held n g (Function.update f w p) + g (f w) = held n g f + g p := by
  have hmem := Finset.mem_range.mpr hw
  have hrest : ∑ v ∈ (Finset.range n).erase w,g (Function.update f w p v) =
      ∑ v ∈ (Finset.range n).erase w,g (f v) := by
    apply Finset.sum_congr rfl
    intro v hv
    rw [Function.update_of_ne (Finset.ne_of_mem_erase hv)]
  rw [held,held,← Finset.add_sum_erase _ _ hmem,← Finset.add_sum_erase _ _ hmem,hrest,Function.update_self]
  abel

/-- A move that changes nothing of what is held. -/
theorem held_update_of_eq {p : π} (hp : g p = g (f w)) : held n g (Function.update f w p) = held n g f := by
  apply Finset.sum_congr rfl
  intro v _
  by_cases hv : v = w
  · rw [hv,Function.update_self,hp]
  · rw [Function.update_of_ne hv]

theorem held_take {p : π} {x : β} (hw : w < n) (h : g (f w) = 0) (hp : g p = {x}) :
    held n g (Function.update f w p) = x ::ₘ held n g f := by
  have hupd := held_update (g := g) (f := f) hw p
  rw [h,hp,add_zero] at hupd
  rw [hupd,add_comm,Multiset.singleton_add]

theorem held_drop {p : π} {x : β} (hw : w < n) (h : g (f w) = {x}) (hp : g p = 0) :
    x ::ₘ held n g (Function.update f w p) = held n g f := by
  have hupd := held_update (g := g) (f := f) hw p
  rw [h,hp,add_zero] at hupd
  rw [← hupd,add_comm,Multiset.singleton_add]

theorem held_eq_zero (h : ∀ w, w < n → g (f w) = 0) : held n g f = 0 := by
  apply Finset.sum_eq_zero
  intro w hw
  exact h w (Finset.mem_range.mp hw)

theorem le_held (hw : w < n) : g (f w) ≤ held n g f := by
  rw [held,← Finset.add_sum_erase _ _ (Finset.mem_range.mpr hw)]
  exact Multiset.le_add_right _ _

/-- Where everyone holds at most one thing and one worker none, they hold fewer than
there are workers. -/
theorem card_held_lt (hw : w < n) (hnone : g (f w) = 0) (hone : ∀ p, (g p).card ≤ 1) : (held n g f).card < n := by
  have hmem := Finset.mem_range.mpr hw
  rw [held,← Finset.add_sum_erase _ _ hmem,hnone,zero_add,Multiset.card_sum]
  calc ∑ v ∈ (Finset.range n).erase w,(g (f v)).card
      ≤ ∑ _v ∈ (Finset.range n).erase w,1 := Finset.sum_le_sum fun v _ => hone (f v)
    _ = ((Finset.range n).erase w).card := (Finset.card_eq_sum_ones _).symm
    _ < n := by
      rw [Finset.card_erase_of_mem hmem,Finset.card_range]
      omega

/-- What is held at most once over all is not held by two. -/
theorem held_disjoint {v : Nat} {x : β} (hnd : (held n g f).Nodup) (hv : v < n) (hw : w < n) (hne : v ≠ w)
    (hx : x ∈ g (f v)) : x ∉ g (f w) := by
  intro hy
  have hsum : g (f v) + g (f w) ≤ held n g f := by
    have hvw : v ∈ (Finset.range n).erase w := Finset.mem_erase.mpr ⟨hne,Finset.mem_range.mpr hv⟩
    rw [held,← Finset.add_sum_erase _ _ (Finset.mem_range.mpr hw),← Finset.add_sum_erase _ _ hvw,add_comm]
    exact add_le_add le_rfl (Multiset.le_add_right _ _)
  have htwo := Multiset.nodup_of_le hsum hnd
  exact Multiset.disjoint_left.mp (Multiset.nodup_add.mp htwo).2.2 hx hy

end
end LinuxServer.Lib
