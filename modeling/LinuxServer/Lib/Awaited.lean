import Mathlib

/-! Queues of work for many owners. An owner waits for one item at most, in one place;
so whatever is queued is awaited there, and no item is queued twice. -/
namespace LinuxServer.Lib
variable {π φ κ : Type} [DecidableEq π] [DecidableEq φ]
variable {owner : φ → κ} {queue : π → List φ} {wait : κ → Option (π × φ)} {p : π} {f : φ} {rest : List φ}

/-- Every owner's item is queued once, where the owner waits for it, and nothing else is. -/
def Awaited (owner : φ → κ) (queue : π → List φ) (wait : κ → Option (π × φ)) : Prop :=
  ∀ p f, (queue p).count f = if wait (owner f) = some (p,f) then 1 else 0

namespace Awaited

theorem empty : Awaited owner (fun _ : π => []) (fun _ => none) := fun _ _ => rfl

theorem mem_iff (h : Awaited owner queue wait) : f ∈ queue p ↔ wait (owner f) = some (p,f) := by
  rw [← List.count_pos_iff,h p f]
  split
  · rename_i hw
    exact iff_of_true Nat.one_pos hw
  · rename_i hw
    exact iff_of_false (Nat.lt_irrefl 0) hw

theorem nodup (h : Awaited owner queue wait) (p : π) : (queue p).Nodup := by
  refine List.nodup_iff_count_le_one.mpr fun f => ?_
  rw [h p f]
  split
  · exact le_rfl
  · exact Nat.zero_le 1

variable [DecidableEq κ]

/-- Work for an owner that waits for nothing goes to the end of a queue. -/
theorem push (h : Awaited owner queue wait) (hf : wait (owner f) = none) :
    Awaited owner (Function.update queue p (queue p ++ [f])) (Function.update wait (owner f) (some (p,f))) := by
  intro q g
  have hcount : (Function.update queue p (queue p ++ [f]) q).count g =
      (queue q).count g + if q = p ∧ g = f then 1 else 0 := by
    rw [Function.update_apply]
    by_cases hq : q = p
    · rw [if_pos hq,List.count_append,List.count_singleton,hq]
      simp only [beq_iff_eq,true_and,eq_comm (a := f)]
    · rw [if_neg hq,if_neg fun he => hq he.1,Nat.add_zero]
  rw [hcount,h q g]
  by_cases hg : owner g = owner f
  · rw [hg,hf,Function.update_self]
    simp only [reduceCtorEq,if_false,Nat.zero_add,Option.some.injEq,Prod.mk.injEq,eq_comm]
  · have hne : ¬ (q = p ∧ g = f) := fun he => hg (by rw [he.2])
    rw [Function.update_of_ne hg,if_neg hne,Nat.add_zero]

/-- What is taken from a queue was awaited there, and its owner waits no longer. -/
theorem pop (h : Awaited owner queue wait) (hq : queue p = f :: rest) :
    wait (owner f) = some (p,f) ∧ Awaited owner (Function.update queue p rest) (Function.update wait (owner f) none) := by
  have hwait : wait (owner f) = some (p,f) := h.mem_iff.mp (by rw [hq]; exact List.mem_cons_self)
  refine ⟨hwait,fun q g => ?_⟩
  have hcount : (queue q).count g =
      (Function.update queue p rest q).count g + if q = p ∧ g = f then 1 else 0 := by
    rw [Function.update_apply]
    by_cases hp : q = p
    · rw [if_pos hp,hp,hq,List.count_cons]
      simp only [beq_iff_eq,true_and,eq_comm (a := f)]
    · rw [if_neg hp,if_neg fun he => hp he.1,Nat.add_zero]
  rw [h q g] at hcount
  by_cases hg : owner g = owner f
  · have hsame : some (p,f) = some (q,g) ↔ q = p ∧ g = f := by
      rw [Option.some.injEq,Prod.mk.injEq,eq_comm,eq_comm (a := f)]
    rw [hg,hwait,if_congr hsame rfl rfl] at hcount
    rw [hg,Function.update_self,if_neg (show ¬ none = some (q,g) by simp)]
    omega
  · have hne : ¬ (q = p ∧ g = f) := fun he => hg (by rw [he.2])
    rw [if_neg hne,Nat.add_zero] at hcount
    rw [Function.update_of_ne hg,hcount]

end Awaited
end LinuxServer.Lib
