import Mathlib

/-! Checksums of two running sums: the sum of the elements, and the sum of its
values on the way. They tell apart lists that differ in one element, and lists
in which two neighbours are exchanged. -/
namespace LinuxServer.Lib
variable {G : Type} [AddCommGroup G]

def addTo (s : G × G) (x : G) : G × G := (s.1 + x,s.2 + (s.1 + x))
def runningSums (s : G × G) (xs : List G) : G × G := xs.foldl addTo s

@[simp] theorem runningSums_nil (s : G × G) : runningSums s [] = s := rfl
@[simp] theorem runningSums_cons (s : G × G) (x : G) (xs : List G) :
    runningSums s (x :: xs) = runningSums (addTo s x) xs := rfl
theorem runningSums_append (s : G × G) (xs ys : List G) :
    runningSums s (xs ++ ys) = runningSums (runningSums s xs) ys := List.foldl_append ..

theorem addTo_left_inj {s t : G × G} {x : G} : addTo s x = addTo t x ↔ s = t := by
  constructor
  · intro h
    obtain ⟨h₁,h₂⟩ := Prod.mk.inj h
    have hfst := add_right_cancel h₁
    rw [h₁] at h₂
    exact Prod.ext hfst (add_right_cancel h₂)
  · intro h
    rw [h]
/-- Sums that differ stay different, whatever is added to both. -/
theorem runningSums_left_inj {s t : G × G} (xs : List G) : runningSums s xs = runningSums t xs ↔ s = t := by
  induction xs generalizing s t with
  | nil => exact Iff.rfl
  | cons x xs ih => rw [runningSums_cons,runningSums_cons,ih,addTo_left_inj]

theorem runningSums_replace {x y : G} (h : x ≠ y) (s : G × G) (p q : List G) :
    runningSums s (p ++ x :: q) ≠ runningSums s (p ++ y :: q) := by
  intro heq
  rw [runningSums_append,runningSums_append,runningSums_cons,runningSums_cons,runningSums_left_inj] at heq
  exact h (add_left_cancel (Prod.mk.inj heq).1)

theorem runningSums_exchange {x y : G} (h : x ≠ y) (s : G × G) (p q : List G) :
    runningSums s (p ++ x :: y :: q) ≠ runningSums s (p ++ y :: x :: q) := by
  intro heq
  simp only [runningSums_append,runningSums_cons,runningSums_left_inj] at heq
  -- the first sums agree again, and the second differ by the first of the two
  obtain ⟨hfst,hsnd⟩ := Prod.mk.inj heq
  rw [hfst] at hsnd
  have hmiddle := add_right_cancel hsnd
  exact h (add_left_cancel (add_left_cancel hmiddle))

end LinuxServer.Lib
