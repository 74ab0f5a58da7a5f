import Mathlib

/-! The Gregorian calendar by counting: a number of days falls into one of the years,
and what is left of it into one of the months. The lengths of the years repeat. -/
namespace LinuxServer.Lib

/-- The place of a number among consecutive intervals, and how far inside. -/
def locate : List Nat → Nat → Nat × Nat
  | [], n => (0,n)
  | l :: ls, n => if n < l then (0,n) else ((locate ls (n - l)).1 + 1,(locate ls (n - l)).2)

/-- A number below the sum of the intervals is inside of one. -/
theorem locate_inside {ls : List Nat} {n : Nat} (h : n < ls.sum) :
    ∃ hi : (locate ls n).1 < ls.length, (locate ls n).2 < ls[(locate ls n).1] := by
  induction ls generalizing n with
  | nil => exact absurd h (Nat.not_lt_zero n)
  | cons l ls ih =>
    by_cases hl : n < l
    · simp only [locate,if_pos hl]
      exact ⟨Nat.succ_pos _,hl⟩
    · rw [List.sum_cons] at h
      obtain ⟨hi,hlt⟩ := @ih (n - l) (by omega)
      simp only [locate,if_neg hl]
      exact ⟨Nat.succ_lt_succ hi,hlt⟩

/-- Greater numbers are in later intervals, or further inside of the same. -/
theorem locate_lt (ls : List Nat) {n m : Nat} (h : n < m) :
    (locate ls n).1 < (locate ls m).1 ∨ (locate ls n).1 = (locate ls m).1 ∧ (locate ls n).2 < (locate ls m).2 := by
  induction ls generalizing n m with
  | nil => exact .inr ⟨rfl,h⟩
  | cons l ls ih =>
    by_cases hm : m < l
    · rw [locate,locate,if_pos hm,if_pos (h.trans hm)]
      exact .inr ⟨rfl,h⟩
    · by_cases hn : n < l
      · rw [locate,locate,if_pos hn,if_neg hm]
        exact .inl (Nat.succ_pos _)
      · rw [locate,locate,if_neg hn,if_neg hm]
        rcases @ih (n - l) (m - l) (by omega) with hlt | ⟨heq,hlt⟩
        · exact .inl (Nat.succ_lt_succ hlt)
        · exact .inr ⟨congrArg Nat.succ heq,hlt⟩

namespace Calendar

def Leap (year : Nat) : Prop := 4 ∣ year ∧ (¬ 100 ∣ year ∨ 400 ∣ year)

instance (year : Nat) : Decidable (Leap year) := inferInstanceAs (Decidable (_ ∧ _))

def monthLengths (year : Nat) : List Nat := [31,if Leap year then 29 else 28,31,30,31,30,31,31,30,31,30,31]

/-- The years of one period, from the year 1970 on. -/
def years : List Nat := List.range' 1970 400

def yearLengths : List Nat := years.map fun year => (monthLengths year).sum

def period : Nat := 146097

/-- The months are counted from 0 and the days from 1. -/
structure Date where
  year : Int
  month : Nat
  day : Nat
  deriving DecidableEq

/-- The date that comes so many days after the first of January 1970. -/
def dateOf (days : Int) : Date :=
  let (y,r) := locate yearLengths (days % period).toNat
  let (month,d) := locate (monthLengths (1970 + y)) r
  ⟨1970 + y + 400 * (days / period),month,d + 1⟩

theorem sum_yearLengths : yearLengths.sum = period := by decide +kernel

theorem length_yearLengths : yearLengths.length = 400 := by
  rw [yearLengths,List.length_map,years,List.length_range']

variable (days : Int)

private theorem days_in_period : (days % period).toNat < yearLengths.sum := by
  rw [sum_yearLengths,period]
  omega

private theorem year_inside :
    (locate yearLengths (days % period).toNat).1 < 400 ∧ (locate yearLengths (days % period).toNat).2 <
      (monthLengths (1970 + (locate yearLengths (days % period).toNat).1)).sum := by
  obtain ⟨hi,hlt⟩ := locate_inside (days_in_period days)
  rw [length_yearLengths] at hi
  refine ⟨hi,?_⟩
  simpa [yearLengths,years] using hlt

theorem monthLength_le (year : Nat) : ∀ l ∈ monthLengths year, l ≤ 31 := by
  intro l hl
  simp only [monthLengths,List.mem_cons,List.not_mem_nil,or_false] at hl
  split at hl <;> omega

/-- A date has one of twelve months and a day of it. -/
theorem dateOf_fields : (dateOf days).month < 12 ∧ 1 ≤ (dateOf days).day ∧ (dateOf days).day ≤ 31 := by
  obtain ⟨hi,hlt⟩ := locate_inside (year_inside days).2
  have hle := monthLength_le _ _ (List.getElem_mem hi)
  refine ⟨hi,Nat.succ_pos _,?_⟩
  exact hlt.trans_le hle

theorem le_year (h : 0 ≤ days) : 1970 ≤ (dateOf days).year := by
  have hquot : 0 ≤ days / period := Int.ediv_nonneg h (by decide)
  change 1970 ≤ 1970 + ((locate yearLengths (days % period).toNat).1 : Int) + 400 * (days / period)
  omega

/-- The year is in the period that the days are in. -/
theorem year_between : 1970 + 400 * (days / period) ≤ (dateOf days).year ∧ (dateOf days).year < 2370 + 400 * (days / period) := by
  have hyear := (year_inside days).1
  change 1970 + 400 * (days / period) ≤ 1970 + ((locate yearLengths (days % period).toNat).1 : Int) + 400 * (days / period) ∧
    1970 + ((locate yearLengths (days % period).toNat).1 : Int) + 400 * (days / period) < 2370 + 400 * (days / period)
  omega

variable {days}

/-- Later days have later dates. -/
theorem dateOf_lt {days' : Int} (h : days < days') :
    (dateOf days).year < (dateOf days').year ∨ (dateOf days).year = (dateOf days').year ∧
      ((dateOf days).month < (dateOf days').month ∨ (dateOf days).month = (dateOf days').month ∧ (dateOf days).day < (dateOf days').day) := by
  have hy := (year_inside days).1
  have hy' := (year_inside days').1
  change 1970 + ((locate yearLengths (days % period).toNat).1 : Int) + 400 * (days / period) <
      1970 + ((locate yearLengths (days' % period).toNat).1 : Int) + 400 * (days' / period) ∨
    1970 + ((locate yearLengths (days % period).toNat).1 : Int) + 400 * (days / period) =
      1970 + ((locate yearLengths (days' % period).toNat).1 : Int) + 400 * (days' / period) ∧ _
  rcases Int.lt_or_eq_of_le (Int.ediv_le_ediv (by decide : (0 : Int) < period) h.le) with hlt | heq
  · exact .inl (by omega)
  · have hrest : (days % period).toNat < (days' % period).toNat := by
      have hd := Int.mul_ediv_add_emod days period
      have hd' := Int.mul_ediv_add_emod days' period
      have h0 := Int.emod_nonneg days (b := period) (by decide)
      rw [heq] at hd
      omega
    rcases locate_lt yearLengths hrest with hyear | ⟨hyear,hinside⟩
    · exact .inl (by omega)
    · refine .inr ⟨by omega,?_⟩
      simp only [dateOf,hyear]
      rcases locate_lt (monthLengths (1970 + (locate yearLengths (days' % period).toNat).1)) hinside with hmonth | ⟨hmonth,hday⟩
      · exact .inl hmonth
      · exact .inr ⟨hmonth,Nat.succ_lt_succ hday⟩

end Calendar
end LinuxServer.Lib
