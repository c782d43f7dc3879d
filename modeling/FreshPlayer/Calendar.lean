import Mathlib.Algebra.BigOperators.Group.Finset.Basic
import Mathlib.Algebra.BigOperators.Intervals
import Mathlib.Tactic.IntervalCases

/-! The Gregorian calendar, before its introduction too. Days are counted by adding up the
lengths of years and months, and by the closed form that programs use. -/
namespace FreshPlayer
namespace Calendar

def isLeap (y : ℤ) : Bool := y % 4 = 0 && (y % 100 ≠ 0 || y % 400 = 0)

def yearLength (y : ℤ) : ℤ := if isLeap y then 366 else 365

/-- Months are counted from 0. -/
def monthLength (y : ℤ) : ℕ → ℤ
  | 1 => if isLeap y then 29 else 28
  | 3 | 5 | 8 | 10 => 30
  | _ => 31

/-- Days from the beginning of the year `a` to that of `b`. -/
def daysOfYears (a b : ℤ) : ℤ :=
  ∑ k ∈ Finset.range (b-a).toNat, yearLength (a+k)-∑ k ∈ Finset.range (a-b).toNat, yearLength (b+k)

/-- Days from the beginning of the year to that of the month. -/
def daysOfMonths (y : ℤ) (m : ℕ) : ℤ := ∑ k ∈ Finset.range m, monthLength y k

/-- Days before a year, those of the year 0 not counted. -/
def daysBeforeYear (y : ℤ) : ℤ := 365*(y-1)+(y-1)/4-(y-1)/100+(y-1)/400

def daysBeforeMonth (leap : Bool) (m : ℕ) : ℤ :=
  [0,31,59,90,120,151,181,212,243,273,304,334].getD m 0 + if leap && 2 ≤ m then 1 else 0

theorem daysBeforeYear_succ (y : ℤ) :
    daysBeforeYear (y+1) = daysBeforeYear y+yearLength y := by
  simp only [daysBeforeYear,yearLength,isLeap,Bool.and_eq_true,Bool.or_eq_true,decide_eq_true_eq]
  split_ifs <;> omega

theorem daysOfYears_succ (a b : ℤ) : daysOfYears a (b+1) = daysOfYears a b+yearLength b := by
  unfold daysOfYears
  rcases le_or_gt a b with h | h
  · have hlast : a+((b-a).toNat : ℤ) = b := by omega
    rw [show (a-b).toNat = 0 by omega,show (a-(b+1)).toNat = 0 by omega]
    rw [show (b+1-a).toNat = (b-a).toNat+1 by omega,Finset.sum_range_succ,hlast]
    simp only [Finset.range_zero,Finset.sum_empty]
    omega
  · have hnext : ∀ k : ℕ, b+((k+1 : ℕ) : ℤ) = b+1+k := fun k => by omega
    rw [show (b-a).toNat = 0 by omega,show (b+1-a).toNat = 0 by omega]
    rw [show (a-b).toNat = (a-(b+1)).toNat+1 by omega,Finset.sum_range_succ']
    simp only [Finset.range_zero,Finset.sum_empty,hnext,Nat.cast_zero,Int.add_zero]
    omega

theorem daysOfYears_eq (a b : ℤ) : daysOfYears a b = daysBeforeYear b-daysBeforeYear a := by
  induction b using Int.inductionOn' (b := a) with
  | zero => simp [daysOfYears]
  | succ b _ ih =>
    rw [daysOfYears_succ,daysBeforeYear_succ,ih]
    omega
  | pred b _ ih =>
    have hdays := daysOfYears_succ a (b-1)
    have hbefore := daysBeforeYear_succ (b-1)
    rw [Int.sub_add_cancel] at hdays hbefore
    omega

theorem daysBeforeMonth_succ (y : ℤ) {m : ℕ} (h : m < 11) :
    daysBeforeMonth (isLeap y) (m+1) = daysBeforeMonth (isLeap y) m+monthLength y m := by
  cases hy : isLeap y <;> interval_cases m <;> simp only [monthLength,hy] <;> rfl

theorem daysOfMonths_eq (y : ℤ) {m : ℕ} (h : m < 12) :
    daysOfMonths y m = daysBeforeMonth (isLeap y) m := by
  induction m with
  | zero => cases isLeap y <;> rfl
  | succ m ih =>
    rw [daysBeforeMonth_succ y (by omega),← ih (by omega)]
    exact Finset.sum_range_succ _ m

end Calendar
end FreshPlayer
