import Mathlib.Tactic.Linarith
import Mathlib.Tactic.SplitIfs

/-!
# The proleptic Gregorian calendar

Days since 1970-01-01 and the civil dates they fall on, in both directions,
for all integers. Years are cut into cycles of 400, 100, 4 and 1 years that
start on the first of March, so that the leap day is the last day of every
cycle that has one; `marchDay` is the date in those terms and the month is
read off it afterwards.

`days_civil` says that the two directions are inverse, which is what makes
a date an identifier of its day; `civil_before` says that dates come in the
order of their days.
-/

namespace Bbdb.Calendar

/-- A civil date. -/
structure Date where
  year : Int
  month : Int
  day : Int
  deriving DecidableEq, Repr

/-- A day in a calendar whose years start on the first of March. -/
structure MarchDay where
  year : Int
  /-- Day of the year, from 0. -/
  yday : Int

/-- Day `n` of a 400-year cycle (0 to 146096): 100-year cycles of 36524
days, 4-year cycles of 1461, years of 365; the last 100-year cycle and the
last year of a 4-year cycle are a day longer. -/
def cycleDay (n : Int) : MarchDay :=
  let c := min (n / 36524) 3
  let q := (n - 36524 * c) / 1461
  let a := min ((n - 36524 * c - 1461 * q) / 365) 3
  { year := 100 * c + 4 * q + a, yday := n - 36524 * c - 1461 * q - 365 * a }

/-- Day `z` after 1970-01-01; 719468 days separate 0000-03-01 from it. -/
def marchDay (z : Int) : MarchDay :=
  let n := z + 719468
  let d := cycleDay (n % 146097)
  { year := 400 * (n / 146097) + d.year, yday := d.yday }

/-- The month of a day of the March year, counted from March as 0. -/
def marchMonth (yday : Int) : Int := (5 * yday + 2) / 153

/-- The civil date of day `z` after 1970-01-01. -/
def civil (z : Int) : Date :=
  let d := marchDay z
  let mp := marchMonth d.yday
  { year := if mp < 10 then d.year else d.year + 1
    month := if mp < 10 then mp + 3 else mp - 9
    day := d.yday - (153 * mp + 2) / 5 + 1 }

/-- Days from 0000-03-01 to the first of March of year `y`. -/
def marchYearStart (y : Int) : Int := 365 * y + y / 4 - y / 100 + y / 400

/-- The day after 1970-01-01 of a date. The day of the month may lie outside
its month: it counts from the month's first day. -/
def days (d : Date) : Int :=
  let y := if d.month ≤ 2 then d.year - 1 else d.year
  let mp := if d.month ≤ 2 then d.month + 9 else d.month - 3
  marchYearStart y + (153 * mp + 2) / 5 + (d.day - 1) - 719468

/-! ## The cycles -/

theorem cycleDay_bounds {n : Int} (h0 : 0 ≤ n) (h1 : n < 146097) :
    0 ≤ (cycleDay n).year ∧ (cycleDay n).year ≤ 399 ∧
      0 ≤ (cycleDay n).yday ∧ (cycleDay n).yday ≤ 365 := by
  simp only [cycleDay]
  omega

/-- A day of the cycle is its year's start plus the day of the year. -/
theorem cycleDay_start {n : Int} (h0 : 0 ≤ n) (h1 : n < 146097) :
    365 * (cycleDay n).year + (cycleDay n).year / 4 - (cycleDay n).year / 100
      + (cycleDay n).yday = n := by
  simp only [cycleDay]
  have hc : 0 ≤ min (n / 36524) 3 ∧ min (n / 36524) 3 ≤ 3 := by omega
  have hr : 0 ≤ n - 36524 * min (n / 36524) 3 ∧ n - 36524 * min (n / 36524) 3 ≤ 36524 := by omega
  generalize min (n / 36524) 3 = c at *
  generalize hm : n - 36524 * c = m at *
  have hq : 0 ≤ m / 1461 ∧ m / 1461 ≤ 24 := by omega
  have hs : 0 ≤ m - 1461 * (m / 1461) := by omega
  generalize m / 1461 = q at *
  have ha : 0 ≤ min ((m - 1461 * q) / 365) 3 ∧ min ((m - 1461 * q) / 365) 3 ≤ 3 := by omega
  generalize min ((m - 1461 * q) / 365) 3 = a at *
  have h4 : (100 * c + 4 * q + a) / 4 = 25 * c + q := by omega
  have h100 : (100 * c + 4 * q + a) / 100 = c := by omega
  rw [h4, h100]
  omega

theorem marchDay_yday (z : Int) : 0 ≤ (marchDay z).yday ∧ (marchDay z).yday ≤ 365 := by
  have h := cycleDay_bounds (n := (z + 719468) % 146097) (by omega) (by omega)
  exact h.2.2

theorem marchYearStart_marchDay (z : Int) :
    marchYearStart (marchDay z).year + (marchDay z).yday - 719468 = z := by
  have hb := cycleDay_bounds (n := (z + 719468) % 146097) (by omega) (by omega)
  have hs := cycleDay_start (n := (z + 719468) % 146097) (by omega) (by omega)
  simp only [marchDay, marchYearStart]
  generalize cycleDay ((z + 719468) % 146097) = d at *
  generalize hN : z + 719468 = n at *
  have h4 : (400 * (n / 146097) + d.year) / 4 = 100 * (n / 146097) + d.year / 4 := by omega
  have h100 : (400 * (n / 146097) + d.year) / 100 = 4 * (n / 146097) + d.year / 100 := by omega
  have h400 : (400 * (n / 146097) + d.year) / 400 = n / 146097 := by omega
  rw [h4, h100, h400]
  omega

theorem marchMonth_bounds {yday : Int} (h0 : 0 ≤ yday) (h1 : yday ≤ 365) :
    0 ≤ marchMonth yday ∧ marchMonth yday ≤ 11 := by
  unfold marchMonth
  omega

/-! ## Dates -/

theorem civil_month (z : Int) : 1 ≤ (civil z).month ∧ (civil z).month ≤ 12 := by
  have hb := marchDay_yday z
  have hm := marchMonth_bounds hb.1 hb.2
  simp only [civil]
  split_ifs <;> omega

theorem civil_day (z : Int) : 1 ≤ (civil z).day ∧ (civil z).day ≤ 31 := by
  have hb := marchDay_yday z
  simp only [civil, marchMonth]
  omega

/-- **The two directions are inverse**: the day a date was computed from is
the day it denotes. -/
theorem days_civil (z : Int) : days (civil z) = z := by
  have hb := marchDay_yday z
  have hm := marchMonth_bounds hb.1 hb.2
  have hs := marchYearStart_marchDay z
  simp only [days, civil]
  by_cases h : marchMonth (marchDay z).yday < 10
  · have h2 : ¬ marchMonth (marchDay z).yday + 3 ≤ 2 := by omega
    simp only [if_pos h, if_neg h2]
    rw [show marchMonth (marchDay z).yday + 3 - 3 = marchMonth (marchDay z).yday by omega]
    omega
  · have h2 : marchMonth (marchDay z).yday - 9 ≤ 2 := by omega
    simp only [if_neg h, if_pos h2]
    rw [show marchMonth (marchDay z).yday - 9 + 9 = marchMonth (marchDay z).yday by omega,
      show (marchDay z).year + 1 - 1 = (marchDay z).year by omega]
    omega

/-- A year lies in the 400-year cycle of its day. -/
theorem civil_year (z : Int) :
    400 * ((z + 719468) / 146097) ≤ (civil z).year ∧
      (civil z).year ≤ 400 * ((z + 719468) / 146097) + 400 := by
  have hb := cycleDay_bounds (n := (z + 719468) % 146097) (by omega) (by omega)
  have hy : (marchDay z).year
      = 400 * ((z + 719468) / 146097) + (cycleDay ((z + 719468) % 146097)).year := rfl
  simp only [civil]
  split_ifs <;> omega

/-! ## Order -/

/-- The order of dates in a calendar: by year, then month, then day. -/
def Date.Before (a b : Date) : Prop :=
  a.year < b.year ∨ a.year = b.year ∧ (a.month < b.month ∨ a.month = b.month ∧ a.day < b.day)

/-- Later days of a cycle lie in a later year, or later in the same one. -/
theorem cycleDay_before {n m : Int} (h0 : 0 ≤ n) (h1 : m < 146097) (h : n < m) :
    (cycleDay n).year < (cycleDay m).year ∨
      (cycleDay n).year = (cycleDay m).year ∧ (cycleDay n).yday < (cycleDay m).yday := by
  simp only [cycleDay]
  have hc : min (n / 36524) 3 ≤ min (m / 36524) 3 := by omega
  have hn : 0 ≤ n - 36524 * min (n / 36524) 3 ∧ n - 36524 * min (n / 36524) 3 ≤ 36524 := by omega
  have hm : 0 ≤ m - 36524 * min (m / 36524) 3 ∧ m - 36524 * min (m / 36524) 3 ≤ 36524 := by omega
  generalize min (n / 36524) 3 = c at *
  generalize min (m / 36524) 3 = c' at *
  -- the years before the last cycle boundary, then the days after it
  have hyears : ∀ r : Int, 0 ≤ r → r ≤ 36524 →
      0 ≤ 4 * (r / 1461) + min ((r - 1461 * (r / 1461)) / 365) 3 ∧
      4 * (r / 1461) + min ((r - 1461 * (r / 1461)) / 365) 3 ≤ 99 := by omega
  have hy := hyears _ hn.1 hn.2
  have hy' := hyears _ hm.1 hm.2
  rcases Int.lt_or_eq_of_le hc with hlt | rfl
  · omega
  · have hr : n - 36524 * c < m - 36524 * c := by omega
    generalize n - 36524 * c = r at *
    generalize m - 36524 * c = r' at *
    omega

theorem marchDay_before {z z' : Int} (h : z < z') :
    (marchDay z).year < (marchDay z').year ∨
      (marchDay z).year = (marchDay z').year ∧ (marchDay z).yday < (marchDay z').yday := by
  have hb := cycleDay_bounds (n := (z + 719468) % 146097) (by omega) (by omega)
  have hb' := cycleDay_bounds (n := (z' + 719468) % 146097) (by omega) (by omega)
  simp only [marchDay]
  have hcycle : (z + 719468) / 146097 ≤ (z' + 719468) / 146097 := by omega
  rcases Int.lt_or_eq_of_le hcycle with hlt | heq
  · omega
  · have hday := cycleDay_before (n := (z + 719468) % 146097) (m := (z' + 719468) % 146097)
      (by omega) (by omega) (by omega)
    omega

/-- **Dates come in the order of their days.** -/
theorem civil_before {z z' : Int} (h : z < z') : (civil z).Before (civil z') := by
  have hb := marchDay_yday z
  have hb' := marchDay_yday z'
  have hday := marchDay_before h
  have hm := marchMonth_bounds hb.1 hb.2
  have hm' := marchMonth_bounds hb'.1 hb'.2
  have hmono : (marchDay z).yday < (marchDay z').yday →
      marchMonth (marchDay z).yday ≤ marchMonth (marchDay z').yday := by
    intro hlt
    unfold marchMonth
    omega
  simp only [Date.Before, civil]
  generalize marchMonth (marchDay z).yday = mp at *
  generalize marchMonth (marchDay z').yday = mp' at *
  split_ifs <;> omega

end Bbdb.Calendar
