import Bbdb.Lib.Calendar
import Mathlib.Data.Int.Order.Basic
import Mathlib.Tactic.Ring

/-!
# Instants and durations of Go's time package

An instant is an integer number of nanoseconds since the Unix epoch, so
comparison and addition are those of the integers. The UTC fields of an
instant (`utc`) and the instant of given fields (`date`) are inverse on hour
starts; two instants have the same fields exactly when they fall in the same
hour of the epoch (`utc_eq_iff`).

`hoursTrunc` is the integer part of `Duration.Hours`, which Go computes in
`float64`; the two roundings of that computation are those of `round53`.
-/

namespace Bbdb.GoTime

open Calendar

/-- `time.Second`. -/
def second : Int := 1000000000

/-- `time.Minute`. -/
def minute : Int := 60 * second

/-- `time.Hour`. -/
def hour : Int := 3600 * second

/-- Twenty-four hours. -/
def day : Int := 24 * hour

/-- `Time.Unix`: whole seconds, rounded down. -/
def unix (t : Int) : Int := t / second

/-- `Truncate(time.Hour)`. The zero time of the package is a whole number of
hours before the epoch, so hours are cut where those of the epoch are. -/
def truncateHour (t : Int) : Int := t - t % hour

/-- The UTC calendar fields of an instant down to the hour. -/
structure Fields where
  year : Int
  month : Int
  day : Int
  hour : Int
  deriving DecidableEq, Repr

/-- `Year`, `Month`, `Day` and `Hour` of an instant in UTC. -/
def utc (t : Int) : Fields :=
  let d := civil (t / day)
  { year := d.year, month := d.month, day := d.day, hour := t % day / hour }

/-- `time.Date(y, m, d, h, 0, 0, 0, time.UTC)`: months outside 1 to 12 carry
into the year, days and hours outside their range into the sum. -/
def date (f : Fields) : Int :=
  let y := f.year + (f.month - 1) / 12
  let m := (f.month - 1) % 12 + 1
  (days ⟨y, m, 1⟩ + (f.day - 1)) * day + f.hour * hour

theorem truncateHour_eq (t : Int) : truncateHour t = t / hour * hour := by
  have h := Int.mul_ediv_add_emod t hour
  rw [truncateHour]
  linarith

theorem truncateHour_le (t : Int) : truncateHour t ≤ t := by
  have h := Int.emod_nonneg t (show hour ≠ 0 by decide)
  rw [truncateHour]
  omega

theorem lt_truncateHour_add (t : Int) : t < truncateHour t + hour := by
  have h := Int.emod_lt_of_pos t (show 0 < hour by decide)
  rw [truncateHour]
  omega

@[simp] theorem truncateHour_truncateHour (t : Int) :
    truncateHour (truncateHour t) = truncateHour t := by
  rw [truncateHour_eq t, truncateHour_eq, Int.mul_ediv_cancel _ (by decide)]

/-- **The fields of an instant name the start of its hour.** -/
theorem date_utc (t : Int) : date (utc t) = truncateHour t := by
  have hm := civil_month (t / day)
  have hyear : (civil (t / day)).year + ((civil (t / day)).month - 1) / 12
      = (civil (t / day)).year := by omega
  have hmonth : ((civil (t / day)).month - 1) % 12 + 1 = (civil (t / day)).month := by omega
  have hday : days ⟨(civil (t / day)).year, (civil (t / day)).month, 1⟩
      + ((civil (t / day)).day - 1) = t / day := by
    have h := days_civil (t / day)
    simp only [days] at h ⊢
    omega
  simp only [date, utc, hyear, hmonth, hday, truncateHour]
  have hd : day = 86400000000000 := rfl
  have hh : hour = 3600000000000 := rfl
  rw [hd, hh]
  omega

/-- **Two instants have the same fields when they lie in the same hour.** -/
theorem utc_eq_iff {a b : Int} : utc a = utc b ↔ truncateHour a = truncateHour b := by
  constructor
  · intro h
    rw [← date_utc, ← date_utc, h]
  · intro h
    have hd : day = 86400000000000 := rfl
    have hh : hour = 3600000000000 := rfl
    rw [truncateHour, truncateHour, hh] at h
    have hday : a / day = b / day := by rw [hd]; omega
    have hhour : a % day / hour = b % day / hour := by rw [hd, hh]; omega
    simp only [utc, hday, hhour]

/-- The fields stay in their ranges. -/
theorem utc_bounds (t : Int) :
    (1 ≤ (utc t).month ∧ (utc t).month ≤ 12) ∧ (1 ≤ (utc t).day ∧ (utc t).day ≤ 31) ∧
      (0 ≤ (utc t).hour ∧ (utc t).hour ≤ 23) := by
  refine ⟨civil_month _, civil_day _, ?_⟩
  show 0 ≤ t % day / hour ∧ t % day / hour ≤ 23
  have hd : day = 86400000000000 := rfl
  have hh : hour = 3600000000000 := rfl
  rw [hd, hh]
  omega

/-- Every `int64` number of nanoseconds falls in a four-digit year. -/
theorem utc_year {t : Int} (hlo : -2 ^ 63 ≤ t) (hhi : t < 2 ^ 63) :
    0 ≤ (utc t).year ∧ (utc t).year < 10000 := by
  have h := civil_year (t / day)
  have hd : day = 86400000000000 := rfl
  rw [hd] at h
  show 0 ≤ (civil (t / day)).year ∧ (civil (t / day)).year < 10000
  rw [hd]
  omega

/-- The order of calendar fields: by date, then by hour. -/
def Fields.Before (a b : Fields) : Prop :=
  a.year < b.year ∨ a.year = b.year ∧ (a.month < b.month ∨ a.month = b.month ∧
    (a.day < b.day ∨ a.day = b.day ∧ a.hour < b.hour))

/-- **Fields come in the order of their hours.** -/
theorem utc_before {a b : Int} (h : truncateHour a < truncateHour b) :
    (utc a).Before (utc b) := by
  have hd : day = 86400000000000 := rfl
  have hh : hour = 3600000000000 := rfl
  rw [truncateHour, truncateHour, hh] at h
  have hle : a / day ≤ b / day := by rw [hd]; omega
  rcases Int.lt_or_eq_of_le hle with hlt | heq
  · have hdate := civil_before hlt
    simp only [Date.Before] at hdate
    simp only [Fields.Before, utc]
    omega
  · have hhour : a % day / hour < b % day / hour := by
      rw [hd] at heq ⊢
      rw [hh]
      omega
    have hdate : civil (a / day) = civil (b / day) := by rw [heq]
    simp [Fields.Before, utc, hdate, hhour]

theorem Fields.Before.asymm {a b : Fields} (h : a.Before b) : ¬ b.Before a := by
  simp only [Fields.Before] at *
  omega

theorem utc_before_iff {a b : Int} :
    (utc a).Before (utc b) ↔ truncateHour a < truncateHour b := by
  refine ⟨fun h => ?_, utc_before⟩
  rcases lt_trichotomy (truncateHour a) (truncateHour b) with hlt | heq | hgt
  · exact hlt
  · rw [utc_eq_iff.mpr heq] at h
    exact absurd h h.asymm
  · exact absurd h (utc_before hgt).asymm

/-! ## Duration.Hours -/

/-- The quotient rounded to the nearest integer, ties to even. -/
def roundDiv (n d : Nat) : Nat :=
  if 2 * (n % d) < d then n / d
  else if d < 2 * (n % d) then n / d + 1
  else if n / d % 2 = 0 then n / d else n / d + 1

/-- `n / d` as a `float64`: a 53-bit mantissa `m` and a scale `s` for the
value `m / 2^s`. For quotients below `2^52`. -/
def round53 (n d : Nat) : Nat × Nat :=
  if n = 0 then (0, 0)
  else
    let s := 52 + Nat.log2 d - Nat.log2 n
    let s := if n * 2 ^ s < 2 ^ 52 * d then s + 1 else s
    (roundDiv (n * 2 ^ s) d, s)

/-- The integer part of `d.Hours()`: whole hours plus the rest divided by an
hour, each operation rounded to `float64`, then cut towards zero. -/
def hoursTrunc (d : Int) : Int :=
  let h := d.natAbs / hour.toNat
  let frac := round53 (d.natAbs % hour.toNat) hour.toNat
  let sum := round53 (h * 2 ^ frac.2 + frac.1) (2 ^ frac.2)
  d.sign * ↑(sum.1 / 2 ^ sum.2)

/-- A natural number survives the rounding. -/
theorem round53_nat (n : Nat) : (round53 n 1).1 / 2 ^ (round53 n 1).2 = n := by
  have hexact : ∀ m, roundDiv m 1 = m := fun m => by simp [roundDiv, Nat.mod_one]
  unfold round53
  split_ifs with h
  · simp [h]
  · dsimp only
    rw [hexact, Nat.mul_div_cancel _ (Nat.two_pow_pos _)]

/-- **Whole hours are counted exactly.** -/
theorem hoursTrunc_mul_hour (r : Int) : hoursTrunc (r * hour) = r := by
  have hpos : 0 < hour.toNat := by decide
  have habs : (r * hour).natAbs = r.natAbs * hour.toNat := by
    rw [Int.natAbs_mul]
    rfl
  have hsign : (r * hour).sign = r.sign := by
    rw [Int.sign_mul, show hour.sign = 1 from rfl, mul_one]
  simp only [hoursTrunc, habs, hsign, Nat.mul_mod_left, Nat.mul_div_cancel _ hpos]
  rw [show round53 0 hour.toNat = (0, 0) from rfl]
  simp only [pow_zero, Nat.mul_one, Nat.add_zero, round53_nat]
  exact Int.sign_mul_natAbs r

/-- Rounding stays above an integer below the quotient. -/
theorem le_roundDiv {k n d : Nat} (hd : 0 < d) (h : k * d ≤ n) : k ≤ roundDiv n d := by
  have hk : k ≤ n / d := (Nat.le_div_iff_mul_le hd).mpr h
  unfold roundDiv
  split_ifs
  all_goals omega

/-- Rounding stays below an integer above the quotient. -/
theorem roundDiv_le {k n d : Nat} (hd : 0 < d) (h : n ≤ k * d) : roundDiv n d ≤ k := by
  have hmod := Nat.div_add_mod n d
  have hle : n / d ≤ k := Nat.div_le_of_le_mul (by rw [Nat.mul_comm]; exact h)
  -- the quotient is rounded up only if there is a rest, and then it is below `k`
  have hup : n % d ≠ 0 → n / d + 1 ≤ k := by
    intro hne
    have hlt : n / d * d < k * d := by
      rw [Nat.mul_comm]
      omega
    exact Nat.lt_of_mul_lt_mul_right hlt
  unfold roundDiv
  split_ifs with h₁ h₂ h₃
  · exact hle
  · exact hup (by omega)
  · exact hle
  · exact hup (by omega)

theorem le_round53 {k n d : Nat} (hd : 0 < d) (h : k * d ≤ n) :
    k * 2 ^ (round53 n d).2 ≤ (round53 n d).1 := by
  unfold round53
  split_ifs with hn
  · have hk : k = 0 := by
      have hzero : k * d = 0 := by omega
      exact (Nat.mul_eq_zero.mp hzero).resolve_right (by omega)
    simp [hk]
  · dsimp only
    refine le_roundDiv hd ?_
    rw [Nat.mul_right_comm]
    exact Nat.mul_le_mul_right _ h

theorem round53_le {k n d : Nat} (hd : 0 < d) (h : n ≤ k * d) :
    (round53 n d).1 ≤ k * 2 ^ (round53 n d).2 := by
  unfold round53
  split_ifs with hn
  · exact Nat.zero_le _
  · dsimp only
    refine roundDiv_le hd ?_
    rw [Nat.mul_right_comm]
    exact Nat.mul_le_mul_right _ h

/-- The hours of a natural number of nanoseconds. -/
theorem hoursTrunc_natCast (n : Nat) : ∃ h : Nat, hoursTrunc n = h ∧
    n / hour.toNat ≤ h ∧ h ≤ n / hour.toNat + 1 := by
  have hpos : 0 < hour.toNat := by decide
  have hrest : n % hour.toNat ≤ 1 * hour.toNat := by
    rw [Nat.one_mul]
    exact Nat.le_of_lt (Nat.mod_lt n hpos)
  have hfrac := round53_le hpos hrest
  have htrunc : hoursTrunc n = (n : Int).sign * ↑((round53
      (n / hour.toNat * 2 ^ (round53 (n % hour.toNat) hour.toNat).2 +
        (round53 (n % hour.toNat) hour.toNat).1)
      (2 ^ (round53 (n % hour.toNat) hour.toNat).2)).1 / 2 ^ (round53
      (n / hour.toNat * 2 ^ (round53 (n % hour.toNat) hour.toNat).2 +
        (round53 (n % hour.toNat) hour.toNat).1)
      (2 ^ (round53 (n % hour.toNat) hour.toNat).2)).2) := rfl
  revert hfrac htrunc
  generalize round53 (n % hour.toNat) hour.toNat = frac
  intro hfrac htrunc
  have hlow := le_round53 (k := n / hour.toNat)
    (n := n / hour.toNat * 2 ^ frac.2 + frac.1) (Nat.two_pow_pos frac.2) (Nat.le_add_right _ _)
  have hhigh := round53_le (k := n / hour.toNat + 1)
    (n := n / hour.toNat * 2 ^ frac.2 + frac.1) (Nat.two_pow_pos frac.2)
    (by rw [Nat.add_mul]; omega)
  rw [htrunc]
  generalize round53 (n / hour.toNat * 2 ^ frac.2 + frac.1) (2 ^ frac.2) = sum at hlow hhigh ⊢
  by_cases hn : n = 0
  · subst hn
    exact ⟨0, by simp, by simp, by simp⟩
  · refine ⟨sum.1 / 2 ^ sum.2, ?_, ?_, ?_⟩
    · rw [Int.sign_natCast_of_ne_zero hn, one_mul]
    · exact (Nat.le_div_iff_mul_le (Nat.two_pow_pos _)).mpr hlow
    · exact Nat.div_le_of_le_mul (by rw [Nat.mul_comm]; exact hhigh)

/-- The hours of a duration, up to the next whole hour. -/
def hoursUp (d : Int) : Int := (d + hour - 1) / hour

/-- **`Duration.Hours` loses less than an hour and never counts one that has
not begun.** -/
theorem hoursTrunc_bounds {d : Int} (hd : 0 ≤ d) :
    d / hour ≤ hoursTrunc d ∧ hoursTrunc d ≤ hoursUp d := by
  have hh : hour = 3600000000000 := rfl
  by_cases hrest : d % hour = 0
  · -- whole hours are exact
    have hexact : hoursTrunc d = d / hour := by
      rw [← hoursTrunc_mul_hour (d / hour),
        Int.ediv_mul_cancel (Int.dvd_of_emod_eq_zero hrest)]
    rw [hexact, hoursUp]
    rw [hh] at hrest ⊢
    omega
  · obtain ⟨n, rfl⟩ := Int.eq_ofNat_of_zero_le hd
    obtain ⟨h, heq, hlow, hhigh⟩ := hoursTrunc_natCast n
    have hnat : hour.toNat = 3600000000000 := rfl
    rw [hnat] at hlow hhigh
    rw [hh] at hrest
    rw [heq, hoursUp, hh]
    omega

/-- **Less than an hour counts as none.** -/
theorem hoursTrunc_minutes : ∀ m : Fin 60, hoursTrunc (m * minute) = 0 := by
  decide +kernel

end Bbdb.GoTime
