import Pear.Lib.Calendar
import Pear.Lib.Digits
import Pear.Merge

/-!
# The time stamp of a conflict copy

`civil_from_days` counts in eras of 400 years that begin with 1 March, so that a leap day is the last
of its year. Its divisions find the year of the era (`year_of_era`) and the month
(`month_of_year`), so it gives back the numbers of every date whose days are counted
(`civilFromDays_ordinal`). The days from 1970 on are therefore the dates one after the other
(`civilFromDays_eq`), and since a stamp has its fields at a fixed width with the greatest first,
stamps are in the order of the seconds (`conflictStamp_lt_iff`).
-/

namespace Pear

open Lib (Date marchDays monthStart)

/-! ## The divisions -/

section
variable {q r doe : Int}

/-- The century of the era. The last day of the era is the first of no fifth century. -/
theorem century_of_era (h0 : 0 ≤ q) (h399 : q ≤ 399) (hr0 : 0 ≤ r) (hr : r ≤ 365)
    (hleap : r = 365 → (q + 1) % 100 = 0 → (q + 1) % 400 = 0)
    (hdoe : doe = 365 * q + q / 4 - q / 100 + r) : doe / 36524 - doe / 146096 = q / 100 := by
  have hlo : 36524 * (q / 100) ≤ doe := by omega
  have hhi : doe < 36524 * (q / 100) + 36524 ∨ doe = 146096 := by
    rcases lt_or_ge r 365 with hr | hr
    · omega
    · have hq : q ≤ 100 * (q / 100) + 98 ∨ q = 399 := by omega
      omega
  omega

/-- **The year of the era**, from a day of it. Four years are counted as 1460 days, so in the fourth
the correction may come a day too early, which is no more than its leap day. -/
theorem year_of_era (h0 : 0 ≤ q) (h399 : q ≤ 399) (hr0 : 0 ≤ r)
    (hdoe : doe = marchDays q + r) (hlt : doe < marchDays (q + 1)) :
    (doe - doe / 1460 + doe / 36524 - doe / 146096) / 365 = q := by
  unfold marchDays at hdoe hlt
  have hera : q / 400 = 0 := by omega
  rw [hera, Int.add_zero] at hdoe
  have hr : r ≤ 365 := by omega
  have hfour : r = 365 → (q + 1) % 4 = 0 := by omega
  have hleap : r = 365 → (q + 1) % 100 = 0 → (q + 1) % 400 = 0 := by omega
  have hcent := century_of_era h0 h399 hr0 hr hleap hdoe
  have hquad : doe / 1460 = q / 4 ∧ r ≤ 364 ∨ doe / 1460 = q / 4 + 1 ∧ 1 ≤ r := by omega
  omega

/-- **The month**, from a day of the year. -/
theorem month_of_year {doy m : Int} (hlo : monthStart m ≤ doy) (hhi : doy < monthStart (m + 1)) :
    (5 * doy + 2) / 153 = m := by
  unfold monthStart at hlo hhi
  omega

end

/-- A year counted in eras. -/
theorem marchDays_era (e q : Int) : marchDays (400 * e + q) = 146097 * e + marchDays q := by
  unfold marchDays
  omega

/-- The days of an era. -/
theorem marchDays_range {q : Int} (h0 : 0 ≤ q) (h399 : q ≤ 399) :
    0 ≤ marchDays q ∧ marchDays (q + 1) ≤ 146097 := by
  unfold marchDays
  constructor <;> omega

/-- **`civil_from_days` inverts the count of days.** -/
theorem civilFromDays_ordinal (d : Date) : civilFromDays (d.ordinal - 719468) = d.triple := by
  obtain ⟨year, m, hm0, hm11, hord, hlast, hmonth, hyear, hmon⟩ := d.march
  have hday := d.day_range.1
  have hstart : 0 ≤ monthStart m := by
    unfold monthStart
    omega
  -- The year in its era, and the day in both.
  obtain ⟨e, q, hq0, hq399, rfl⟩ : ∃ e q, 0 ≤ q ∧ q ≤ 399 ∧ year = 400 * e + q :=
    ⟨year / 400, year % 400, by omega, by omega, by omega⟩
  obtain ⟨doe, hdoe⟩ : ∃ doe, doe = marchDays q + (monthStart m + (d.day - 1)) := ⟨_, rfl⟩
  rw [marchDays_era, Int.add_assoc, Int.add_assoc, ← hdoe] at hord
  rw [hord, Int.add_assoc (400 * e), marchDays_era, Int.add_lt_add_iff_left] at hlast
  have hyoe := year_of_era hq0 hq399 (by omega) hdoe hlast
  obtain ⟨hlo, hhi⟩ := marchDays_range hq0 hq399
  have hrange : 0 ≤ doe ∧ doe < 146097 := by omega
  have hera : (146097 * e + doe) / 146097 = e := by omega
  have hdoe' : (146097 * e + doe) % 146097 = doe := by omega
  have hdoy : doe - (365 * q + q / 4 - q / 100) = monthStart m + (d.day - 1) := by
    unfold marchDays at hdoe
    omega
  have hmp := month_of_year (Int.le_add_of_nonneg_right (Int.sub_nonneg_of_le hday)) hmonth
  unfold civilFromDays
  dsimp only
  rw [Int.sub_add_cancel, hord, hera, hdoe', hyoe, hdoy, hmp]
  unfold monthStart Date.triple
  rw [hyear, hmon]
  split_ifs <;> simp <;> omega

/-! ## The dates from 1970 on -/

/-- The epoch. -/
def epoch : Date := .newYear 1970

/-- The date that is `n` days after the epoch. -/
def dayDate (n : Nat) : Date := Date.next^[n] epoch

/-- **The days are the dates, one after the other.** -/
theorem civilFromDays_eq (n : Nat) : civilFromDays n = (dayDate n).triple := by
  have hord : (dayDate n).ordinal - 719468 = n := by
    rw [dayDate, Date.ordinal_iterate, show epoch.ordinal = 719468 by decide]
    omega
  rw [← hord, civilFromDays_ordinal]

/-- Later days have later dates. -/
theorem dayDate_lt_iff {n m : Nat} : dayDate n < dayDate m ↔ n < m :=
  (Date.strictMono_iterate epoch).lt_iff_lt

/-- Different days have different dates. -/
theorem dayDate_inj {n m : Nat} : dayDate n = dayDate m ↔ n = m :=
  (Date.strictMono_iterate epoch).injective.eq_iff

/-- None of them is before the epoch. -/
theorem le_year_dayDate (n : Nat) : 1970 ≤ (dayDate n).year := by
  rcases Nat.eq_zero_or_pos n with rfl | hn
  · exact le_refl _
  · rcases Date.lt_iff.mp (dayDate_lt_iff.mpr hn) with h | ⟨h, -⟩
    · exact h.le
    · exact h.le

/-! ## The order of the stamps -/

/-- A number that has its place in a field. -/
def Fits (width : Nat) (n : Int) : Prop := 0 ≤ n ∧ n < 10 ^ width

/-- A field of a stamp, and what comes after it. -/
theorem padded_append_lt_iff {width : Nat} {n m : Int} (hwidth : 0 < width) (hn : Fits width n)
    (hm : Fits width m) {u v : Text} :
    padded width n ++ u < padded width m ++ v ↔ n < m ∨ n = m ∧ u < v := by
  obtain ⟨n, rfl⟩ := Int.eq_ofNat_of_zero_le hn.1
  obtain ⟨m, rfl⟩ := Int.eq_ofNat_of_zero_le hm.1
  have hn := hn.2
  have hm := hm.2
  norm_cast at hn hm ⊢
  exact Lib.numeral_append_lt_iff hwidth hn hm

/-- The stamp of a date and a second of the day. -/
def stampOf (d : Date) (tod : Int) : Text :=
  padded 4 d.year ++ '-' :: padded 2 d.month ++ '-' :: padded 2 d.day ++ ' ' ::
    padded 2 (tod / 3600) ++ padded 2 (tod % 3600 / 60) ++ padded 2 (tod % 60)

theorem fits_two {n : Int} (h0 : 0 ≤ n) (h99 : n ≤ 99) : Fits 2 n := ⟨h0, by omega⟩

theorem fits_date (d : Date) : Fits 2 d.month ∧ Fits 2 d.day := by
  have hmonth := d.month_range
  have hday := d.day_range
  have hlen := Lib.monthDays_le d.year d.month
  exact ⟨fits_two (by omega) (by omega), fits_two (by omega) (by omega)⟩

theorem fits_clock {s : Int} (hs : 0 ≤ s ∧ s < 86400) :
    Fits 2 (s / 3600) ∧ Fits 2 (s % 3600 / 60) ∧ Fits 2 (s % 60) :=
  ⟨fits_two (by omega) (by omega), fits_two (by omega) (by omega), fits_two (by omega) (by omega)⟩

/-- Seconds of a day by hour, minute and second. -/
theorem clock_lt_iff {s t : Int} : s < t ↔ s / 3600 < t / 3600 ∨ s / 3600 = t / 3600 ∧
    (s % 3600 / 60 < t % 3600 / 60 ∨ s % 3600 / 60 = t % 3600 / 60 ∧ s % 60 < t % 60) := by
  omega

/-- **The stamps are in the order of dates and seconds.** -/
theorem stampOf_lt_iff {d e : Date} {s t : Int} (hd : Fits 4 d.year) (he : Fits 4 e.year)
    (hs : 0 ≤ s ∧ s < 86400) (ht : 0 ≤ t ∧ t < 86400) :
    stampOf d s < stampOf e t ↔ d < e ∨ d = e ∧ s < t := by
  obtain ⟨hdm, hdd⟩ := fits_date d
  obtain ⟨hem, hed⟩ := fits_date e
  obtain ⟨hsh, hsm, hss⟩ := fits_clock hs
  obtain ⟨hth, htm, hts⟩ := fits_clock ht
  have hcons : ∀ (c : Char) (u v : Text), c :: u < c :: v ↔ u < v := by simp
  have hlast : padded 2 (s % 60) < padded 2 (t % 60) ↔ s % 60 < t % 60 := by
    simpa using padded_append_lt_iff (by decide) hss hts (u := []) (v := [])
  simp only [stampOf, List.append_assoc, List.cons_append]
  rw [padded_append_lt_iff (by decide) hd he, hcons, padded_append_lt_iff (by decide) hdm hem, hcons,
    padded_append_lt_iff (by decide) hdd hed, hcons, padded_append_lt_iff (by decide) hsh hth,
    padded_append_lt_iff (by decide) hsm htm, hlast, ← clock_lt_iff, Date.lt_iff, Date.ext_iff]
  omega

/-- A clock reading as a date and a second of the day. -/
theorem conflictStamp_eq (now : Int) :
    conflictStamp now = stampOf (dayDate (max now 0 / 86400).toNat) (max now 0 % 86400) := by
  have hday : civilFromDays (max now 0 / 86400) = (dayDate (max now 0 / 86400).toNat).triple := by
    rw [← civilFromDays_eq, Int.toNat_of_nonneg (Int.ediv_nonneg (le_max_right _ _) (by decide))]
  unfold conflictStamp
  dsimp only
  rw [hday]
  rfl

/-- The year that a stamp shows. -/
def stampYear (now : Int) : Int := (civilFromDays (max now 0 / 86400)).1

/-- **The stamps are in the order of the seconds**, as long as a year has four digits. -/
theorem conflictStamp_lt_iff {now later : Int} (hnow : stampYear now ≤ 9999)
    (hlater : stampYear later ≤ 9999) :
    conflictStamp now < conflictStamp later ↔ max now 0 < max later 0 := by
  have hfits : ∀ {t : Int}, stampYear t ≤ 9999 → Fits 4 (dayDate (max t 0 / 86400).toNat).year := by
    intro t ht
    have hnonneg : 0 ≤ max t 0 / 86400 := Int.ediv_nonneg (le_max_right _ _) (by decide)
    have hle := le_year_dayDate (max t 0 / 86400).toNat
    unfold stampYear at ht
    rw [← Int.toNat_of_nonneg hnonneg, civilFromDays_eq] at ht
    exact ⟨by omega, Int.lt_of_le_of_lt ht (by decide)⟩
  rw [conflictStamp_eq, conflictStamp_eq, stampOf_lt_iff (hfits hnow) (hfits hlater) (by omega)
    (by omega), dayDate_lt_iff, dayDate_inj]
  omega

/-! ## In the range of `i64` -/

/-- The value of a sum or a product of `i64`, if there is one. -/
def inI64 (n : Int) : Option Int := if -2 ^ 63 ≤ n ∧ n < 2 ^ 63 then some n else none

/-- `civil_from_days` on `i64`, which has no result where a sum or a product overflows. What is
computed from `doe` is small. -/
def civilFromDaysI64 (z : Int) : Option (Int × Int × Int) := do
  let z ← inI64 (z + 719468)
  let era := z / 146097
  let doe := z % 146097
  let yoe := (doe - doe / 1460 + doe / 36524 - doe / 146096) / 365
  let y ← inI64 (yoe + (← inI64 (era * 400)))
  let doy := doe - (365 * yoe + yoe / 4 - yoe / 100)
  let mp := (5 * doy + 2) / 153
  let d := doy - (153 * mp + 2) / 5 + 1
  let m := if mp < 10 then mp + 3 else mp - 9
  let y ← if m ≤ 2 then inI64 (y + 1) else some y
  return (y, m, d)

theorem inI64_eq {n : Int} (h0 : 0 ≤ n) (h : n < 2 ^ 63) : inI64 n = some n := if_pos ⟨by omega, h⟩

/-- **Only the shift of the epoch can overflow**: a day number has its date unless it is within 719468
days of the greatest. -/
theorem civilFromDaysI64_eq {z : Int} (h0 : 0 ≤ z) :
    civilFromDaysI64 z = if z + 719468 < 2 ^ 63 then some (civilFromDays z) else none := by
  by_cases hz : z + 719468 < 2 ^ 63
  · rw [if_pos hz]
    have hyear : ∀ doe : Int, 0 ≤ doe → doe < 146097 →
        0 ≤ (doe - doe / 1460 + doe / 36524 - doe / 146096) / 365 ∧
          (doe - doe / 1460 + doe / 36524 - doe / 146096) / 365 ≤ 399 := by omega
    obtain ⟨hlo, hhi⟩ := hyear ((z + 719468) % 146097) (by omega) (by omega)
    have hera : 0 ≤ (z + 719468) / 146097 ∧ (z + 719468) / 146097 * 400 + 400 < 2 ^ 63 := by omega
    unfold civilFromDaysI64 civilFromDays
    simp only [Option.bind_eq_bind, inI64_eq (by omega) hz, Option.bind_some]
    rw [inI64_eq (by omega) (by omega), Option.bind_some, inI64_eq (by omega) (by omega),
      Option.bind_some, inI64_eq (by omega) (by omega)]
    split_ifs <;> rfl
  · have hshift : inI64 (z + 719468) = none := if_neg fun h => hz h.2
    rw [if_neg hz, civilFromDaysI64, hshift]
    rfl

/-! ## The calendar -/

/-- **`civil_from_days` is the Gregorian calendar.** Day 0 is 1 January 1970, and a day number is a
date whose next day the next number is; the `i64` of the source are in range on every day number that
a shift by the epoch leaves in range; and the stamps of the years up to 9999 are in the order of their
whole seconds, where a clock before the epoch counts as the epoch. -/
theorem civil_from_days_gregorian :
    civilFromDays 0 = (1970, 1, 1) ∧
    (∀ z : Int, 0 ≤ z →
      ∃ d : Date, civilFromDays z = d.triple ∧ civilFromDays (z + 1) = d.next.triple) ∧
    (∀ z : Int, 0 ≤ z → z + 719468 < 2 ^ 63 → civilFromDaysI64 z = some (civilFromDays z)) ∧
    ∀ now later : Int, stampYear now ≤ 9999 → stampYear later ≤ 9999 →
      (conflictStamp now < conflictStamp later ↔ max now 0 < max later 0) := by
  refine ⟨civilFromDays_eq 0, fun z h0 => ?_, fun z h0 hz => ?_, fun now later hnow hlater => ?_⟩
  · obtain ⟨n, rfl⟩ := Int.eq_ofNat_of_zero_le h0
    refine ⟨dayDate n, civilFromDays_eq n, ?_⟩
    have hnext : dayDate (n + 1) = (dayDate n).next := Function.iterate_succ_apply' _ _ _
    rw [← hnext]
    exact civilFromDays_eq (n + 1)
  · rw [civilFromDaysI64_eq h0, if_pos hz]
  · exact conflictStamp_lt_iff hnow hlater

/-- A leap day, and two stamps in their order. -/
theorem civil_from_days_gregorian_leapDay :
    (∃ d : Date, (2024, 2, 28) = d.triple ∧ (2024, 2, 29) = d.next.triple) ∧
    civilFromDaysI64 19781 = some (2024, 2, 28) ∧
    "2024-02-29 120000".toList < "2025-12-31 235959".toList := by
  obtain ⟨-, hdate, hi64, hstamp⟩ := civil_from_days_gregorian
  exact ⟨hdate 19781 (by decide), hi64 19781 (by decide) (by decide),
    (hstamp 1709208000 1767225599 (by decide) (by decide)).mpr (by decide)⟩

end Pear
