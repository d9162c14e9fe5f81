import Mathlib

/-!
# The Gregorian calendar

Dates with the leap rule and the length of their month as fields, the day after a date, and the order
of dates, in which the day after is later (`Date.lt_next`). A year that begins with March has its leap
day at the end, so the days before such a year are a sum of quotients (`marchDays`).
-/

namespace Pear.Lib

/-- The leap rule. -/
def IsLeap (year : Int) : Prop := year % 4 = 0 ∧ (year % 100 ≠ 0 ∨ year % 400 = 0)

instance (year : Int) : Decidable (IsLeap year) := inferInstanceAs (Decidable (_ ∧ _))

/-- The days of a month. -/
def monthDays (year month : Int) : Int :=
  if month = 2 then if IsLeap year then 29 else 28
  else if month = 4 ∨ month = 6 ∨ month = 9 ∨ month = 11 then 30
  else 31

/-- A date. -/
@[ext] structure Date where
  year : Int
  month : Int
  day : Int
  month_range : 1 ≤ month ∧ month ≤ 12
  day_range : 1 ≤ day ∧ day ≤ monthDays year month

theorem one_le_monthDays (year month : Int) : 1 ≤ monthDays year month := by
  unfold monthDays
  split_ifs <;> decide

theorem monthDays_le (year month : Int) : monthDays year month ≤ 31 := by
  unfold monthDays
  split_ifs <;> decide

namespace Date

/-- The first day of a year. -/
def newYear (year : Int) : Date where
  year := year
  month := 1
  day := 1
  month_range := by decide
  day_range := ⟨le_refl 1, one_le_monthDays year 1⟩

/-- The day after. -/
def next (d : Date) : Date :=
  if h : d.day < monthDays d.year d.month then
    { d with day := d.day + 1, day_range := ⟨by have := d.day_range.1; omega, h⟩ }
  else if hm : d.month < 12 then
    { year := d.year, month := d.month + 1, day := 1
      month_range := ⟨by have := d.month_range.1; omega, hm⟩
      day_range := ⟨le_refl 1, one_le_monthDays _ _⟩ }
  else newYear (d.year + 1)

/-- The numbers of a date. -/
def triple (d : Date) : Int × Int × Int := (d.year, d.month, d.day)

/-- Dates are ordered by year, month and day. -/
noncomputable instance : Preorder Date :=
  .lift fun d : Date => toLex (d.year, toLex (d.month, d.day))

theorem lt_iff {d e : Date} : d < e ↔ d.year < e.year ∨ d.year = e.year ∧
    (d.month < e.month ∨ d.month = e.month ∧ d.day < e.day) := by
  change toLex (d.year, toLex (d.month, d.day)) < toLex (e.year, toLex (e.month, e.day)) ↔ _
  rw [Prod.Lex.toLex_lt_toLex, Prod.Lex.toLex_lt_toLex]

/-- **The day after is later.** -/
theorem lt_next (d : Date) : d < d.next := by
  rw [lt_iff]
  unfold next
  split_ifs with hday hmonth
  · exact .inr ⟨rfl, .inr ⟨rfl, Int.lt_succ _⟩⟩
  · exact .inr ⟨rfl, .inl (Int.lt_succ _)⟩
  · exact .inl (Int.lt_succ _)

end Date

/-! ## Counting the days -/

/-- The days from 1 March of year 0 to 1 March of a year. -/
def marchDays (year : Int) : Int := 365 * year + year / 4 - year / 100 + year / 400

/-- A year that begins with March ends with the February of the next. -/
theorem marchDays_succ (year : Int) :
    marchDays (year + 1) = marchDays year + 337 + monthDays (year + 1) 2 := by
  unfold marchDays monthDays IsLeap
  split_ifs <;> omega

/-- The days from 1 March to the first of the `m`-th month after it. -/
def monthStart (m : Int) : Int := (153 * m + 2) / 5

namespace Date

/-- The days from 1 March of year 0 to a date. -/
def ordinal (d : Date) : Int :=
  if d.month ≤ 2 then marchDays (d.year - 1) + monthStart (d.month + 9) + (d.day - 1)
  else marchDays d.year + monthStart (d.month - 3) + (d.day - 1)

/-- **The day after is one day on.** -/
theorem ordinal_next (d : Date) : d.next.ordinal = d.ordinal + 1 := by
  obtain ⟨year, month, day, ⟨hm1, hm12⟩, hday⟩ := d
  unfold next
  split_ifs with hd hm
  · unfold ordinal
    dsimp only
    split_ifs <;> omega
  · have hlast : day = monthDays year month := le_antisymm hday.2 (Int.not_lt.mp hd)
    subst hlast
    have hyear := marchDays_succ (year - 1)
    rw [Int.sub_add_cancel] at hyear
    unfold ordinal
    dsimp only at hm ⊢
    interval_cases month <;> simp [monthDays, monthStart] at hyear ⊢ <;> omega
  · have hlast : day = monthDays year month := le_antisymm hday.2 (Int.not_lt.mp hd)
    have hdec : month = 12 := le_antisymm hm12 (Int.not_lt.mp hm)
    subst hlast hdec
    simp [ordinal, newYear, monthDays, monthStart]
    omega

/-- **A date in the year that begins with March.** -/
theorem march (d : Date) : ∃ year m, 0 ≤ m ∧ m ≤ 11 ∧
    d.ordinal = marchDays year + monthStart m + (d.day - 1) ∧
    d.ordinal < marchDays (year + 1) ∧ monthStart m + (d.day - 1) < monthStart (m + 1) ∧
    d.year = (if m < 10 then year else year + 1) ∧ d.month = if m < 10 then m + 3 else m - 9 := by
  obtain ⟨year, month, day, ⟨hm1, hm12⟩, hday⟩ := d
  unfold ordinal
  by_cases hm : month ≤ 2
  · have hyear := marchDays_succ (year - 1)
    rw [Int.sub_add_cancel] at hyear
    refine ⟨year - 1, month + 9, by omega, by omega, if_pos hm, ?_⟩
    dsimp only
    rw [if_pos hm, Int.sub_add_cancel]
    interval_cases month <;> simp [monthDays, monthStart] at hyear hday ⊢ <;> omega
  · have hyear := marchDays_succ year
    have hfeb := one_le_monthDays (year + 1) 2
    refine ⟨year, month - 3, by omega, by omega, if_neg hm, ?_⟩
    dsimp only
    rw [if_neg hm]
    interval_cases month <;> simp [monthDays, monthStart] at hday hm ⊢ <;> omega

/-- Days on. -/
theorem ordinal_iterate (d : Date) (n : Nat) : (next^[n] d).ordinal = d.ordinal + n := by
  induction n with
  | zero => exact (Int.add_zero _).symm
  | succ n ih =>
    rw [Function.iterate_succ_apply', ordinal_next, ih]
    omega

/-- **Days that follow each other are later and later.** -/
theorem strictMono_iterate (d : Date) : StrictMono fun n : Nat => next^[n] d :=
  strictMono_nat_of_lt_succ fun n => by
    rw [Function.iterate_succ_apply']
    exact lt_next _

end Date

end Pear.Lib
