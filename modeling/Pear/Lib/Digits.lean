import Mathlib

/-!
# Numerals of a fixed width

Decimal numerals padded with zeros. Up to their width they are ordered as the numbers are, in the
lexicographic order of texts (`numeral_lt`), and texts of equal length can be compared piece by piece
(`append_lt_append_iff`), so a text of such fields is ordered by its fields (`numeral_append_lt_iff`).
-/

namespace Pear.Lib

/-- **Comparing piece by piece.** -/
theorem append_lt_append_iff {α : Type} [LinearOrder α] :
    ∀ {s t u v : List α}, s.length = t.length → (s ++ u < t ++ v ↔ s < t ∨ s = t ∧ u < v)
  | [], [], u, v, _ => by simp
  | a :: s, b :: t, u, v, h => by
    rw [List.cons_append, List.cons_append, List.cons_lt_cons_iff, List.cons_lt_cons_iff,
      append_lt_append_iff (Nat.succ.inj h), List.cons.injEq]
    tauto

/-- A numeral of a number, with zeros up to the width. -/
def numeral (width n : Nat) : List Char := (Nat.toDigits 10 n).leftpad width '0'

variable {width n m : Nat}

/-- Its length. -/
theorem length_numeral (hwidth : 0 < width) (hn : n < 10 ^ width) :
    (numeral width n).length = width := by
  rw [numeral, List.length_leftpad]
  exact max_eq_left ((Nat.length_toDigits_le_iff (by decide) hwidth).mpr hn)

/-- The numeral of zero. -/
theorem numeral_zero (hwidth : 0 < width) : numeral width 0 = List.replicate width '0' := by
  obtain ⟨width, rfl⟩ := Nat.exists_eq_succ_of_ne_zero hwidth.ne'
  rw [numeral, Nat.toDigits_zero, List.leftpad, List.replicate_succ']
  rfl

/-- **The last digit comes off the end.** -/
theorem numeral_succ (hwidth : 0 < width) (n : Nat) :
    numeral (width + 1) n = numeral width (n / 10) ++ [Nat.digitChar (n % 10)] := by
  by_cases hn : n < 10
  · rw [Nat.div_eq_of_lt hn, Nat.mod_eq_of_lt hn, numeral_zero hwidth, numeral,
      Nat.toDigits_of_lt_base hn, List.leftpad]
    rfl
  · rw [numeral, numeral, Nat.toDigits_of_base_le (by decide) (Nat.le_of_not_lt hn), List.leftpad,
      List.leftpad, List.length_append, List.length_singleton, Nat.add_sub_add_right,
      List.append_assoc]

/-- A greater digit is a later character. -/
theorem digitChar_lt : ∀ b < 10, ∀ a < b, Nat.digitChar a < Nat.digitChar b := by
  decide

/-- **A greater number has a later numeral.** -/
theorem numeral_lt : ∀ {width : Nat}, 0 < width → ∀ {n m : Nat}, n < m → m < 10 ^ width →
    numeral width n < numeral width m
  | 1, _, n, m, hlt, hm => by
    rw [Nat.pow_one] at hm
    rw [numeral, numeral, Nat.toDigits_of_lt_base (hlt.trans hm), Nat.toDigits_of_lt_base hm]
    exact List.cons_lt_cons_iff.mpr (.inl (digitChar_lt m hm n hlt))
  | width + 2, _, n, m, hlt, hm => by
    have hwidth := Nat.succ_pos width
    have hm' : m / 10 < 10 ^ (width + 1) := by
      rw [Nat.pow_succ] at hm
      exact Nat.div_lt_of_lt_mul (by rwa [Nat.mul_comm])
    have hle : n / 10 ≤ m / 10 := Nat.div_le_div_right hlt.le
    have hlen : (numeral (width + 1) (n / 10)).length = (numeral (width + 1) (m / 10)).length := by
      rw [length_numeral hwidth (hle.trans_lt hm'), length_numeral hwidth hm']
    rw [numeral_succ hwidth, numeral_succ hwidth, append_lt_append_iff hlen]
    rcases hle.lt_or_eq with hhead | hhead
    · exact .inl (numeral_lt hwidth hhead hm')
    · have hlast : n % 10 < m % 10 := by omega
      refine .inr ⟨by rw [hhead], List.cons_lt_cons_iff.mpr (.inl ?_)⟩
      exact digitChar_lt _ (Nat.mod_lt m (by decide)) _ hlast

/-- Numerals of a width are ordered as the numbers, and equal for equal numbers. -/
theorem numeral_strictMonoOn (hwidth : 0 < width) :
    StrictMonoOn (numeral width) (Set.Iio (10 ^ width)) :=
  fun _ _ _ hm hlt => numeral_lt hwidth hlt hm

/-- A field of a text: a greater number comes later, and for equal numbers the rest decides. -/
theorem numeral_append_lt_iff (hwidth : 0 < width) (hn : n < 10 ^ width) (hm : m < 10 ^ width)
    {u v : List Char} : numeral width n ++ u < numeral width m ++ v ↔ n < m ∨ n = m ∧ u < v := by
  have hmono := numeral_strictMonoOn hwidth
  rw [append_lt_append_iff (by rw [length_numeral hwidth hn, length_numeral hwidth hm]),
    hmono.lt_iff_lt hn hm, hmono.injOn.eq_iff hn hm]

end Pear.Lib
