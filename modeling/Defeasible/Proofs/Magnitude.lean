import Mathlib.Algebra.Order.Field.Rat
import Mathlib.Algebra.Order.Field.Basic
import Mathlib.Order.Monotone.Basic
import Mathlib.Tactic.Linarith
import Defeasible.Certainty

/-!
The numbers that floating-point values stand for. Ranks count the magnitudes of a format
upwards, so a greater rank is a greater number. A single-precision value is accepted as a
certainty exactly if its number is from 0 to 1, and the certainty stands for that number.
-/

namespace Defeasible

namespace BinaryFormat

variable (f : BinaryFormat) {q r : Nat}

theorem units_of_lt (h : r < 2 ^ f.fractionBits) : f.units r = r := by
  rw [units]
  exact if_pos h

/-- Between two powers of two the magnitudes are evenly spaced. -/
theorem units_binade (h : r < 2 ^ f.fractionBits) :
    f.units (2 ^ f.fractionBits * (q + 1) + r) = (2 ^ f.fractionBits + r) * 2 ^ q := by
  have hnot : ¬ 2 ^ f.fractionBits * (q + 1) + r < 2 ^ f.fractionBits := by
    rw [Nat.mul_succ]
    omega
  have hdiv : (2 ^ f.fractionBits * (q + 1) + r) / 2 ^ f.fractionBits = q + 1 := by
    rw [Nat.mul_add_div (Nat.two_pow_pos _), Nat.div_eq_of_lt h]
  have hmod : (2 ^ f.fractionBits * (q + 1) + r) % 2 ^ f.fractionBits = r := by
    rw [Nat.mul_add_mod, Nat.mod_eq_of_lt h]
  simp only [units, Nat.pow_eq, if_neg hnot, hdiv, hmod, Nat.add_sub_cancel]

theorem units_lt_units_succ (rank : Nat) : f.units rank < f.units (rank + 1) := by
  have hpos : 0 < 2 ^ f.fractionBits := Nat.two_pow_pos _
  by_cases hsmall : rank < 2 ^ f.fractionBits
  · rw [f.units_of_lt hsmall]
    by_cases hnext : rank + 1 < 2 ^ f.fractionBits
    · rw [f.units_of_lt hnext]
      exact Nat.lt_succ_self rank
    · have hfirst : rank + 1 = 2 ^ f.fractionBits * (0 + 1) + 0 := by omega
      rw [hfirst, f.units_binade hpos]
      omega
  · have hne : rank / 2 ^ f.fractionBits ≠ 0 := by
      rw [Nat.div_ne_zero_iff]
      omega
    obtain ⟨q, hq⟩ := Nat.exists_eq_succ_of_ne_zero hne
    have hr := Nat.mod_lt rank hpos
    have hrank := Nat.div_add_mod rank (2 ^ f.fractionBits)
    rw [hq] at hrank
    generalize rank % 2 ^ f.fractionBits = r at hr hrank
    rw [← hrank, f.units_binade hr, Nat.add_assoc]
    by_cases hnext : r + 1 < 2 ^ f.fractionBits
    · rw [f.units_binade hnext]
      exact Nat.mul_lt_mul_of_pos_right (by omega) (Nat.two_pow_pos q)
    · -- The next rank is the first one of the next power of two.
      have hcarry : 2 ^ f.fractionBits * (q + 1) + (r + 1) =
          2 ^ f.fractionBits * (q + 1 + 1) + 0 := by
        rw [Nat.mul_succ _ (q + 1)]
        omega
      rw [Nat.succ_eq_add_one, hcarry, f.units_binade hpos, Nat.pow_succ', ← Nat.mul_assoc]
      exact Nat.mul_lt_mul_of_pos_right (by omega) (Nat.two_pow_pos q)

theorem units_strictMono : StrictMono f.units := strictMono_nat_of_lt_succ f.units_lt_units_succ

/-- The number that a rank stands for. -/
def magnitude (rank : Nat) : ℚ := f.units rank / 2 ^ f.scale

theorem magnitude_strictMono : StrictMono f.magnitude := by
  intro j k h
  have hunits : (f.units j : ℚ) < f.units k := Nat.cast_lt.mpr (f.units_strictMono h)
  exact div_lt_div_of_pos_right hunits (pow_pos two_pos _)

theorem magnitude_zero : f.magnitude 0 = 0 := by
  rw [magnitude, f.units_of_lt (Nat.two_pow_pos _), Nat.cast_zero, zero_div]

theorem magnitude_nonneg (rank : Nat) : 0 ≤ f.magnitude rank :=
  f.magnitude_zero ▸ f.magnitude_strictMono.monotone (Nat.zero_le rank)

theorem magnitude_eq_zero_iff {rank : Nat} : f.magnitude rank = 0 ↔ rank = 0 := by
  rw [← f.magnitude_zero]
  exact f.magnitude_strictMono.injective.eq_iff

theorem magnitude_single_one : single.magnitude 0x3F800000 = 1 := by
  have hunits : single.units 0x3F800000 = 2 ^ 149 := by decide
  rw [magnitude, hunits, Nat.cast_pow]
  exact div_self (pow_ne_zero _ two_ne_zero)

end BinaryFormat

/-- The number that a single-precision value stands for, if it is finite. -/
def Single.number? : Single → Option ℚ
  | .nan | .infinite _ => none
  | .finite negative rank =>
      let magnitude := BinaryFormat.single.magnitude rank
      some (if negative then -magnitude else magnitude)

/-- A value stands for the number of a magnitude only if it has that magnitude, and with a
minus only if that is zero. -/
theorem Single.number?_finite_eq_some_iff {negative : Bool}
    {rank : Fin BinaryFormat.single.overflow} {k : Nat} :
    (Single.finite negative rank).number? = some (BinaryFormat.single.magnitude k) ↔
      rank.val = k ∧ (negative = true → rank.val = 0) := by
  have hinj := BinaryFormat.single.magnitude_strictMono.injective
  cases negative with
  | false => simp [Single.number?, hinj.eq_iff]
  | true =>
      have hrank := BinaryFormat.single.magnitude_nonneg rank
      have hk := BinaryFormat.single.magnitude_nonneg k
      simp only [Single.number?, if_true, Option.some_inj, forall_const]
      constructor
      · -- A number that is neither positive nor negative leaves only rank 0 on both sides.
        intro h
        have hzero : BinaryFormat.single.magnitude rank = 0 := by linarith
        have hzero' : BinaryFormat.single.magnitude k = 0 := by linarith
        rw [BinaryFormat.magnitude_eq_zero_iff] at hzero hzero'
        exact ⟨hzero.trans hzero'.symm, hzero⟩
      · rintro ⟨rfl, hzero⟩
        rw [hzero, BinaryFormat.magnitude_zero, neg_zero]

namespace Certainty

/-- The number that a certainty stands for. -/
def number (c : Certainty) : ℚ := BinaryFormat.single.magnitude c.rank

theorem number_nonneg (c : Certainty) : 0 ≤ c.number := BinaryFormat.single.magnitude_nonneg c.rank

theorem number_le_one (c : Certainty) : c.number ≤ 1 := by
  rw [← BinaryFormat.magnitude_single_one]
  exact BinaryFormat.single.magnitude_strictMono.monotone c.le_one

theorem ofSingle_finite_eq_ok_iff {negative : Bool}
    {rank : Fin BinaryFormat.single.overflow} {c : Certainty} :
    ofSingle (.finite negative rank) = .ok c ↔
      rank.val = c.rank ∧ (negative = true → rank.val = 0) := by
  obtain ⟨k, hk⟩ := c
  rw [ofSingle]
  split
  next =>
    cases negative with
    | false => simp
    | true => by_cases hzero : rank.val = 0 <;> simp [hzero]
  next hlarge =>
    have hne : rank.val ≠ k := fun h => hlarge (h ▸ hk)
    simp [hne]

/-- A value becomes the certainty that stands for the same number and no other. -/
theorem ofSingle_eq_ok_iff {x : Single} {c : Certainty} :
    ofSingle x = .ok c ↔ x.number? = some c.number := by
  cases x with
  | nan | infinite => simp [ofSingle, Single.number?]
  | finite negative rank =>
      rw [ofSingle_finite_eq_ok_iff, number, Single.number?_finite_eq_some_iff]

/-- The accepted values are those whose number is from 0 to 1. -/
theorem exists_ofSingle_eq_ok_iff {x : Single} :
    (∃ c, ofSingle x = .ok c) ↔ ∃ q, x.number? = some q ∧ 0 ≤ q ∧ q ≤ 1 := by
  simp only [ofSingle_eq_ok_iff]
  constructor
  · exact fun ⟨c, hc⟩ => ⟨c.number, hc, c.number_nonneg, c.number_le_one⟩
  · rintro ⟨q, hq, hnonneg, hle⟩
    cases x with
    | nan | infinite => cases hq
    | finite negative rank =>
        cases negative with
        | false =>
            cases hq
            rw [← BinaryFormat.magnitude_single_one] at hle
            have hrank := BinaryFormat.single.magnitude_strictMono.le_iff_le.mp hle
            exact ⟨⟨rank, hrank⟩, rfl⟩
        | true =>
            cases hq
            have hmagnitude : BinaryFormat.single.magnitude rank = 0 :=
              le_antisymm (neg_nonneg.mp hnonneg) (BinaryFormat.single.magnitude_nonneg rank)
            have hrank := BinaryFormat.single.magnitude_eq_zero_iff.mp hmagnitude
            exact ⟨⟨0, Nat.zero_le _⟩,
              Single.number?_finite_eq_some_iff.mpr ⟨hrank, fun _ => hrank⟩⟩

end Certainty
end Defeasible
