import Assembler65816.Text.Numeral
import Mathlib.Algebra.Ring.Nat

/-!
# Numerals read back

A numeral is a row of digits of its base and denotes the number it was written for; zeros in front
of it change nothing. It has no more digits than the number needs.
-/
namespace Assembler65816

namespace Radix

theorem value_le (r : Radix) : r.value ≤ 16 := by
  cases r <;> decide

theorem digitValue_digit {d : Nat} (h : d < 16) : digitValue (digit d) = some d := by
  have hall : ∀ d : Fin 16, digitValue (digit d) = some d.val := by decide
  exact hall ⟨d, h⟩

theorem isDigitOf_digit {r : Radix} {d : Nat} (h : d < r.value) : r.isDigitOf (digit d) := by
  rw [isDigitOf, digitValue_digit (Nat.lt_of_lt_of_le h r.value_le)]
  simpa using h

end Radix

theorem isDigitOf_of_mem_numeral {r : Radix} {n : Nat} {b : UInt8} (h : b ∈ numeral r n) :
    r.isDigitOf b := by
  fun_induction numeral r n with
  | case1 n hn =>
    rw [List.mem_singleton.1 h]
    exact Radix.isDigitOf_digit hn
  | case2 n hn ih =>
    rcases List.mem_append.1 h with h | h
    · exact ih h
    · rw [List.mem_singleton.1 h]
      have := r.two_le_value
      exact Radix.isDigitOf_digit (Nat.mod_lt _ (by omega))

theorem numeral_ne_nil (r : Radix) (n : Nat) : numeral r n ≠ [] := by
  rw [numeral]
  split <;> simp

theorem length_numeral_le {r : Radix} {n k : Nat} (h : n < r.value ^ (k + 1)) :
    (numeral r n).length ≤ k + 1 := by
  fun_induction numeral r n generalizing k with
  | case1 n hn => exact Nat.succ_le_succ k.zero_le
  | case2 n hn ih =>
    cases k with
    | zero => exact absurd (by simpa using h) hn
    | succ k =>
      have hdiv : n / r.value < r.value ^ (k + 1) := Nat.div_lt_of_lt_mul (by rwa [Nat.mul_comm])
      simpa using ih hdiv

theorem length_zeroFill_le {width k : Nat} {s : Text} (hwidth : width ≤ k) (hs : s.length ≤ k) :
    (zeroFill width s).length ≤ k := by
  rw [zeroFill, List.length_append, List.length_replicate]
  omega

theorem numeralValue_concat (r : Radix) (s : Text) (b : UInt8) :
    numeralValue r (s ++ [b]) = r.value * numeralValue r s + (Radix.digitValue b).getD 0 := by
  simp only [numeralValue, List.foldl_append, List.foldl_cons, List.foldl_nil]

theorem numeralValue_numeral (r : Radix) (n : Nat) : numeralValue r (numeral r n) = n := by
  have hdigit : ∀ {d}, d < r.value → (Radix.digitValue (Radix.digit d)).getD 0 = d := by
    intro d hd
    rw [Radix.digitValue_digit (Nat.lt_of_lt_of_le hd r.value_le)]
    rfl
  fun_induction numeral r n with
  | case1 n hn =>
    have := numeralValue_concat r [] (Radix.digit n)
    rw [List.nil_append, hdigit hn] at this
    rw [this]
    simp [numeralValue]
  | case2 n hn ih =>
    have := r.two_le_value
    rw [numeralValue_concat, ih, hdigit (Nat.mod_lt _ (by omega)), Nat.div_add_mod]

theorem numeralValue_zeroFill (r : Radix) (width : Nat) (s : Text) :
    numeralValue r (zeroFill width s) = numeralValue r s := by
  have hzero : (Radix.digitValue 48).getD 0 = 0 := rfl
  rw [numeralValue, zeroFill, List.foldl_append, numeralValue]
  congr 1
  induction width - s.length with
  | zero => rfl
  | succ k ih => rw [List.replicate_succ, List.foldl_cons, hzero, Nat.mul_zero, ih]

theorem isDigitOf_of_mem_zeroFill {r : Radix} {width : Nat} {s : Text}
    (hs : ∀ b ∈ s, r.isDigitOf b) : ∀ b ∈ zeroFill width s, r.isDigitOf b := by
  intro b hb
  rcases List.mem_append.1 hb with hb | hb
  · rw [(List.mem_replicate.1 hb).2]
    cases r <;> rfl
  · exact hs b hb

/-- A number that is not negative is written without a sign. -/
theorem hexWide_ofNat (width n : Nat) : hexWide width n = zeroFill width (numeral .hex n) := by
  rw [hexWide, if_neg (by omega), Int.natAbs_natCast]

end Assembler65816
