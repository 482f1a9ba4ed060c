import ManifestScan.UpgradeStep
import Mathlib.Data.List.Induction
import Mathlib.Data.Nat.Digits.Defs

namespace ManifestScan

theorem decimal_ne_nil (n : Nat) : decimal n ≠ [] := by
  rw [decimal]
  split <;> simp

theorem digit_toNat {n : Nat} (hn : n < 10) : (0x30 + n.toUInt8 - 0x30).toNat = n := by
  have h : ∀ n < 10, (0x30 + n.toUInt8 - 0x30).toNat = n := by decide
  exact h n hn

theorem isDigit_digit {n : Nat} (hn : n < 10) : isDigit (0x30 + n.toUInt8) = true := by
  have h : ∀ n < 10, isDigit (0x30 + n.toUInt8) = true := by decide
  exact h n hn

theorem all_isDigit_decimal (n : Nat) : (decimal n).all isDigit = true := by
  fun_induction decimal n with
  | case1 n hn => simp [isDigit_digit hn]
  | case2 n hn ih => simp [ih, isDigit_digit (Nat.mod_lt n (by decide : 0 < 10))]

theorem numberOf_decimal (n : Nat) : UpgradeStep.numberOf (decimal n) = n := by
  fun_induction decimal n with
  | case1 n hn =>
    show 10 * 0 + (0x30 + n.toUInt8 - 0x30).toNat = n
    rw [digit_toNat hn]
    omega
  | case2 n hn ih =>
    rw [UpgradeStep.numberOf, List.foldl_append]
    rw [UpgradeStep.numberOf] at ih
    rw [ih]
    show 10 * (n / 10) + (0x30 + (n % 10).toUInt8 - 0x30).toNat = n
    rw [digit_toNat (Nat.mod_lt n (by decide))]
    omega

namespace UpgradeStep

def digitsValue (digits : Bytes) : Nat := Nat.ofDigits 10 (digits.reverse.map fun b => b.toNat - 48)

theorem numberOf_append (digits : Bytes) (b : UInt8) :
    numberOf (digits ++ [b]) = 10 * numberOf digits + (b - 0x30).toNat := by
  unfold numberOf
  rw [List.foldl_append, List.foldl_cons, List.foldl_nil]

/-- Reading digits from the left gives what they stand for. -/
theorem numberOf_eq {digits : Bytes} (h : ∀ b ∈ digits, isDigit b = true) :
    numberOf digits = digitsValue digits := by
  have hdigit : ∀ b, isDigit b = true → (b - 0x30).toNat = b.toNat - 48 := by
    intro b hb
    simp only [isDigit, Bool.and_eq_true, decide_eq_true_eq] at hb
    exact UInt8.toNat_sub_of_le b 0x30 hb.1
  induction digits using List.reverseRecOn with
  | nil => rfl
  | append_singleton digits b ih =>
    rw [List.forall_mem_append, List.forall_mem_singleton] at h
    rw [numberOf_append, ih h.1, hdigit b h.2, digitsValue, digitsValue, List.reverse_append,
      List.reverse_singleton, List.singleton_append, List.map_cons, Nat.ofDigits_cons, Nat.add_comm]

end UpgradeStep

end ManifestScan
