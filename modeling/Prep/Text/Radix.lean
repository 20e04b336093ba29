/-
  Text/Radix.lean --- natural numbers as digits, written and read.
-/
import Prep.Text.Bytes

set_option autoImplicit false

namespace Prep.Text

/-- The digit of a value below sixteen, in lower case. -/
def digitByte (d : Nat) : UInt8 := UInt8.ofNat (if d < 10 then 48 + d else 87 + d)

/-- The value of a digit. -/
def digitValue (b : UInt8) : Nat := if b < 58 then b.toNat - 48 else b.toNat - 87

theorem digitValue_digitByte {d : Nat} (h : d < 16) : digitValue (digitByte d) = d := by
  interval_cases d <;> decide

/-- Digits read most significant first, `from_str_radix` on digits of the base. -/
def ofDigits (base : Nat) (digits : Bytes) : Nat :=
  digits.foldl (fun value digit => value * base + digitValue digit) 0

theorem ofDigits_append_singleton (base : Nat) (digits : Bytes) (digit : UInt8) :
    ofDigits base (digits ++ [digit]) = ofDigits base digits * base + digitValue digit := by
  rw [ofDigits, List.foldl_append]
  rfl

/-- A number in exactly `width` digits, zeros first, `{:0width}`. -/
def padded (base : Nat) : Nat → Nat → Bytes
  | 0, _ => []
  | width + 1, n => padded base width (n / base) ++ [digitByte (n % base)]

@[simp] theorem length_padded (base width n : Nat) : (padded base width n).length = width := by
  induction width generalizing n with
  | zero => rfl
  | succ width ih => rw [padded, List.length_append, ih, List.length_singleton]

theorem ofDigits_padded {base : Nat} (hbase : 0 < base) (hbase' : base ≤ 16) :
    ∀ {width n : Nat}, n < base ^ width → ofDigits base (padded base width n) = n := by
  intro width
  induction width with
  | zero =>
      intro n h
      rw [pow_zero] at h
      obtain rfl : n = 0 := by omega
      rfl
  | succ width ih =>
      intro n h
      have hdigit : n % base < 16 := (Nat.mod_lt n hbase).trans_le hbase'
      have hrest : n / base < base ^ width := by
        rw [Nat.div_lt_iff_lt_mul hbase, ← pow_succ]
        exact h
      rw [padded, ofDigits_append_singleton, ih hrest, digitValue_digitByte hdigit, mul_comm]
      exact Nat.div_add_mod n base

/-- `usize::to_string`. -/
def toDecimal (n : Nat) : Bytes :=
  if n = 0 then [48] else (Nat.digits 10 n).reverse.map digitByte

/-- `{:x}`. -/
def toHexadecimal (n : Nat) : Bytes :=
  if n = 0 then [48] else (Nat.digits 16 n).reverse.map digitByte

theorem ofDigits_map_reverse (digits : List Nat) (h : ∀ d ∈ digits, d < 16) (base : Nat) :
    ofDigits base (digits.reverse.map digitByte) = Nat.ofDigits base digits := by
  induction digits with
  | nil => rfl
  | cons d digits ih =>
      rw [List.reverse_cons, List.map_append, List.map_singleton, ofDigits_append_singleton,
        ih fun e he => h e (List.mem_cons_of_mem _ he),
        digitValue_digitByte (h d List.mem_cons_self), Nat.ofDigits_cons]
      ring

theorem ofDigits_toDecimal (n : Nat) : ofDigits 10 (toDecimal n) = n := by
  unfold toDecimal
  split
  · rename_i hzero
    rw [hzero]
    rfl
  · rw [ofDigits_map_reverse, Nat.ofDigits_digits]
    intro d hd
    exact (Nat.digits_lt_base (by norm_num) hd).trans (by norm_num)

/-- Different numbers are written differently. -/
theorem toDecimal_injective : Function.Injective toDecimal := by
  intro m n h
  rw [← ofDigits_toDecimal m, h, ofDigits_toDecimal]

theorem length_toDecimal_le {n : Nat} (h : n < 2 ^ 64) : (toDecimal n).length ≤ 20 := by
  unfold toDecimal
  split
  · decide
  · rw [List.length_map, List.length_reverse, Nat.digits_length_le_iff (by norm_num)]
    exact h.trans (by norm_num)

theorem length_toHexadecimal_le {n width : Nat} (hwidth : 0 < width) (h : n < 16 ^ width) :
    (toHexadecimal n).length ≤ width := by
  unfold toHexadecimal
  split
  · exact hwidth
  · rw [List.length_map, List.length_reverse, Nat.digits_length_le_iff (by norm_num)]
    exact h

theorem isAsciiAlphanumeric_digitByte {d : Nat} (h : d < 16) :
    isAsciiAlphanumeric (digitByte d) = true := by
  interval_cases d <;> decide

theorem all_isAsciiAlphanumeric_digits {base : Nat} (hbase : 1 < base) (hbase' : base ≤ 16)
    (n : Nat) : ((Nat.digits base n).reverse.map digitByte).all isAsciiAlphanumeric = true := by
  rw [List.all_eq_true]
  intro b hb
  obtain ⟨d, hd, rfl⟩ := List.mem_map.mp hb
  exact isAsciiAlphanumeric_digitByte
    ((Nat.digits_lt_base hbase (List.mem_reverse.mp hd)).trans_le hbase')

theorem all_isAsciiAlphanumeric_toDecimal (n : Nat) :
    (toDecimal n).all isAsciiAlphanumeric = true := by
  unfold toDecimal
  split
  · rfl
  · exact all_isAsciiAlphanumeric_digits (by norm_num) (by norm_num) n

theorem all_isAsciiDigit_toDecimal (n : Nat) : (toDecimal n).all isAsciiDigit = true := by
  unfold toDecimal
  split
  · rfl
  · rw [List.all_eq_true]
    intro b hb
    obtain ⟨d, hd, rfl⟩ := List.mem_map.mp hb
    have hlt : d < 10 := Nat.digits_lt_base (by norm_num) (List.mem_reverse.mp hd)
    interval_cases d <;> decide

theorem toDecimal_ne_nil (n : Nat) : toDecimal n ≠ [] := by
  unfold toDecimal
  split
  · exact List.cons_ne_nil _ _
  · rename_i h
    intro hnil
    rw [List.map_eq_nil_iff, List.reverse_eq_nil_iff, Nat.digits_eq_nil_iff_eq_zero] at hnil
    exact h hnil

theorem all_isAsciiAlphanumeric_toHexadecimal (n : Nat) :
    (toHexadecimal n).all isAsciiAlphanumeric = true := by
  unfold toHexadecimal
  split
  · rfl
  · exact all_isAsciiAlphanumeric_digits (by norm_num) (by norm_num) n

end Prep.Text
