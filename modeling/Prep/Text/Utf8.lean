/-
  Text/Utf8.lean --- UTF-8 as the standard library checks and decodes it.

  `valid` is the acceptance table of `std::str::from_utf8`; `codePoints` is
  `str::chars` on the code points, for the two validators that look at whole
  characters.
-/
import Prep.Text.Bytes

set_option autoImplicit false

namespace Prep.Text.Utf8

open Prep.Text

/-- A continuation byte. -/
def isTail (b : UInt8) : Bool := 0x80 ≤ b && b ≤ 0xBF

/-- The first two bytes of a three-byte sequence: no overlong form, no
surrogate. -/
def threeByteLead (b₀ b₁ : UInt8) : Bool :=
  (b₀ == 0xE0 && 0xA0 ≤ b₁ && b₁ ≤ 0xBF) ||
  (0xE1 ≤ b₀ && b₀ ≤ 0xEC && isTail b₁) ||
  (b₀ == 0xED && 0x80 ≤ b₁ && b₁ ≤ 0x9F) ||
  (0xEE ≤ b₀ && b₀ ≤ 0xEF && isTail b₁)

/-- The first two bytes of a four-byte sequence: no overlong form, nothing above
`U+10FFFF`. -/
def fourByteLead (b₀ b₁ : UInt8) : Bool :=
  (b₀ == 0xF0 && 0x90 ≤ b₁ && b₁ ≤ 0xBF) ||
  (0xF1 ≤ b₀ && b₀ ≤ 0xF3 && isTail b₁) ||
  (b₀ == 0xF4 && 0x80 ≤ b₁ && b₁ ≤ 0x8F)

/-- `std::str::from_utf8(..).is_ok()`. -/
def valid : Bytes → Bool
  | [] => true
  | b₀ :: rest =>
      if isAscii b₀ then valid rest
      else match rest with
      | [] => false
      | b₁ :: rest =>
          if 0xC2 ≤ b₀ && b₀ ≤ 0xDF then isTail b₁ && valid rest
          else match rest with
          | [] => false
          | b₂ :: rest =>
              if threeByteLead b₀ b₁ then isTail b₂ && valid rest
              else match rest with
              | [] => false
              | b₃ :: rest => fourByteLead b₀ b₁ && isTail b₂ && isTail b₃ && valid rest

/-- A string of ASCII bytes is valid. -/
theorem valid_of_isAscii : ∀ {s : Bytes}, s.all isAscii = true → valid s = true := by
  intro s
  induction s with
  | nil => intro _; rfl
  | cons b s ih =>
      intro h
      rw [List.all_cons, Bool.and_eq_true] at h
      unfold valid
      rw [if_pos h.1]
      exact ih h.2

/-- Behind a valid string the check goes on as if the string were not there. -/
theorem valid_append {s t : Bytes} (h : valid s = true) : valid (s ++ t) = valid t := by
  fun_induction valid s with
  | case1 => rfl
  | case2 b₀ rest hascii ih =>
      rw [List.cons_append, valid.eq_def (_ :: _)]
      simp only [hascii, if_true]
      exact ih h
  | case3 b₀ hascii => cases h
  | case4 b₀ hascii b₁ rest hrange ih =>
      rw [Bool.and_eq_true] at h
      rw [List.cons_append, List.cons_append, valid.eq_def (_ :: _)]
      simp only [hascii, hrange, if_true, h.1, Bool.true_and]
      exact ih h.2
  | case5 b₀ hascii b₁ hrange => cases h
  | case6 b₀ hascii b₁ hrange b₂ rest hlead ih =>
      rw [Bool.and_eq_true] at h
      simp only [List.cons_append]
      rw [valid.eq_def (_ :: _)]
      simp only [hascii, hrange, hlead, if_true, h.1, Bool.true_and]
      exact ih h.2
  | case7 b₀ hascii b₁ hrange b₂ hlead => cases h
  | case8 b₀ hascii b₁ hrange b₂ hlead b₃ rest ih =>
      simp only [Bool.and_eq_true] at h
      simp only [List.cons_append]
      rw [valid.eq_def (_ :: _)]
      simp only [hascii, hrange, hlead, h.1.1.1, h.1.1.2, h.1.2, Bool.true_and]
      exact ih h.2

/-- The code points of a string, `str::chars`.  Only the lead byte decides the
width, which is all a valid string needs. -/
def codePoints : Bytes → List Nat
  | [] => []
  | b₀ :: rest =>
      if isAscii b₀ then b₀.toNat :: codePoints rest
      else match rest with
      | [] => [b₀.toNat]
      | b₁ :: rest =>
          if b₀ < 0xE0 then (b₀.toNat % 32 * 64 + b₁.toNat % 64) :: codePoints rest
          else match rest with
          | [] => [b₀.toNat]
          | b₂ :: rest =>
              if b₀ < 0xF0 then
                (b₀.toNat % 16 * 4096 + b₁.toNat % 64 * 64 + b₂.toNat % 64) :: codePoints rest
              else match rest with
              | [] => [b₀.toNat]
              | b₃ :: rest =>
                  (b₀.toNat % 8 * 262144 + b₁.toNat % 64 * 4096 + b₂.toNat % 64 * 64 +
                    b₃.toNat % 64) :: codePoints rest

/-- `char::is_control`: general category `Cc`. -/
def isControl (c : Nat) : Bool := c < 0x20 || (0x7F ≤ c && c ≤ 0x9F)

/-- `char::is_whitespace`: the `White_Space` property. -/
def isWhitespace (c : Nat) : Bool :=
  (0x09 ≤ c && c ≤ 0x0D) || c == 0x20 || c == 0x85 || c == 0xA0 || c == 0x1680 ||
  (0x2000 ≤ c && c ≤ 0x200A) || c == 0x2028 || c == 0x2029 || c == 0x202F ||
  c == 0x205F || c == 0x3000

end Prep.Text.Utf8
