/-
  Text/Lossy.lean --- bytes shown as text, whatever they are.

  What is not UTF-8 is replaced, sequence by sequence, by `U+FFFD`: text of any bytes, the
  bytes themselves where they are text already, and at most three times as long.
-/
import Prep.Text.Str

set_option autoImplicit false

namespace Prep.Text.Utf8

/-- `char::REPLACEMENT_CHARACTER`. -/
def replacement : Bytes := [0xEF, 0xBF, 0xBD]

/-- `String::from_utf8_lossy`: the bytes that could have begun a character, up to the one
that does not go on with it, are replaced together. -/
def lossy : Bytes → Bytes
  | [] => []
  | b₀ :: rest =>
      if isAscii b₀ then b₀ :: lossy rest
      else match rest with
      | [] => replacement
      | b₁ :: rest₁ =>
          if 0xC2 ≤ b₀ && b₀ ≤ 0xDF && isTail b₁ then b₀ :: b₁ :: lossy rest₁
          else if threeByteLead b₀ b₁ then
            match rest₁ with
            | [] => replacement
            | b₂ :: rest₂ =>
                if isTail b₂ then b₀ :: b₁ :: b₂ :: lossy rest₂
                else replacement ++ lossy (b₂ :: rest₂)
          else if fourByteLead b₀ b₁ then
            match rest₁ with
            | [] => replacement
            | b₂ :: rest₂ =>
                if isTail b₂ then
                  match rest₂ with
                  | [] => replacement
                  | b₃ :: rest₃ =>
                      if isTail b₃ then b₀ :: b₁ :: b₂ :: b₃ :: lossy rest₃
                      else replacement ++ lossy (b₃ :: rest₃)
                else replacement ++ lossy (b₂ :: rest₂)
          else replacement ++ lossy (b₁ :: rest₁)

theorem valid_replacement : valid replacement = true := by decide

theorem length_replacement : replacement.length = 3 := rfl

/-- Every replacement stands for at least one byte. -/
theorem length_lossy_le (s : Bytes) : (lossy s).length ≤ 3 * s.length := by
  fun_induction lossy s <;>
    simp only [List.length_cons, List.length_append, List.length_nil, length_replacement] at * <;>
    omega

/-! ## What comes out is text -/

section Leads

variable {b₀ b₁ b₂ b₃ : UInt8}

/-- The lead bytes of longer sequences are no leads of two bytes. -/
theorem not_twoByteLead_of_threeByteLead (h : threeByteLead b₀ b₁ = true) :
    (0xC2 ≤ b₀ && b₀ ≤ 0xDF) = false := by
  unfold threeByteLead isTail at h
  grind

theorem not_shorterLead_of_fourByteLead (h : fourByteLead b₀ b₁ = true) :
    (0xC2 ≤ b₀ && b₀ ≤ 0xDF) = false ∧ threeByteLead b₀ b₁ = false := by
  unfold fourByteLead isTail at h
  unfold threeByteLead isTail
  grind

theorem valid_one (hascii : isAscii b₀ = true) : valid [b₀] = true := by
  simp [valid, hascii]

theorem valid_two (hascii : isAscii b₀ = false)
    (h : (0xC2 ≤ b₀ && b₀ ≤ 0xDF && isTail b₁) = true) : valid [b₀, b₁] = true := by
  simp only [Bool.and_eq_true, decide_eq_true_eq] at h
  simp [valid, hascii, h]

theorem valid_three (hascii : isAscii b₀ = false) (hlead : threeByteLead b₀ b₁ = true)
    (htail : isTail b₂ = true) : valid [b₀, b₁, b₂] = true := by
  have htwo := not_twoByteLead_of_threeByteLead hlead
  simp only [Bool.and_eq_false_iff, decide_eq_false_iff_not] at htwo
  simp [valid, hascii, hlead, htail]
  grind

theorem valid_four (hascii : isAscii b₀ = false) (hlead : fourByteLead b₀ b₁ = true)
    (htail : isTail b₂ = true) (htail' : isTail b₃ = true) :
    valid [b₀, b₁, b₂, b₃] = true := by
  obtain ⟨htwo, hthree⟩ := not_shorterLead_of_fourByteLead hlead
  simp only [Bool.and_eq_false_iff, decide_eq_false_iff_not] at htwo
  simp [valid, hascii, hlead, hthree, htail, htail']
  grind

end Leads

/-- What is shown is always UTF-8. -/
theorem valid_lossy (s : Bytes) : valid (lossy s) = true := by
  fun_induction lossy s with
  | case1 => rfl
  | case2 b₀ rest hascii ih => exact (valid_append (valid_one hascii)).trans ih
  | case3 => exact valid_replacement
  | case4 b₀ hascii b₁ rest hlead ih =>
      rw [Bool.not_eq_true] at hascii
      exact (valid_append (valid_two hascii hlead)).trans ih
  | case5 => exact valid_replacement
  | case6 b₀ hascii b₁ _ hlead b₂ rest htail ih =>
      rw [Bool.not_eq_true] at hascii
      exact (valid_append (valid_three hascii hlead htail)).trans ih
  | case7 b₀ _ b₁ _ _ b₂ rest _ ih => exact (valid_append valid_replacement).trans ih
  | case8 => exact valid_replacement
  | case9 => exact valid_replacement
  | case10 b₀ hascii b₁ _ _ hlead b₂ htail b₃ rest htail' ih =>
      rw [Bool.not_eq_true] at hascii
      exact (valid_append (valid_four hascii hlead htail htail')).trans ih
  | case11 _ _ _ _ _ _ _ _ _ _ _ ih => exact (valid_append valid_replacement).trans ih
  | case12 _ _ _ _ _ _ _ _ _ ih => exact (valid_append valid_replacement).trans ih
  | case13 _ _ _ _ _ _ _ ih => exact (valid_append valid_replacement).trans ih

/-- Text is shown as it is. -/
theorem lossy_of_valid {s : Bytes} (h : valid s = true) : lossy s = s := by
  fun_induction valid s with
  | case1 => rfl
  | case2 b₀ rest hascii ih =>
      rw [lossy.eq_def (_ :: _)]
      simp only [hascii, if_true, ih h]
  | case3 b₀ hascii => cases h
  | case4 b₀ hascii b₁ rest hrange ih =>
      rw [Bool.and_eq_true] at h
      rw [lossy.eq_def (_ :: _)]
      simp [hascii, hrange, h.1, ih h.2]
  | case5 b₀ hascii b₁ hrange => cases h
  | case6 b₀ hascii b₁ hrange b₂ rest hlead ih =>
      rw [Bool.and_eq_true] at h
      rw [lossy.eq_def (_ :: _)]
      simp [hascii, hrange, hlead, h.1, ih h.2]
  | case7 b₀ hascii b₁ hrange b₂ hlead => cases h
  | case8 b₀ hascii b₁ hrange b₂ hlead b₃ rest ih =>
      simp only [Bool.and_eq_true] at h
      rw [lossy.eq_def (_ :: _)]
      simp [hascii, hrange, hlead, h.1.1.1, h.1.1.2, h.1.2, ih h.2]

end Prep.Text.Utf8

namespace Prep.Text

/-- `String::from_utf8_lossy(..).into_owned()`. -/
def Str.ofLossy (bytes : Bytes) : Str := ⟨Utf8.lossy bytes, Utf8.valid_lossy bytes⟩

end Prep.Text
