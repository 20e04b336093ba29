/-
  Text/Bytes.lean --- byte strings and the ASCII operations of the standard
  library that the crates use.

  A Rust `str` is represented by its UTF-8 bytes.  Every string operation below
  works byte by byte in the source too (`len`, `bytes`, `strip_prefix`,
  `to_ascii_lowercase`, `split` on an ASCII separator), so no operation needs the
  bytes to be valid UTF-8; where the source checks validity the check is modelled
  on its own.
-/
import Mathlib

set_option autoImplicit false

namespace Prep.Text

/-- Bytes of a string, of a file name, or of a file. -/
abbrev Bytes : Type := List UInt8

instance : LawfulBEq Bytes := inferInstance

/-- The bytes of an ASCII literal. -/
def ascii (text : String) : Bytes := text.toList.map fun c => UInt8.ofNat c.toNat

/-! ## Bytes -/

/-- `u8::is_ascii`. -/
def isAscii (b : UInt8) : Bool := b < 128

/-- `u8::is_ascii_digit`. -/
def isAsciiDigit (b : UInt8) : Bool := 48 ≤ b && b ≤ 57

/-- `u8::is_ascii_hexdigit`. -/
def isAsciiHexdigit (b : UInt8) : Bool :=
  isAsciiDigit b || (65 ≤ b && b ≤ 70) || (97 ≤ b && b ≤ 102)

/-- A hexadecimal digit in the spelling `to_ascii_lowercase` leaves alone. -/
def isLowerHexdigit (b : UInt8) : Bool := isAsciiDigit b || (97 ≤ b && b ≤ 102)

/-- `u8::is_ascii_alphanumeric`. -/
def isAsciiAlphanumeric (b : UInt8) : Bool :=
  isAsciiDigit b || (65 ≤ b && b ≤ 90) || (97 ≤ b && b ≤ 122)

/-- `u8::to_ascii_lowercase`. -/
def asciiLower (b : UInt8) : UInt8 := if 65 ≤ b ∧ b ≤ 90 then b + 32 else b

/-- `u8::to_ascii_uppercase`. -/
def asciiUpper (b : UInt8) : UInt8 := if 97 ≤ b ∧ b ≤ 122 then b - 32 else b

@[simp] theorem asciiLower_asciiLower (b : UInt8) :
    asciiLower (asciiLower b) = asciiLower b := by
  revert b
  decide +kernel

@[simp] theorem isAsciiHexdigit_asciiLower (b : UInt8) :
    isAsciiHexdigit (asciiLower b) = isAsciiHexdigit b := by
  revert b
  decide +kernel

theorem isLowerHexdigit_iff (b : UInt8) :
    isLowerHexdigit b = true ↔ isAsciiHexdigit b = true ∧ asciiLower b = b := by
  revert b
  decide +kernel

/-! ## Strings -/

/-- `str::to_ascii_lowercase`. -/
def toAsciiLowercase (s : Bytes) : Bytes := s.map asciiLower

/-- `str::to_ascii_uppercase`. -/
def toAsciiUppercase (s : Bytes) : Bytes := s.map asciiUpper

@[simp] theorem toAsciiLowercase_nil : toAsciiLowercase [] = [] := rfl

@[simp] theorem toAsciiLowercase_cons (b : UInt8) (s : Bytes) :
    toAsciiLowercase (b :: s) = asciiLower b :: toAsciiLowercase s := rfl

@[simp] theorem toAsciiLowercase_append (s t : Bytes) :
    toAsciiLowercase (s ++ t) = toAsciiLowercase s ++ toAsciiLowercase t :=
  List.map_append

@[simp] theorem length_toAsciiLowercase (s : Bytes) :
    (toAsciiLowercase s).length = s.length :=
  List.length_map _

@[simp] theorem toAsciiLowercase_toAsciiLowercase (s : Bytes) :
    toAsciiLowercase (toAsciiLowercase s) = toAsciiLowercase s := by
  simp [toAsciiLowercase]

@[simp] theorem all_isAsciiHexdigit_toAsciiLowercase (s : Bytes) :
    (toAsciiLowercase s).all isAsciiHexdigit = s.all isAsciiHexdigit := by
  induction s with
  | nil => rfl
  | cons b s ih => rw [toAsciiLowercase_cons, List.all_cons, List.all_cons, ih,
      isAsciiHexdigit_asciiLower]

/-- A string of lower-case hexadecimal digits is one of hexadecimal digits that
lower-casing leaves alone. -/
theorem all_isLowerHexdigit_iff (s : Bytes) :
    s.all isLowerHexdigit = true ↔
      s.all isAsciiHexdigit = true ∧ toAsciiLowercase s = s := by
  induction s with
  | nil => simp
  | cons b s ih =>
      rw [List.all_cons, List.all_cons, Bool.and_eq_true, Bool.and_eq_true,
        isLowerHexdigit_iff, ih, toAsciiLowercase_cons, List.cons.injEq]
      tauto

/-- `str::strip_prefix`. -/
def stripPrefix (pre s : Bytes) : Option Bytes := s.dropPrefix? pre

theorem stripPrefix_eq_some {pre s rest : Bytes} :
    stripPrefix pre s = some rest ↔ s = pre ++ rest := by
  rw [stripPrefix, List.dropPrefix?_eq_some_iff]
  constructor
  · rintro ⟨p, rfl, hp⟩
    rw [eq_of_beq hp]
  · rintro rfl
    exact ⟨pre, rfl, beq_self_eq_true pre⟩

@[simp] theorem stripPrefix_append (pre rest : Bytes) :
    stripPrefix pre (pre ++ rest) = some rest :=
  stripPrefix_eq_some.mpr rfl

theorem stripPrefix_eq_none {pre s : Bytes} :
    stripPrefix pre s = none ↔ ∀ rest, s ≠ pre ++ rest := by
  rw [Option.eq_none_iff_forall_ne_some]
  simp only [ne_eq, stripPrefix_eq_some]

/-- `str::split_once`: the text around the first occurrence of `pat`. -/
def splitOnce (pat : Bytes) : Bytes → Option (Bytes × Bytes)
  | [] => (stripPrefix pat []).map fun rest => ([], rest)
  | b :: s =>
      match stripPrefix pat (b :: s) with
      | some rest => some ([], rest)
      | none => (splitOnce pat s).map fun p => (b :: p.1, p.2)

end Prep.Text
