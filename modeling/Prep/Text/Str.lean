/-
  Text/Str.lean --- strings that are known to be UTF-8.
-/
import Prep.Text.Utf8

set_option autoImplicit false

namespace Prep.Text

/-- `String`: bytes that are valid UTF-8. -/
structure Str where
  bytes : Bytes
  valid : Utf8.valid bytes = true

namespace Str

@[ext] theorem ext {left right : Str} (h : left.bytes = right.bytes) : left = right := by
  cases left
  cases right
  cases h
  rfl

instance : DecidableEq Str := fun left right =>
  decidable_of_iff (left.bytes = right.bytes) ⟨ext, congrArg bytes⟩

/-- `String::from_utf8(..).ok()`. -/
def ofBytes? (bytes : Bytes) : Option Str :=
  if h : Utf8.valid bytes = true then some ⟨bytes, h⟩ else none

@[simp] theorem ofBytes?_bytes (s : Str) : ofBytes? s.bytes = some s := dif_pos s.valid

theorem ofBytes?_eq_some {bytes : Bytes} {s : Str} :
    ofBytes? bytes = some s ↔ s.bytes = bytes := by
  constructor
  · intro h
    unfold ofBytes? at h
    split at h
    · exact congrArg Str.bytes (Option.some.inj h).symm
    · cases h
  · rintro rfl
    exact ofBytes?_bytes s

/-- An ASCII literal. -/
def ofAscii (text : String) (h : (ascii text).all isAscii = true) : Str :=
  ⟨ascii text, Utf8.valid_of_isAscii h⟩

/-! `derive(PartialOrd, Ord)`: by the bytes. -/

instance : Ord Str where
  compare left right := compare left.bytes right.bytes

instance : Std.TransOrd Str where
  eq_swap {left right} :=
    show compare left.bytes right.bytes = (compare right.bytes left.bytes).swap from
      Std.OrientedOrd.eq_swap
  isLE_trans {left mid right} h h' :=
    show (compare left.bytes right.bytes).isLE = true from
      Std.TransOrd.isLE_trans
        (show (compare left.bytes mid.bytes).isLE = true from h)
        (show (compare mid.bytes right.bytes).isLE = true from h')

instance : Std.LawfulEqOrd Str where
  compare_self {s} := show compare s.bytes s.bytes = .eq from Std.ReflOrd.compare_self
  eq_of_compare {left right} h :=
    ext (Std.LawfulEqOrd.eq_of_compare (show compare left.bytes right.bytes = .eq from h))

end Str

end Prep.Text
