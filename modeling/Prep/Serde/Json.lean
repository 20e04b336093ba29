/-
  Serde/Json.lean --- JSON text of typed values, as `serde_json` writes and reads it.

  `serde_json` is a parameter: what is relied on is that compact text is printable, and
  that it is read as the tree it was written from.
-/
import Prep.Serde.Compact
import Prep.Serde.Record

set_option autoImplicit false

namespace Prep.Serde

open Prep.Text

/-- What JSON carries: UTF-8 strings, and integers of 64 bits, signed or not. -/
def json : Limits where
  null := True
  integer n := -2 ^ 63 ≤ n ∧ n < 2 ^ 64
  string s := Utf8.valid s = true

/-- The lists and maps that may stand in each other: `serde_json` refuses the 128th. -/
def jsonDepth : Nat := 127

/-- `serde_json`: compact text of a tree, the tree of a text, and what it says of a text
that is JSON but no value of the type it is read as. -/
structure SerdeJson where
  toText : Tree → Except String Bytes
  ofText : Bytes → Except String Tree
  mismatch : Bytes → String
  reads_back : ∀ t, t.Fits json jsonDepth → ∃ text, toText t = .ok text ∧ ofText text = .ok t ∧
    text ≠ [] ∧ Compact.Clean text

namespace SerdeJson

variable {α : Type} (s : SerdeJson)

/-- `serde_json::from_str` into a type that is read from trees by `read`. -/
def fromStr (read : Tree → Option α) (text : Bytes) : Except String α :=
  (s.ofText text).bind fun t =>
    match read t with
    | some value => .ok value
    | none => .error (s.mismatch text)

variable {s}

/-- What is read from a text is the value of its tree. -/
theorem fromStr_eq_ok_iff {read : Tree → Option α} {text : Bytes} {value : α} :
    s.fromStr read text = .ok value ↔ ∃ t, s.ofText text = .ok t ∧ read t = some value := by
  rw [fromStr]
  cases s.ofText text with
  | error e => exact ⟨fun h => (by cases h), fun ⟨_, h, _⟩ => (by cases h)⟩
  | ok t =>
      rw [Except.bind]
      constructor
      · intro h
        cases hread : read t with
        | none =>
            rw [hread] at h
            cases h
        | some found =>
            rw [hread] at h
            cases h
            exact ⟨t, rfl, hread⟩
      · rintro ⟨_, ⟨⟩, hread⟩
        rw [hread]

end SerdeJson

/-- JSON that has no blanks, and reads none. -/
def compactJson : SerdeJson where
  toText t := .ok (Compact.writeAt jsonDepth t)
  ofText text :=
    match Compact.readAt jsonDepth text with
    | some (t, []) => .ok t
    | _ => .error "expected value"
  mismatch _ := "invalid type"
  reads_back t h := by
    obtain ⟨⟨b, tail, hwrite, _⟩, hread⟩ := Compact.readAt_writeAt h
    have hread := hread [] fun b hb => by cases hb
    rw [List.append_nil] at hread
    refine ⟨_, rfl, ?_, ?_, Compact.clean_writeAt (fun _ hs => hs) h⟩
    · simp only [hread]
    · rw [hwrite]
      exact List.cons_ne_nil _ _

/-! ## The strings, integers and options of JSON -/

namespace Json

theorem string_of_ascii : ∀ name : Bytes, name.all isAscii = true → json.string name :=
  fun _ h => Utf8.valid_of_isAscii h

/-- `String`. -/
def str : Codec json Str := .text Str.bytes Str.ofBytes? Str.ofBytes?_bytes Str.valid

theorem integer_toNat (n : UInt64) : json.integer n.toNat := by
  have h := n.toNat_lt
  constructor <;> omega

/-- `u64`. -/
def u64 : Codec json UInt64 := .u64 integer_toNat

theorem str_read_eq_some {t : Tree} {s : Str} (h : str.read t = some s) : t = .string s.bytes := by
  cases t with
  | string value => exact congrArg Tree.string (Str.ofBytes?_eq_some.mp h).symm
  | _ => cases h

theorem str_ne_null (s : Str) : str.write s ≠ .null := nofun

theorem u64_ne_null (n : UInt64) : u64.write n ≠ .null := nofun

/-- `Option` of a type that is never `null`. -/
def option {α : Type} (c : Codec json α) (hnull : ∀ a, c.write a ≠ .null) :
    Codec json (Option α) := .option c trivial hnull

/-- `BTreeMap<String, String>`. -/
def strMap : Codec json (Data.SortedMap Str Str) :=
  .sortedMap Str.bytes Str.ofBytes? Str.ofBytes?_bytes
    (fun h => Str.ofBytes?_eq_some.mp h) Str.valid str

/-- An enumeration by its wire names. -/
def enumeration {α : Type} (all : List α) (name : α → String)
    (hnames : ∀ a, (all.find? fun b => ascii (name b) = ascii (name a)) = some a)
    (hascii : ∀ a, (ascii (name a)).all isAscii = true) : Codec json α :=
  .enumeration Codec.isUnit Codec.isUnit_congr all (fun a => ascii (name a)) hnames
    fun a => string_of_ascii _ (hascii a)

/-- An enumeration by its wire names, in an enumeration with `#[serde(tag)]`: its content is
buffered before it is read. -/
def bufferedEnumeration {α : Type} (all : List α) (name : α → String)
    (hnames : ∀ a, (all.find? fun b => ascii (name b) = ascii (name a)) = some a)
    (hascii : ∀ a, (ascii (name a)).all isAscii = true) : Codec json α :=
  .enumeration Codec.isBufferedUnit Codec.isBufferedUnit_congr all (fun a => ascii (name a))
    hnames fun a => string_of_ascii _ (hascii a)

/-- The codec of a record that denies unknown fields. -/
def record {σ : Type} (r : Record json σ) (hnamed : r.WellNamed) : Codec json σ :=
  r.codec hnamed string_of_ascii

end Json

end Prep.Serde
