/-
  Serde/Toml.lean --- TOML text of typed values, as the crate `toml` writes and reads it.

  The crate is a parameter: what is relied on is that the text of a table is read as a
  table with the same data.
-/
import Prep.Serde.Json

set_option autoImplicit false

namespace Prep.Serde

open Prep.Text

/-- What TOML carries: UTF-8 strings and signed integers of 64 bits, and no `null`. -/
def toml : Limits where
  null := False
  integer n := -2 ^ 63 ≤ n ∧ n < 2 ^ 63
  string s := Utf8.valid s = true

/-- TOML, with strings of any bytes. -/
def tomlData : Limits := { toml with string := fun _ => True }

/-- The lists and tables that may stand in each other. -/
def tomlDepth : Nat := 80

/-- The crate `toml`: text of a table, the tree of a text, and what it says of a text that is
TOML but no value of the type it is read as. -/
structure TomlCrate where
  toStringPretty : Tree → Except String Bytes
  ofText : Bytes → Except String Tree
  mismatch : Bytes → String
  reads_back : ∀ entries, (Tree.map entries).Fits toml tomlDepth →
    ∃ text t, toStringPretty (.map entries) = .ok text ∧ ofText text = .ok t ∧
      (Tree.map entries).Same tomlDepth t

namespace TomlCrate

variable {α : Type} (crate : TomlCrate)

/-- `toml::from_str` into a type that is read from trees by `read`. -/
def fromStr (read : Tree → Option α) (text : Bytes) : Except String α :=
  (crate.ofText text).bind fun t =>
    match read t with
    | some value => .ok value
    | none => .error (crate.mismatch text)

/-- A value whose strings are UTF-8 is read back from its text. -/
theorem fromStr_toStringPretty (c : Codec tomlData α) (hdepth : c.depth ≤ tomlDepth) {a : α}
    {entries : List (Bytes × Tree)} (hmap : c.write a = .map entries)
    (hstrings : (c.write a).AllStrings (fun s => Utf8.valid s = true) tomlDepth) :
    ∃ text, crate.toStringPretty (c.write a) = .ok text ∧ crate.fromStr c.read text = .ok a := by
  have hfits : (c.write a).Fits toml tomlDepth :=
    (((c.fits a).mono hdepth).withStrings hstrings).imp id (fun _ => id) fun _ hs => hs.2
  rw [hmap] at hfits
  obtain ⟨text, t, htext, hread, hsame⟩ := crate.reads_back entries hfits
  rw [← hmap] at htext hsame
  refine ⟨text, htext, ?_⟩
  rw [fromStr, hread]
  show (match c.read t with | some value => _ | none => _) = _
  rw [c.read_of_same hdepth hsame]

end TomlCrate

/-! ## The values of TOML -/

namespace Toml

theorem string_of_ascii : ∀ name : Bytes, name.all isAscii = true → tomlData.string name :=
  fun _ _ => trivial

/-- `String`. -/
def string : Codec tomlData Bytes := .text id some (fun _ => rfl) fun _ => trivial

/-- The codec of a record that denies unknown fields. -/
def record {σ : Type} (r : Record tomlData σ) (hnamed : r.WellNamed) : Codec tomlData σ :=
  r.codec hnamed string_of_ascii

end Toml

end Prep.Serde
