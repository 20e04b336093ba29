/-
  Text/Display.lean --- byte strings inside messages.

  The tables of Unicode are left out: `{:?}` of the standard library also escapes the
  characters beyond ASCII that are not printable or that extend a grapheme (U+0085 is
  written `\u{85}`).  Here they stand as they are, so a message that quotes one has another
  text than the source's.  No verdict and no other field of an error depends on it.
-/
import Prep.Text.Utf8

set_option autoImplicit false

namespace Prep.Text

/-- `{}` of a string. -/
def display (value : Bytes) : String :=
  String.ofList ((Utf8.codePoints value).map Char.ofNat)

/-- A character as `{:?}` of a string writes it, without the escapes beyond ASCII. -/
def escapeDebug (c : Char) : String :=
  if c = '"' then "\\\""
  else if c = '\\' then "\\\\"
  else if c = '\n' then "\\n"
  else if c = '\r' then "\\r"
  else if c = '\t' then "\\t"
  else if c = '\u0000' then "\\0"
  else if c.toNat < 32 ∨ c.toNat = 127 then
    "\\u\x7b" ++ String.ofList (Nat.toDigits 16 c.toNat) ++ "\x7d"
  else c.toString

/-- `{:?}` of a string. -/
def debug (value : Bytes) : String :=
  "\"" ++ String.join ((Utf8.codePoints value).map fun c => escapeDebug (Char.ofNat c)) ++ "\""

end Prep.Text
