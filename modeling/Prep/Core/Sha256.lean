/-
  Core/Sha256.lean --- the digests SHA-256 returns and their hexadecimal text.

  SHA-256 itself is a parameter of whatever uses it: a function from the bytes it
  has been given to thirty-two bytes.
-/
import Prep.Text.Radix

set_option autoImplicit false

namespace Prep.Core

open Prep.Text

/-- The digest `Sha256::finalize` returns. -/
abbrev Sha256Output : Type := { bytes : Bytes // bytes.length = 32 }

/-- `finish_hex` on the digest. -/
def finishHex (digest : Sha256Output) : Bytes := digest.1.flatMap fun b => padded 16 2 b.toNat

theorem length_finishHex (digest : Sha256Output) : (finishHex digest).length = 64 := by
  have hlength : ∀ bytes : Bytes,
      (bytes.flatMap fun b => padded 16 2 b.toNat).length = 2 * bytes.length := by
    intro bytes
    induction bytes with
    | nil => rfl
    | cons b bytes ih =>
        rw [List.flatMap_cons, List.length_append, length_padded, ih, List.length_cons]
        omega
  rw [finishHex, hlength, digest.2]

theorem all_isLowerHexdigit_finishHex (digest : Sha256Output) :
    (finishHex digest).all isLowerHexdigit = true := by
  rw [List.all_eq_true]
  intro b hb
  obtain ⟨byte, _, hdigit⟩ := List.mem_flatMap.mp hb
  have hpair : ∀ byte : UInt8, (padded 16 2 byte.toNat).all isLowerHexdigit = true := by
    decide +kernel
  exact List.all_eq_true.mp (hpair byte) b hdigit

/-- Digests of the same text are the same. -/
theorem finishHex_injective : Function.Injective finishHex := by
  have hpair : ∀ b c : UInt8, padded 16 2 b.toNat = padded 16 2 c.toNat → b = c := by
    intro b c h
    have hback : ∀ byte : UInt8, ofDigits 16 (padded 16 2 byte.toNat) = byte.toNat :=
      fun byte => ofDigits_padded (by decide) (by decide) byte.toNat_lt
    have hdigits := congrArg (ofDigits 16) h
    rw [hback, hback] at hdigits
    exact UInt8.toNat_inj.mp hdigits
  have hbytes : ∀ s t : Bytes, (s.flatMap fun b => padded 16 2 b.toNat) =
      (t.flatMap fun b => padded 16 2 b.toNat) → s.length = t.length → s = t := by
    intro s
    induction s with
    | nil => exact fun t _ hlength => (List.length_eq_zero_iff.mp hlength.symm).symm
    | cons b s ih =>
        intro t h hlength
        cases t with
        | nil => cases hlength
        | cons c t =>
            rw [List.flatMap_cons, List.flatMap_cons] at h
            obtain ⟨hhead, htail⟩ := List.append_inj h (by rw [length_padded, length_padded])
            rw [hpair b c hhead, ih t htail (Nat.succ.inj hlength)]
  exact fun one other h => Subtype.ext (hbytes one.1 other.1 h (one.2.trans other.2.symm))

/-- A digest, for examples where it does not matter which. -/
def zeroDigest : Sha256Output := ⟨List.replicate 32 0, rfl⟩

/-- A hash that is that of `abc` there, and of nothing else. -/
def abcHash (bytes : Bytes) : Sha256Output :=
  if bytes = ascii "abc" then ⟨[0xba, 0x78, 0x16, 0xbf, 0x8f, 0x01, 0xcf, 0xea,
    0x41, 0x41, 0x40, 0xde, 0x5d, 0xae, 0x22, 0x23,
    0xb0, 0x03, 0x61, 0xa3, 0x96, 0x17, 0x7a, 0x9c,
    0xb4, 0x10, 0xff, 0x61, 0xf2, 0x00, 0x15, 0xad], rfl⟩
  else zeroDigest

end Prep.Core
