/-
  Text/Framing.lean --- streams of length-prefixed strings.

  A string is written as the eight bytes of its length and then its bytes.  A
  concatenation of such strings determines the strings, whatever they contain.
-/
import Prep.Text.Bytes

set_option autoImplicit false

namespace Prep.Text

/-- `u64::to_be_bytes`. -/
def toBeBytes (n : Nat) : Bytes :=
  [56, 48, 40, 32, 24, 16, 8, 0].map fun shift => UInt8.ofNat (n / 2 ^ shift)

@[simp] theorem length_toBeBytes (n : Nat) : (toBeBytes n).length = 8 := rfl

/-- Numbers of 64 bits are told apart by their bytes. -/
theorem toBeBytes_inj {m n : Nat} (hm : m < 2 ^ 64) (hn : n < 2 ^ 64)
    (h : toBeBytes m = toBeBytes n) : m = n := by
  simp only [toBeBytes, List.map_cons, List.map_nil, List.cons.injEq, and_true,
    ← UInt8.toNat_inj, UInt8.toNat_ofNat'] at h
  omega

/-- The bytes of one string, its length first. -/
def framed (value : Bytes) : Bytes := toBeBytes value.length ++ value

/-- The bytes of a stream of strings. -/
def framedAll (values : List Bytes) : Bytes := values.flatMap framed

@[simp] theorem framedAll_nil : framedAll [] = [] := rfl

@[simp] theorem framedAll_cons (value : Bytes) (values : List Bytes) :
    framedAll (value :: values) = framed value ++ framedAll values := rfl

@[simp] theorem framedAll_append (left right : List Bytes) :
    framedAll (left ++ right) = framedAll left ++ framedAll right :=
  List.flatMap_append

/-- The first string of a stream can be read off. -/
theorem framed_append_inj {left right leftRest rightRest : Bytes}
    (hleft : left.length < 2 ^ 64) (hright : right.length < 2 ^ 64)
    (h : framed left ++ leftRest = framed right ++ rightRest) :
    left = right ∧ leftRest = rightRest := by
  unfold framed at h
  rw [List.append_assoc, List.append_assoc] at h
  obtain ⟨hlength, hrest⟩ := List.append_inj h rfl
  exact List.append_inj hrest (toBeBytes_inj hleft hright hlength)

/-- A stream determines its strings. -/
theorem framedAll_inj {left right : List Bytes}
    (hleft : ∀ value ∈ left, value.length < 2 ^ 64)
    (hright : ∀ value ∈ right, value.length < 2 ^ 64)
    (h : framedAll left = framedAll right) : left = right := by
  induction left generalizing right with
  | nil =>
      cases right with
      | nil => rfl
      | cons value right =>
          have hlength := congrArg List.length h
          rw [framedAll_cons, framed, List.length_append, List.length_append,
            length_toBeBytes, framedAll_nil, List.length_nil] at hlength
          omega
  | cons value left ih =>
      cases right with
      | nil =>
          have hlength := congrArg List.length h
          rw [framedAll_cons, framed, List.length_append, List.length_append,
            length_toBeBytes, framedAll_nil, List.length_nil] at hlength
          omega
      | cons value' right =>
          obtain ⟨rfl, hrest⟩ := framed_append_inj (hleft value List.mem_cons_self)
            (hright value' List.mem_cons_self) h
          rw [ih (fun v hv => hleft v (List.mem_cons_of_mem _ hv))
            (fun v hv => hright v (List.mem_cons_of_mem _ hv)) hrest]

/-! ## Encodings that show where they end -/

/-- `encode a` can be read off the front of anything it begins. -/
def SelfDelimiting {α β : Type} (encode : α → List β) : Prop :=
  ∀ (a b : α) (left right : List β), encode a ++ left = encode b ++ right →
    a = b ∧ left = right

namespace SelfDelimiting

variable {α β : Type} {encode : α → List β}

/-- Sequences of the same length are read element by element. -/
theorem flatMap_append_inj (hencode : SelfDelimiting encode) {as bs : List α}
    (hlength : as.length = bs.length) {left right : List β}
    (h : as.flatMap encode ++ left = bs.flatMap encode ++ right) : as = bs ∧ left = right := by
  induction as generalizing bs with
  | nil =>
      obtain rfl : bs = [] := List.length_eq_zero_iff.mp hlength.symm
      exact ⟨rfl, h⟩
  | cons a as ih =>
      cases bs with
      | nil => cases hlength
      | cons b bs =>
          rw [List.flatMap_cons, List.flatMap_cons, List.append_assoc, List.append_assoc] at h
          obtain ⟨rfl, hrest⟩ := hencode _ _ _ _ h
          obtain ⟨rfl, hend⟩ := ih (Nat.succ.inj hlength) hrest
          exact ⟨rfl, hend⟩

/-- A sequence behind its length can be read whatever its length is. -/
theorem counted {count : Nat → List β} (hcount : SelfDelimiting count)
    (hencode : SelfDelimiting encode) :
    SelfDelimiting fun as : List α => count as.length ++ as.flatMap encode := by
  intro as bs left right h
  simp only [List.append_assoc] at h
  obtain ⟨hlength, hrest⟩ := hcount _ _ _ _ h
  exact hencode.flatMap_append_inj hlength hrest

end SelfDelimiting

end Prep.Text
