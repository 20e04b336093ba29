/-
  Serde/Compact.lean --- compact JSON, written and read.

  The writer puts no blank between tokens and escapes what JSON makes it escape.  The
  reader reads the writer's output, whatever follows it.
-/
import Prep.Serde.Tree
import Prep.Text.Radix
import Prep.Text.Utf8

set_option autoImplicit false

namespace Prep.Serde.Compact

open Prep.Text

/-! ## Strings -/

/-- A byte as it stands in a string. -/
def escape (b : UInt8) : Bytes :=
  if b = 34 then [92, 34]
  else if b = 92 then [92, 92]
  else if b = 8 then [92, 98]
  else if b = 9 then [92, 116]
  else if b = 10 then [92, 110]
  else if b = 12 then [92, 102]
  else if b = 13 then [92, 114]
  else if b < 32 then [92, 117, 48, 48, digitByte (b.toNat / 16), digitByte (b.toNat % 16)]
  else [b]

/-- The byte a letter behind a backslash stands for. -/
def unescape (c : UInt8) : Option UInt8 :=
  if c = 34 then some 34
  else if c = 92 then some 92
  else if c = 98 then some 8
  else if c = 116 then some 9
  else if c = 110 then some 10
  else if c = 102 then some 12
  else if c = 114 then some 13
  else none

def writeString (s : Bytes) : Bytes := 34 :: (s.flatMap escape ++ [34])

/-- A string from behind its opening quote. -/
def readString : Bytes → Option (Bytes × Bytes)
  | [] => none
  | b :: rest =>
      if b = 34 then some ([], rest)
      else if b = 92 then
        match rest with
        | 117 :: 48 :: 48 :: high :: low :: rest =>
            (readString rest).map fun p =>
              (UInt8.ofNat (digitValue high * 16 + digitValue low) :: p.1, p.2)
        | c :: rest =>
            (unescape c).bind fun b => (readString rest).map fun p => (b :: p.1, p.2)
        | [] => none
      else (readString rest).map fun p => (b :: p.1, p.2)

/-- The three shapes a byte takes in a string. -/
theorem escape_cases (b : UInt8) :
    (escape b = [b] ∧ b ≠ 34 ∧ b ≠ 92 ∧ 32 ≤ b) ∨
    (∃ c, escape b = [92, c] ∧ c ≠ 117 ∧ unescape c = some b) ∨
    ∃ high low, escape b = [92, 117, 48, 48, high, low] ∧
      UInt8.ofNat (digitValue high * 16 + digitValue low) = b := by
  by_cases hquote : b = 34
  · exact Or.inr (Or.inl ⟨34, by rw [hquote]; rfl, by decide, by rw [hquote]; rfl⟩)
  by_cases hback : b = 92
  · exact Or.inr (Or.inl ⟨92, by rw [hback]; rfl, by decide, by rw [hback]; rfl⟩)
  by_cases hlow : b < 32
  · have hcontrol : ∀ b : UInt8, b < 32 →
        (∃ c ∈ [98, 116, 110, 102, 114], escape b = [92, c] ∧ unescape c = some b) ∨
        escape b = [92, 117, 48, 48, digitByte (b.toNat / 16), digitByte (b.toNat % 16)] ∧
          UInt8.ofNat (digitValue (digitByte (b.toNat / 16)) * 16 +
            digitValue (digitByte (b.toNat % 16))) = b := by decide +kernel
    rcases hcontrol b hlow with ⟨c, hc, hescape, hunescape⟩ | ⟨hescape, hvalue⟩
    · refine Or.inr (Or.inl ⟨c, hescape, ?_, hunescape⟩)
      rintro rfl
      exact absurd hc (by decide)
    · exact Or.inr (Or.inr ⟨_, _, hescape, hvalue⟩)
  · refine Or.inl ⟨?_, hquote, hback, UInt8.not_lt.mp hlow⟩
    have hplain : ∀ b : UInt8, b ≠ 34 → b ≠ 92 → ¬ b < 32 → escape b = [b] := by decide +kernel
    exact hplain b hquote hback hlow

theorem readString_escape (b : UInt8) (rest : Bytes) :
    readString (escape b ++ rest) = (readString rest).map fun p => (b :: p.1, p.2) := by
  rcases escape_cases b with ⟨hescape, hquote, hback, _⟩ | ⟨c, hescape, hc, hunescape⟩ |
    ⟨high, low, hescape, hvalue⟩
  · rw [hescape, List.singleton_append, readString.eq_def]
    simp only [if_neg hquote, if_neg hback]
  · rw [hescape, List.cons_append, List.singleton_append, readString.eq_def]
    simp only [show (92 : UInt8) ≠ 34 by decide, if_false, if_true]
    split
    · rename_i h
      exact absurd (List.cons.inj h).1 hc
    · rename_i h
      obtain ⟨rfl, rfl⟩ := List.cons.inj h
      rw [hunescape, Option.bind_some]
    · rename_i h
      cases h
  · rw [hescape]
    show readString (92 :: 117 :: 48 :: 48 :: high :: low :: rest) = _
    rw [readString.eq_def]
    simp only [show (92 : UInt8) ≠ 34 by decide, if_false, if_true, hvalue]

/-- A string is read back up to its closing quote. -/
theorem readString_flatMap_escape (s rest : Bytes) :
    readString (s.flatMap escape ++ 34 :: rest) = some (s, rest) := by
  induction s with
  | nil =>
      rw [List.flatMap_nil, List.nil_append, readString.eq_def]
      rfl
  | cons b s ih =>
      rw [List.flatMap_cons, List.append_assoc, readString_escape, ih]
      rfl

theorem valid_flatMap_escape {s : Bytes} (h : Utf8.valid s = true) :
    Utf8.valid (s.flatMap escape) = true := by
  have hascii : ∀ b : UInt8, isAscii b = true → (escape b).all isAscii = true := by
    decide +kernel
  have hhigh : ∀ b : UInt8, isAscii b = false → escape b = [b] := by decide +kernel
  have htail : ∀ b : UInt8, Utf8.isTail b = true → escape b = [b] := by decide +kernel
  have hthree : ∀ b₀ b₁ : UInt8, Utf8.threeByteLead b₀ b₁ = true → Utf8.isTail b₁ = true := by
    intro b₀ b₁ h
    simp only [Utf8.threeByteLead, Utf8.isTail, Bool.or_eq_true, Bool.and_eq_true,
      decide_eq_true_eq, UInt8.le_iff_toNat_le, UInt8.toNat_ofNat] at h ⊢
    omega
  have hfour : ∀ b₀ b₁ : UInt8, Utf8.fourByteLead b₀ b₁ = true → Utf8.isTail b₁ = true := by
    intro b₀ b₁ h
    simp only [Utf8.fourByteLead, Utf8.isTail, Bool.or_eq_true, Bool.and_eq_true,
      decide_eq_true_eq, UInt8.le_iff_toNat_le, UInt8.toNat_ofNat] at h ⊢
    omega
  fun_induction Utf8.valid s with
  | case1 => rfl
  | case2 b₀ rest hb ih =>
      rw [List.flatMap_cons, Utf8.valid_append (Utf8.valid_of_isAscii (hascii b₀ hb))]
      exact ih h
  | case3 b₀ hb => cases h
  | case4 b₀ hb b₁ rest hrange ih =>
      rw [Bool.and_eq_true] at h
      have hchar : Utf8.valid [b₀, b₁] = true := by simp [Utf8.valid, hb, hrange, h.1]
      rw [List.flatMap_cons, List.flatMap_cons, hhigh b₀ (Bool.eq_false_iff.mpr hb), htail b₁ h.1]
      show Utf8.valid ([b₀, b₁] ++ rest.flatMap escape) = true
      rw [Utf8.valid_append hchar]
      exact ih h.2
  | case5 b₀ hb b₁ hrange => cases h
  | case6 b₀ hb b₁ hrange b₂ rest hlead ih =>
      rw [Bool.and_eq_true] at h
      have hchar : Utf8.valid [b₀, b₁, b₂] = true := by
        simp [Utf8.valid, hb, hrange, hlead, h.1]
      rw [List.flatMap_cons, List.flatMap_cons, List.flatMap_cons,
        hhigh b₀ (Bool.eq_false_iff.mpr hb), htail b₁ (hthree b₀ b₁ hlead), htail b₂ h.1]
      show Utf8.valid ([b₀, b₁, b₂] ++ rest.flatMap escape) = true
      rw [Utf8.valid_append hchar]
      exact ih h.2
  | case7 b₀ hb b₁ hrange b₂ hlead => cases h
  | case8 b₀ hb b₁ hrange b₂ hlead b₃ rest ih =>
      simp only [Bool.and_eq_true] at h
      obtain ⟨⟨⟨hfirst, hthird⟩, hfourth⟩, hrest⟩ := h
      have hchar : Utf8.valid [b₀, b₁, b₂, b₃] = true := by
        simp [Utf8.valid, hb, hrange, hlead, hfirst, hthird, hfourth]
      rw [List.flatMap_cons, List.flatMap_cons, List.flatMap_cons, List.flatMap_cons,
        hhigh b₀ (Bool.eq_false_iff.mpr hb), htail b₁ (hfour b₀ b₁ hfirst), htail b₂ hthird,
        htail b₃ hfourth]
      show Utf8.valid ([b₀, b₁, b₂, b₃] ++ rest.flatMap escape) = true
      rw [Utf8.valid_append hchar]
      exact ih hrest

theorem valid_writeString {s : Bytes} (h : Utf8.valid s = true) :
    Utf8.valid (writeString s) = true := by
  have hquote : Utf8.valid [34] = true := by decide
  show Utf8.valid ([34] ++ (s.flatMap escape ++ [34])) = true
  rw [Utf8.valid_append hquote, Utf8.valid_append (valid_flatMap_escape h), hquote]

theorem printable_escape (b : UInt8) : ∀ c ∈ escape b, 32 ≤ c := by
  have hall : ∀ b : UInt8, ((escape b).all fun c => decide (32 ≤ c)) = true := by decide +kernel
  exact fun c hc => of_decide_eq_true (List.all_eq_true.mp (hall b) c hc)

/-! ## Integers -/

/-- The digits in front of a text, and the text behind them. -/
def readDigits (raw : Bytes) : Option (Nat × Bytes) :=
  if (raw.takeWhile isAsciiDigit).isEmpty then none
  else some (ofDigits 10 (raw.takeWhile isAsciiDigit), raw.dropWhile isAsciiDigit)

/-- The text behind a value: it does not go on with a digit. -/
def Ends (rest : Bytes) : Prop := ∀ b ∈ rest.head?, isAsciiDigit b = false

theorem readDigits_toDecimal (n : Nat) {rest : Bytes} (hrest : Ends rest) :
    readDigits (toDecimal n ++ rest) = some (n, rest) := by
  have hdigits : ∀ b ∈ toDecimal n, isAsciiDigit b = true :=
    List.all_eq_true.mp (all_isAsciiDigit_toDecimal n)
  have htake : rest.takeWhile isAsciiDigit = [] := by
    cases rest with
    | nil => rfl
    | cons b rest => exact List.takeWhile_cons_of_neg (Bool.eq_false_iff.mp (hrest b rfl))
  have hdrop : rest.dropWhile isAsciiDigit = rest := by
    cases rest with
    | nil => rfl
    | cons b rest => exact List.dropWhile_cons_of_neg (Bool.eq_false_iff.mp (hrest b rfl))
  have hne : (toDecimal n).isEmpty = false := by
    cases h : toDecimal n with
    | nil => exact absurd h (toDecimal_ne_nil n)
    | cons b digits => rfl
  rw [readDigits, List.takeWhile_append_of_pos hdigits, htake, List.append_nil, hne,
    List.dropWhile_append_of_pos hdigits, hdrop, ofDigits_toDecimal]
  rfl

/-! ## Lists behind separators -/

section Separated

variable {α : Type}

/-- Further items up to the closing byte, each behind a comma. -/
def readMore (item : Bytes → Option (α × Bytes)) (close : UInt8) :
    Nat → Bytes → Option (List α × Bytes)
  | 0, _ => none
  | _, [] => none
  | fuel + 1, b :: rest =>
      if b = close then some ([], rest)
      else if b = 44 then
        (item rest).bind fun first =>
          (readMore item close fuel first.2).map fun p => (first.1 :: p.1, p.2)
      else none

/-- Items up to the closing byte. -/
def readItems (item : Bytes → Option (α × Bytes)) (close : UInt8) (raw : Bytes) :
    Option (List α × Bytes) :=
  if raw.head? = some close then some ([], raw.tail)
  else (item raw).bind fun first =>
    (readMore item close raw.length first.2).map fun p => (first.1 :: p.1, p.2)

/-- Items behind commas. -/
def writeItems : List Bytes → Bytes
  | [] => []
  | first :: rest => first ++ rest.flatMap fun item => 44 :: item

variable {item : Bytes → Option (α × Bytes)} {write : α → Bytes} {close : UInt8} {rest : Bytes}

theorem readMore_flatMap {items : List α} (hclose : close ≠ 44) (hdigit : isAsciiDigit close = false)
    (hitem : ∀ x ∈ items, ∀ rest, Ends rest → item (write x ++ rest) = some (x, rest)) :
    ∀ {fuel : Nat}, items.length < fuel →
      readMore item close fuel (((items.map write).flatMap fun item => 44 :: item) ++ close :: rest) =
        some (items, rest) := by
  induction items with
  | nil =>
      intro fuel hfuel
      obtain ⟨fuel, rfl⟩ : ∃ n, fuel = n + 1 := ⟨fuel - 1, by omega⟩
      show readMore item close (fuel + 1) (close :: rest) = _
      rw [readMore, if_pos rfl]
  | cons x items ih =>
      intro fuel hfuel
      obtain ⟨fuel, rfl⟩ : ∃ n, fuel = n + 1 := ⟨fuel - 1, by omega⟩
      rw [List.forall_mem_cons] at hitem
      rw [List.map_cons, List.flatMap_cons, List.append_assoc, List.cons_append, readMore,
        if_neg hclose.symm, if_pos rfl, hitem.1, Option.bind_some,
        ih hitem.2 (Nat.lt_of_succ_lt_succ hfuel)]
      · rfl
      · cases items with
        | nil => 
            rintro b ⟨⟩
            exact hdigit
        | cons y items =>
            rintro b ⟨⟩
            rfl

theorem length_le_flatMap (items : List Bytes) :
    items.length ≤ (items.flatMap fun item => 44 :: item).length := by
  induction items with
  | nil => exact Nat.le_refl _
  | cons first items ih =>
      rw [List.flatMap_cons, List.length_append, List.length_cons, List.length_cons]
      omega

/-- Items behind commas are read back up to the closing byte. -/
theorem readItems_writeItems {items : List α} (hclose : close ≠ 44)
    (hdigit : isAsciiDigit close = false)
    (hhead : ∀ x ∈ items, ∃ b tail, write x = b :: tail ∧ b ≠ close)
    (hitem : ∀ x ∈ items, ∀ rest, Ends rest → item (write x ++ rest) = some (x, rest)) :
    readItems item close (writeItems (items.map write) ++ close :: rest) =
      some (items, rest) := by
  cases items with
  | nil => exact if_pos rfl
  | cons x items =>
      rw [List.forall_mem_cons] at hhead
      obtain ⟨⟨b, tail, hwrite, hne⟩, _⟩ := hhead
      have hlength := length_le_flatMap (items.map write)
      rw [List.length_map] at hlength
      have hends : Ends (((items.map write).flatMap fun item => 44 :: item) ++ close :: rest) := by
        cases items with
        | nil =>
            rintro b ⟨⟩
            exact hdigit
        | cons y items =>
            rintro b ⟨⟩
            rfl
      rw [List.map_cons, writeItems, List.append_assoc, readItems, if_neg,
        hitem x List.mem_cons_self _ hends, Option.bind_some, readMore_flatMap hclose hdigit
          (fun y hy => hitem y (List.mem_cons_of_mem _ hy))]
      · rfl
      · simp only [List.length_append, List.length_cons]
        omega
      · rw [hwrite]
        exact fun h => hne (Option.some.inj h)

end Separated

/-! ## Trees -/

/-- A tree no deeper than `depth`. -/
def writeAt : Nat → Tree → Bytes
  | _, .null => ascii "null"
  | _, .bool value => if value then ascii "true" else ascii "false"
  | _, .integer (.ofNat n) => toDecimal n
  | _, .integer (.negSucc n) => 45 :: toDecimal (n + 1)
  | _, .other text => text
  | _, .string value => writeString value
  | 0, .seq _ => ascii "[]"
  | 0, .map _ => ascii "\x7b\x7d"
  | depth + 1, .seq items => 91 :: (writeItems (items.map (writeAt depth)) ++ [93])
  | depth + 1, .map entries =>
      123 :: (writeItems (entries.map fun entry =>
        writeString entry.1 ++ 58 :: writeAt depth entry.2) ++ [125])

def readScalar (b : UInt8) (rest : Bytes) : Option (Tree × Bytes) :=
  if b = 34 then (readString rest).map fun p => (.string p.1, p.2)
  else if b = 45 then (readDigits rest).map fun p => (.integer (-p.1), p.2)
  else if b = 110 then (stripPrefix (ascii "ull") rest).map fun rest => (.null, rest)
  else if b = 116 then (stripPrefix (ascii "rue") rest).map fun rest => (.bool true, rest)
  else if b = 102 then (stripPrefix (ascii "alse") rest).map fun rest => (.bool false, rest)
  else (readDigits (b :: rest)).map fun p => (.integer p.1, p.2)

def readEntry (item : Bytes → Option (Tree × Bytes)) : Bytes → Option ((Bytes × Tree) × Bytes)
  | 34 :: rest =>
      (readString rest).bind fun key =>
        (stripPrefix [58] key.2).bind fun rest =>
          (item rest).map fun p => ((key.1, p.1), p.2)
  | _ => none

def readAt : Nat → Bytes → Option (Tree × Bytes)
  | _, [] => none
  | 0, b :: rest => readScalar b rest
  | depth + 1, b :: rest =>
      if b = 91 then (readItems (readAt depth) 93 rest).map fun p => (.seq p.1, p.2)
      else if b = 123 then
        (readItems (readEntry (readAt depth)) 125 rest).map fun p => (.map p.1, p.2)
      else readScalar b rest

theorem readScalar_digit {b : UInt8} (h : isAsciiDigit b = true) (rest : Bytes) :
    b ≠ 91 ∧ b ≠ 123 ∧ b ≠ 93 ∧
      readScalar b rest = (readDigits (b :: rest)).map fun p => (.integer p.1, p.2) := by
  have hne : b ≠ 34 ∧ b ≠ 45 ∧ b ≠ 110 ∧ b ≠ 116 ∧ b ≠ 102 ∧ b ≠ 91 ∧ b ≠ 123 ∧ b ≠ 93 := by
    revert b
    decide +kernel
  obtain ⟨h₁, h₂, h₃, h₄, h₅, h₆, h₇, h₈⟩ := hne
  refine ⟨h₆, h₇, h₈, ?_⟩
  rw [readScalar, if_neg h₁, if_neg h₂, if_neg h₃, if_neg h₄, if_neg h₅]

/-- A scalar is read back, whatever follows it. -/
theorem readScalar_writeAt {limits : Limits} {depth : Nat} {t : Tree} (h : t.Fits limits depth)
    (hseq : ∀ items, t ≠ .seq items) (hmap : ∀ entries, t ≠ .map entries) {rest : Bytes}
    (hrest : Ends rest) :
    ∃ b tail, writeAt depth t = b :: tail ∧ b ≠ 91 ∧ b ≠ 123 ∧ b ≠ 93 ∧
      readScalar b (tail ++ rest) = some (t, rest) := by
  cases t with
  | null =>
      refine ⟨110, ascii "ull", by cases depth <;> rfl, by decide, by decide, by decide, ?_⟩
      show (stripPrefix (ascii "ull") (ascii "ull" ++ rest)).map _ = _
      rw [stripPrefix_append]
      rfl
  | bool value =>
      cases value with
      | true =>
          refine ⟨116, ascii "rue", by cases depth <;> rfl, by decide, by decide, by decide, ?_⟩
          show (stripPrefix (ascii "rue") (ascii "rue" ++ rest)).map _ = _
          rw [stripPrefix_append]
          rfl
      | false =>
          refine ⟨102, ascii "alse", by cases depth <;> rfl, by decide, by decide, by decide, ?_⟩
          show (stripPrefix (ascii "alse") (ascii "alse" ++ rest)).map _ = _
          rw [stripPrefix_append]
          rfl
  | integer value =>
      cases value with
      | ofNat n =>
          cases hdigits : toDecimal n with
          | nil => exact absurd hdigits (toDecimal_ne_nil n)
          | cons b tail =>
              have hb : isAsciiDigit b = true := by
                have hall := all_isAsciiDigit_toDecimal n
                rw [hdigits, List.all_cons, Bool.and_eq_true] at hall
                exact hall.1
              obtain ⟨hb91, hb123, hb93, hread⟩ := readScalar_digit hb (tail ++ rest)
              refine ⟨b, tail, by cases depth <;> exact hdigits, hb91, hb123, hb93, ?_⟩
              rw [hread, ← List.cons_append, ← hdigits, readDigits_toDecimal n hrest]
              rfl
      | negSucc n =>
          refine ⟨45, toDecimal (n + 1), by cases depth <;> rfl, by decide, by decide, by decide, ?_⟩
          show (readDigits (toDecimal (n + 1) ++ rest)).map _ = _
          rw [readDigits_toDecimal (n + 1) hrest]
          rfl
  | other text => cases depth <;> exact h.elim
  | string value =>
      refine ⟨34, value.flatMap escape ++ [34], by cases depth <;> rfl, by decide, by decide,
        by decide, ?_⟩
      show (readString (value.flatMap escape ++ [34] ++ rest)).map _ = _
      rw [List.append_assoc, List.singleton_append, readString_flatMap_escape]
      rfl
  | seq items => exact absurd rfl (hseq items)
  | map entries => exact absurd rfl (hmap entries)

theorem readEntry_write {item : Bytes → Option (Tree × Bytes)} {value : Tree} {text : Bytes}
    {rest : Bytes} (h : item (text ++ rest) = some (value, rest)) (key : Bytes) :
    readEntry item (writeString key ++ 58 :: text ++ rest) = some ((key, value), rest) := by
  have hshape : writeString key ++ 58 :: text ++ rest =
      34 :: (key.flatMap escape ++ 34 :: ([58] ++ (text ++ rest))) := by
    simp [writeString]
  rw [hshape, readEntry, readString_flatMap_escape, Option.bind_some]
  simp only [stripPrefix_append, Option.bind_some, h]
  rfl

/-- What is written is read back, whatever follows it, and is no end of a list. -/
theorem readAt_writeAt {limits : Limits} {depth : Nat} : ∀ {t : Tree}, t.Fits limits depth →
    (∃ b tail, writeAt depth t = b :: tail ∧ b ≠ 93) ∧
      ∀ rest, Ends rest → readAt depth (writeAt depth t ++ rest) = some (t, rest) := by
  have hscalar : ∀ {depth : Nat} {t : Tree}, t.Fits limits depth → (∀ items, t ≠ .seq items) →
      (∀ entries, t ≠ .map entries) → (∃ b tail, writeAt depth t = b :: tail ∧ b ≠ 93) ∧
        ∀ rest, Ends rest → readAt depth (writeAt depth t ++ rest) = some (t, rest) := by
    intro depth t h hseq hmap
    constructor
    · obtain ⟨b, tail, hwrite, _, _, hne, _⟩ :=
        readScalar_writeAt h hseq hmap (show Ends [] from fun b hb => by cases hb)
      exact ⟨b, tail, hwrite, hne⟩
    · intro rest hrest
      obtain ⟨b, tail, hwrite, hb91, hb123, _, hread⟩ := readScalar_writeAt h hseq hmap hrest
      rw [hwrite, List.cons_append]
      cases depth with
      | zero => exact hread
      | succ depth => rw [readAt, if_neg hb91, if_neg hb123, hread]
  induction depth with
  | zero =>
      intro t h
      refine hscalar h ?_ ?_
      · rintro items rfl
        exact h.elim
      · rintro entries rfl
        exact h.elim
  | succ depth ih =>
      intro t h
      cases t with
      | seq items =>
          refine ⟨⟨91, _, rfl, by decide⟩, fun rest hrest => ?_⟩
          rw [writeAt, List.cons_append, List.append_assoc, List.singleton_append, readAt,
            if_pos rfl, readItems_writeItems (by decide) (by decide)
              (fun item hitem => (ih (h item hitem)).1)
              (fun item hitem => (ih (h item hitem)).2)]
          rfl
      | map entries =>
          refine ⟨⟨123, _, rfl, by decide⟩, fun rest hrest => ?_⟩
          have hread : readItems (readEntry (readAt depth)) 125
              (writeItems (entries.map fun entry =>
                writeString entry.1 ++ 58 :: writeAt depth entry.2) ++ 125 :: rest) =
              some (entries, rest) := by
            refine readItems_writeItems (by decide) (by decide)
              (fun entry _ => ⟨34, _, rfl, by decide⟩) fun entry hentry rest hrest => ?_
            exact readEntry_write ((ih (h.2 entry hentry).2).2 rest hrest) entry.1
          rw [writeAt, List.cons_append, List.append_assoc, List.singleton_append, readAt,
            if_neg (by decide), if_pos rfl, hread]
          rfl
      | _ =>
          refine hscalar h ?_ ?_
          · rintro items ⟨⟩
          · rintro entries ⟨⟩

/-! ## The characters of a text -/

/-- Bytes that are UTF-8 and no control characters. -/
def Clean (text : Bytes) : Prop := Utf8.valid text = true ∧ ∀ b ∈ text, 32 ≤ b

theorem Clean.append {left right : Bytes} (hleft : Clean left) (hright : Clean right) :
    Clean (left ++ right) := by
  refine ⟨(Utf8.valid_append hleft.1).trans hright.1, fun b hb => ?_⟩
  rcases List.mem_append.mp hb with hb | hb
  · exact hleft.2 b hb
  · exact hright.2 b hb

theorem Clean.of_printable {text : Bytes} (hascii : text.all isAscii = true)
    (h : ∀ b ∈ text, 32 ≤ b) : Clean text := ⟨Utf8.valid_of_isAscii hascii, h⟩

theorem Clean.byte {b : UInt8} (hlow : 32 ≤ b) (hhigh : isAscii b = true) {text : Bytes}
    (h : Clean text) : Clean (b :: text) := by
  have hb : Clean [b] := Clean.of_printable (by simp [hhigh]) fun c hc => by
    rw [List.mem_singleton.mp hc]
    exact hlow
  exact hb.append h

theorem clean_writeString {s : Bytes} (h : Utf8.valid s = true) : Clean (writeString s) := by
  refine ⟨valid_writeString h, fun b hb => ?_⟩
  rcases List.mem_cons.mp hb with rfl | hb
  · decide
  rcases List.mem_append.mp hb with hb | hb
  · obtain ⟨c, _, hb⟩ := List.mem_flatMap.mp hb
    exact printable_escape c b hb
  · rw [List.mem_singleton.mp hb]
    decide

theorem clean_toDecimal (n : Nat) : Clean (toDecimal n) := by
  have hdigit : ∀ b : UInt8, isAsciiDigit b = true → isAscii b = true ∧ 32 ≤ b := by
    decide +kernel
  have hall := List.all_eq_true.mp (all_isAsciiDigit_toDecimal n)
  exact Clean.of_printable (List.all_eq_true.mpr fun b hb => (hdigit b (hall b hb)).1)
    fun b hb => (hdigit b (hall b hb)).2

theorem clean_writeItems {items : List Bytes} (h : ∀ item ∈ items, Clean item) :
    Clean (writeItems items) := by
  have hnil : Clean [] := ⟨rfl, fun b hb => absurd hb List.not_mem_nil⟩
  cases items with
  | nil => exact hnil
  | cons first items =>
      rw [List.forall_mem_cons] at h
      refine h.1.append ?_
      have hrest := h.2
      clear h
      induction items with
      | nil => exact hnil
      | cons item items ih =>
          rw [List.forall_mem_cons] at hrest
          exact (hrest.1.byte (by decide) (by decide)).append (ih hrest.2)

/-- The text of a tree with UTF-8 strings is UTF-8 without control characters. -/
theorem clean_writeAt {limits : Limits} (hstring : ∀ s, limits.string s → Utf8.valid s = true)
    {depth : Nat} : ∀ {t : Tree}, t.Fits limits depth → Clean (writeAt depth t) := by
  have hword : ∀ {word : Bytes}, (word.all fun b => isAscii b && decide (32 ≤ b)) = true →
      Clean word := by
    intro word h
    have hall := List.all_eq_true.mp h
    simp only [Bool.and_eq_true, decide_eq_true_eq] at hall
    exact Clean.of_printable (List.all_eq_true.mpr fun b hb => (hall b hb).1)
      fun b hb => (hall b hb).2
  have hscalar : ∀ {depth : Nat} {t : Tree}, t.Fits limits depth → (∀ items, t ≠ .seq items) →
      (∀ entries, t ≠ .map entries) → Clean (writeAt depth t) := by
    intro depth t h hseq hmap
    cases t with
    | null =>
        have hnull : Clean (ascii "null") := hword (by decide)
        cases depth <;> exact hnull
    | bool value =>
        have htrue : Clean (ascii "true") := hword (by decide)
        have hfalse : Clean (ascii "false") := hword (by decide)
        cases depth <;> cases value <;> first | exact htrue | exact hfalse
    | integer value =>
        cases value with
        | ofNat n => cases depth <;> exact clean_toDecimal n
        | negSucc n => cases depth <;> exact (clean_toDecimal (n + 1)).byte (by decide) (by decide)
    | other text => cases depth <;> exact h.elim
    | string value => cases depth <;> exact clean_writeString (hstring value h)
    | seq items => exact absurd rfl (hseq items)
    | map entries => exact absurd rfl (hmap entries)
  have hclose : ∀ {b : UInt8}, 32 ≤ b → isAscii b = true → Clean [b] := fun hlow hhigh =>
    Clean.byte hlow hhigh ⟨rfl, fun b hb => absurd hb List.not_mem_nil⟩
  induction depth with
  | zero =>
      intro t h
      refine hscalar h ?_ ?_
      · rintro items rfl
        exact h.elim
      · rintro entries rfl
        exact h.elim
  | succ depth ih =>
      intro t h
      cases t with
      | seq items =>
          refine Clean.byte (by decide) (by decide) (Clean.append (clean_writeItems ?_)
            (hclose (by decide) (by decide)))
          intro text htext
          obtain ⟨item, hitem, rfl⟩ := List.mem_map.mp htext
          exact ih (h item hitem)
      | map entries =>
          refine Clean.byte (by decide) (by decide) (Clean.append (clean_writeItems ?_)
            (hclose (by decide) (by decide)))
          intro text htext
          obtain ⟨entry, hentry, rfl⟩ := List.mem_map.mp htext
          obtain ⟨hkey, hvalue⟩ := h.2 entry hentry
          exact (clean_writeString (hstring _ hkey)).append
            ((ih hvalue).byte (by decide) (by decide))
      | _ =>
          refine hscalar h ?_ ?_
          · rintro items ⟨⟩
          · rintro entries ⟨⟩

end Prep.Serde.Compact
