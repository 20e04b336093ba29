/-
  Serde/Codec.lean --- types whose values are written as trees and read back.

  A codec carries its own correctness: what it writes fits the format, it reads what it
  has written, and it reads the same from trees with the same data.
-/
import Prep.Data.SortedMap
import Prep.Data.Traverse
import Prep.Serde.Tree
import Prep.Text.Str

set_option autoImplicit false

namespace Prep.Serde

open Prep.Data
open Prep.Text

/-- How the values of a type are written as trees of a format, and read back. -/
structure Codec (limits : Limits) (α : Type) where
  write : α → Tree
  read : Tree → Option α
  depth : Nat
  fits : ∀ a, (write a).Fits limits depth
  reads : ∀ a, read (write a) = some a
  congr : ∀ {d t t'}, t.Fits limits d → t.Same d t' → read t' = read t

namespace Codec

variable {limits : Limits} {α β : Type}

/-- Values are read from whatever has the data they are written as. -/
theorem read_of_same (c : Codec limits α) {a : α} {d : Nat} (hd : c.depth ≤ d) {t : Tree}
    (h : (c.write a).Same d t) : c.read t = some a := by
  rw [c.congr ((c.fits a).mono hd) h, c.reads]

/-! ## Scalars -/

/-- A type that is read from one kind of scalar reads the same from the same data. -/
theorem congr_of_scalar {read : Tree → Option α} (hseq : ∀ items, read (.seq items) = none)
    (hmap : ∀ entries, read (.map entries) = none) {d : Nat} {t t' : Tree}
    (h : t.Same d t') : read t' = read t := by
  rcases h.cases with rfl | ⟨items, items', _, rfl, rfl, _⟩ | ⟨entries, entries', _, _, rfl, rfl, _⟩
  · rfl
  · rw [hseq, hseq]
  · rw [hmap, hmap]

def readBool : Tree → Option Bool
  | .bool value => some value
  | _ => none

/-- `bool`. -/
def bool : Codec limits Bool where
  write := .bool
  read := readBool
  depth := 0
  fits _ := trivial
  reads _ := rfl
  congr _ h := congr_of_scalar (fun _ => rfl) (fun _ => rfl) h

def readU64 : Tree → Option UInt64
  | .integer value => if 0 ≤ value ∧ value < 2 ^ 64 then some (UInt64.ofNat value.toNat) else none
  | _ => none

/-- `u64`: a negative integer is refused. -/
def u64 (hlimits : ∀ n : UInt64, limits.integer n.toNat) : Codec limits UInt64 where
  write n := .integer n.toNat
  read := readU64
  depth := 0
  fits := hlimits
  reads n := by
    have hlt := n.toNat_lt
    rw [readU64, if_pos ⟨by omega, by omega⟩, Int.toNat_natCast, UInt64.ofNat_toNat]
  congr _ h := congr_of_scalar (fun _ => rfl) (fun _ => rfl) h

def readText (parse : Bytes → Option α) : Tree → Option α
  | .string value => parse value
  | _ => none

/-- A type that is a string with a check. -/
def text (asStr : α → Bytes) (parse : Bytes → Option α) (hparse : ∀ a, parse (asStr a) = some a)
    (hlimits : ∀ a, limits.string (asStr a)) : Codec limits α where
  write a := .string (asStr a)
  read := readText parse
  depth := 0
  fits := hlimits
  reads := hparse
  congr _ h := congr_of_scalar (fun _ => rfl) (fun _ => rfl) h

/-! ## Enumerations -/

/-- What `()` is read from. -/
def isUnit : Tree → Bool
  | .null => true
  | _ => false

/-- What `()` is read from in content that has been buffered: an empty map will do. -/
def isBufferedUnit : Tree → Bool
  | .null | .map [] => true
  | _ => false

theorem isUnit_congr {d : Nat} {t t' : Tree} (h : t.Same d t') : isUnit t' = isUnit t := by
  rcases h.cases with rfl | ⟨_, _, _, rfl, rfl, _⟩ | ⟨_, _, _, _, rfl, rfl, _⟩ <;> rfl

theorem isBufferedUnit_congr {d : Nat} {t t' : Tree} (h : t.Same d t') :
    isBufferedUnit t' = isBufferedUnit t := by
  rcases h.cases with rfl | ⟨_, _, _, rfl, rfl, _⟩ |
    ⟨entries, entries', mid, _, rfl, rfl, _, hperm, hall⟩
  · rfl
  · rfl
  · have hlength : entries.length = entries'.length := hall.length_eq.trans hperm.length_eq
    cases entries with
    | nil => rw [List.eq_nil_of_length_eq_zero hlength.symm]
    | cons =>
        obtain ⟨_, _, rfl⟩ := List.exists_cons_of_length_pos
          (show 0 < entries'.length by rw [← hlength]; exact Nat.succ_pos _)
        rfl

/-- A variant without fields is its name, or a map of one entry: the name, and `()`. -/
def unitVariant (unit : Tree → Bool) : Tree → Option Bytes
  | .string name => some name
  | .map [(name, value)] => if unit value then some name else none
  | _ => none

theorem unitVariant_long {unit : Tree → Bool} {entries : List (Bytes × Tree)}
    (h : 1 < entries.length) : unitVariant unit (.map entries) = none := by
  rcases entries with _ | ⟨_, _ | ⟨_, _⟩⟩
  · cases h
  · exact absurd h (Nat.lt_irrefl 1)
  · rfl

theorem unitVariant_congr {unit : Tree → Bool}
    (hunit : ∀ {d t t'}, Tree.Same d t t' → unit t' = unit t) {d : Nat} {t t' : Tree}
    (h : t.Same d t') : unitVariant unit t' = unitVariant unit t := by
  rcases h.cases with rfl | ⟨items, items', _, rfl, rfl, _⟩ |
    ⟨entries, entries', mid, d', rfl, rfl, _, hperm, hall⟩
  · rfl
  · rfl
  · rcases hall with _ | ⟨⟨hkey, hvalue⟩, _ | ⟨_, _⟩⟩
    · rw [List.nil_perm.mp hperm]
    · rename_i a b
      rw [List.perm_singleton.mp hperm.symm]
      obtain ⟨key, value⟩ := a
      obtain ⟨key', value'⟩ := b
      obtain rfl : key = key' := hkey
      rw [unitVariant, unitVariant, hunit hvalue]
    · have hlength := hperm.length_eq
      simp only [List.length_cons] at hlength
      rw [unitVariant_long (by omega), unitVariant_long (by simp only [List.length_cons]; omega)]

/-- An enumeration without fields: `#[serde(rename)]` says the name of each variant. -/
def enumeration (unit : Tree → Bool) (hunit : ∀ {d t t'}, Tree.Same d t t' → unit t' = unit t)
    (all : List α) (name : α → Bytes)
    (hnames : ∀ a, (all.find? fun b => name b = name a) = some a)
    (hlimits : ∀ a, limits.string (name a)) : Codec limits α where
  write a := .string (name a)
  read t := (unitVariant unit t).bind fun value => all.find? fun b => name b = value
  depth := 0
  fits := hlimits
  reads := hnames
  congr {d t t'} _ h := by rw [unitVariant_congr hunit h]

/-! ## Options and lists -/

def writeOption (c : Codec limits α) : Option α → Tree
  | none => .null
  | some a => c.write a

def readOption (c : Codec limits α) : Tree → Option (Option α)
  | .null => some none
  | t => (c.read t).map some

theorem readOption_of_ne_null {c : Codec limits α} {t : Tree} (h : t ≠ .null) :
    readOption c t = (c.read t).map some := by
  cases t <;> first | exact absurd rfl h | rfl

theorem readOption_congr {c : Codec limits α} {d : Nat} {t t' : Tree} (hfits : t.Fits limits d)
    (h : t.Same d t') : readOption c t' = readOption c t := by
  have hread := c.congr hfits h
  rcases h.cases with rfl | ⟨_, _, _, rfl, rfl, _⟩ | ⟨_, _, _, _, rfl, rfl, _⟩
  · rfl
  · exact congrArg (Option.map some) hread
  · exact congrArg (Option.map some) hread

/-- `Option`: `None` is `null`. -/
def option (c : Codec limits α) (hlimits : limits.null) (hnull : ∀ a, c.write a ≠ .null) :
    Codec limits (Option α) where
  write := writeOption c
  read := readOption c
  depth := c.depth
  fits
    | none => by cases c.depth <;> exact hlimits
    | some a => c.fits a
  reads
    | none => rfl
    | some a => by rw [writeOption, readOption_of_ne_null (hnull a), c.reads]; rfl
  congr hfits h := readOption_congr hfits h

theorem mapM_write_read (c : Codec limits α) (values : List α) :
    (values.map c.write).mapM c.read = some values := by
  induction values with
  | nil => rfl
  | cons a values ih => rw [List.map_cons, List.mapM_cons, c.reads, ih]; rfl

def readList (c : Codec limits α) : Tree → Option (List α)
  | .seq items => items.mapM c.read
  | _ => none

/-- `Vec`. -/
def list (c : Codec limits α) : Codec limits (List α) where
  write values := .seq (values.map c.write)
  read := readList c
  depth := c.depth + 1
  fits values := by
    intro item hitem
    obtain ⟨a, _, rfl⟩ := List.mem_map.mp hitem
    exact c.fits a
  reads values := c.mapM_write_read values
  congr {d t t'} hfits h := by
    rcases h.cases with rfl | ⟨items, items', d', rfl, rfl, rfl, hall⟩ | ⟨_, _, _, _, rfl, rfl, _⟩
    · rfl
    · exact mapM_congr (fun hxy => c.congr hxy.1 hxy.2) (forall₂_of_mem hfits hall)
    · rfl

/-! ## Maps -/

section Map

variable {κ : Type} [Ord κ] [Std.TransOrd κ] [Std.LawfulEqOrd κ] [DecidableEq κ]

/-- An entry of a map. -/
def readEntry (parse : Bytes → Option κ) (c : Codec limits β) (entry : Bytes × Tree) :
    Option (κ × β) :=
  (parse entry.1).bind fun key => (c.read entry.2).map fun value => (key, value)

omit [Ord κ] [Std.TransOrd κ] [Std.LawfulEqOrd κ] [DecidableEq κ] in
theorem readEntry_congr {parse : Bytes → Option κ} {c : Codec limits β} {d : Nat}
    {left right : Bytes × Tree}
    (h : left.2.Fits limits d ∧ left.1 = right.1 ∧ left.2.Same d right.2) :
    readEntry parse c right = readEntry parse c left := by
  rw [readEntry, readEntry, h.2.1, c.congr h.1 h.2.2]

omit [Ord κ] [Std.TransOrd κ] [Std.LawfulEqOrd κ] [DecidableEq κ] in
theorem readEntry_key {asStr : κ → Bytes} {parse : Bytes → Option κ}
    (hasStr : ∀ {text key}, parse text = some key → asStr key = text) {c : Codec limits β}
    {entry : Bytes × Tree} {read : κ × β} (h : readEntry parse c entry = some read) :
    asStr read.1 = entry.1 := by
  obtain ⟨key, hkey, h⟩ := Option.bind_eq_some_iff.mp h
  obtain ⟨value, _, rfl⟩ := Option.map_eq_some_iff.mp h
  exact hasStr hkey

omit [Ord κ] [Std.TransOrd κ] [Std.LawfulEqOrd κ] [DecidableEq κ] in
theorem mapM_readEntry_keys {asStr : κ → Bytes} {parse : Bytes → Option κ}
    (hasStr : ∀ {text key}, parse text = some key → asStr key = text) {c : Codec limits β}
    {entries : List (Bytes × Tree)} {read : List (κ × β)}
    (h : entries.mapM (readEntry parse c) = some read) :
    read.map (fun entry => asStr entry.1) = entries.map (·.1) := by
  induction entries generalizing read with
  | nil =>
      cases h
      rfl
  | cons entry entries ih =>
      rw [List.mapM_cons] at h
      obtain ⟨first, hfirst, h⟩ := Option.bind_eq_some_iff.mp h
      obtain ⟨rest, hrest, h⟩ := Option.bind_eq_some_iff.mp h
      cases h
      rw [List.map_cons, List.map_cons, readEntry_key hasStr hfirst, ih hrest]

def readMap (parse : Bytes → Option κ) (c : Codec limits β) : Tree → Option (SortedMap κ β)
  | .map entries => (entries.mapM (readEntry parse c)).map SortedMap.ofEntries
  | _ => none

/-- `BTreeMap` with strings as keys: of several entries with one key the last one
stays. -/
def sortedMap (asStr : κ → Bytes) (parse : Bytes → Option κ)
    (hparse : ∀ key, parse (asStr key) = some key)
    (hasStr : ∀ {text key}, parse text = some key → asStr key = text)
    (hlimits : ∀ key, limits.string (asStr key)) (c : Codec limits β) :
    Codec limits (SortedMap κ β) where
  write m := .map (m.entries.map fun entry => (asStr entry.1, c.write entry.2))
  read := readMap parse c
  depth := c.depth + 1
  fits m := by
    have hinj : Function.Injective asStr := by
      intro left right h
      have hleft := hparse left
      rw [h, hparse] at hleft
      exact (Option.some.inj hleft).symm
    refine ⟨?_, fun entry hentry => ?_⟩
    · rw [List.map_map]
      have hkeys := m.nodup_keys.map hinj
      rwa [List.map_map] at hkeys
    · obtain ⟨entry, _, rfl⟩ := List.mem_map.mp hentry
      exact ⟨hlimits entry.1, c.fits entry.2⟩
  reads m := by
    have hentries : ∀ entries : List (κ × β),
        (entries.map fun entry => (asStr entry.1, c.write entry.2)).mapM (readEntry parse c) =
          some entries := by
      intro entries
      induction entries with
      | nil => rfl
      | cons entry entries ih =>
          rw [List.map_cons, List.mapM_cons, readEntry, hparse, Option.bind_some, c.reads, ih]
          rfl
    show Option.map SortedMap.ofEntries (List.mapM (readEntry parse c) _) = some m
    rw [hentries]
    refine congrArg some (SortedMap.ext_get? fun key => Option.ext fun value => ?_)
    rw [SortedMap.get?_ofEntries m.nodup_keys, SortedMap.get?_eq_some_iff]
  congr {d t t'} hfits h := by
    rcases h.cases with rfl | ⟨_, _, _, rfl, rfl, _⟩ |
      ⟨entries, entries', mid, d', rfl, rfl, rfl, hperm, hall⟩
    · rfl
    · rfl
    · have hmid : mid.mapM (readEntry parse c) = entries.mapM (readEntry parse c) :=
        mapM_congr (fun hxy => readEntry_congr ⟨hxy.1, hxy.2⟩)
          (forall₂_of_mem (fun entry hentry => (hfits.2 entry hentry).2) hall)
      have hread : Option.Rel List.Perm (mid.mapM (readEntry parse c))
          (entries'.mapM (readEntry parse c)) := mapM_perm hperm
      rw [hmid] at hread
      show Option.map _ (List.mapM _ entries') = Option.map _ (List.mapM _ entries)
      generalize entries'.mapM (readEntry parse c) = read' at hread ⊢
      cases hvalues : entries.mapM (readEntry parse c) with
      | none =>
          rw [hvalues] at hread
          cases hread
          rfl
      | some values =>
          have hnodup : (values.map (·.1)).Nodup := by
            refine List.Nodup.of_map asStr ?_
            rw [List.map_map]
            have hkeys := hfits.1
            rw [← mapM_readEntry_keys hasStr hvalues] at hkeys
            exact hkeys
          rw [hvalues] at hread
          cases hread with
          | some hvalues' => exact congrArg some (SortedMap.ofEntries_perm hnodup hvalues').symm

end Map

end Codec

end Prep.Serde
