/-
  Serde/Record.lean --- records by their fields, and enumerations of records by a tag.

  A record is written as a map of its fields.  It is read from a map that has no other
  keys and none of them twice, in any order, or from a list of the values of the fields
  in their order.
-/
import Prep.Serde.Codec

set_option autoImplicit false

namespace Prep.Serde

open Prep.Data
open Prep.Text

variable {limits : Limits} {α σ τ : Type}

/-! ## Fields -/

/-- A field of a record: its name, when it is written, and what its absence means. -/
structure Field (limits : Limits) (α : Type) where
  name : Bytes
  write : α → Option Tree
  read : Tree → Option α
  absent : Option α
  depth : Nat
  fits : ∀ {a t}, write a = some t → t.Fits limits depth
  reads : ∀ {a t}, write a = some t → read t = some a
  absents : ∀ {a}, write a = none → absent = some a
  congr : ∀ {d t t'}, t.Fits limits d → t.Same d t' → read t' = read t

namespace Field

/-- A field that is always there. -/
def required (name : String) (c : Codec limits α) : Field limits α where
  name := ascii name
  write a := some (c.write a)
  read := c.read
  absent := none
  depth := c.depth
  fits h := Option.some.inj h ▸ c.fits _
  reads h := Option.some.inj h ▸ c.reads _
  absents h := by cases h
  congr := c.congr

/-- `#[serde(default)]`: a field that is always written and may be missing. -/
def defaulted (name : String) (c : Codec limits α) (default : α) : Field limits α where
  name := ascii name
  write a := some (c.write a)
  read := c.read
  absent := some default
  depth := c.depth
  fits h := Option.some.inj h ▸ c.fits _
  reads h := Option.some.inj h ▸ c.reads _
  absents h := by cases h
  congr := c.congr

/-- An optional field that is left out for `None`: `skip_serializing_if`, or a format
without `null`. -/
def omitted (name : String) (c : Codec limits α) (hnull : ∀ a, c.write a ≠ .null) :
    Field limits (Option α) where
  name := ascii name
  write a := a.map c.write
  read := Codec.readOption c
  absent := some none
  depth := c.depth
  fits {a t} h := by
    obtain ⟨b, rfl, rfl⟩ := Option.map_eq_some_iff.mp h
    exact c.fits b
  reads {a t} h := by
    obtain ⟨b, rfl, rfl⟩ := Option.map_eq_some_iff.mp h
    rw [Codec.readOption_of_ne_null (hnull b), c.reads]
    rfl
  absents {a} h := by
    obtain rfl := Option.map_eq_none_iff.mp h
    rfl
  congr hfits h := Codec.readOption_congr hfits h

/-- The value of a field that may be there or not. -/
def readFound (f : Field limits α) : Option Tree → Option α
  | none => f.absent
  | some t => f.read t

theorem readFound_write (f : Field limits α) (a : α) : f.readFound (f.write a) = some a := by
  cases h : f.write a with
  | none => exact f.absents h
  | some t => exact f.reads h

/-- What is found under a name, in trees with the same data. -/
def Found (limits : Limits) (d : Nat) : Option Tree → Option Tree → Prop :=
  Option.Rel fun t t' => t.Fits limits d ∧ t.Same d t'

theorem readFound_congr (f : Field limits α) {d : Nat} {found found' : Option Tree}
    (h : Found limits d found found') : f.readFound found' = f.readFound found := by
  cases h with
  | none => rfl
  | some h => exact f.congr h.1 h.2

end Field

/-! ## Records -/

/-- The fields of a record, one after another. -/
structure Record (limits : Limits) (σ : Type) where
  names : List Bytes
  write : σ → List (Bytes × Tree)
  read : (Bytes → Option Tree) → Option σ
  readSeq : List Tree → Option (σ × List Tree)
  depth : Nat
  sublist : ∀ x, ((write x).map (·.1)).Sublist names
  fits : ∀ x, ∀ entry ∈ write x, entry.2.Fits limits depth
  reads : names.Nodup → ∀ x (find : Bytes → Option Tree),
    (∀ name ∈ names, find name = (write x).lookup name) → read find = some x
  congr : ∀ {d} {find find' : Bytes → Option Tree},
    (∀ name ∈ names, Field.Found limits d (find name) (find' name)) → read find' = read find
  congrSeq : ∀ {d} {items items' : List Tree},
    List.Forall₂ (fun t t' => t.Fits limits d ∧ t.Same d t') items items' →
    Option.Rel (fun p p' => p.1 = p'.1 ∧
      List.Forall₂ (fun t t' => t.Fits limits d ∧ t.Same d t') p.2 p'.2)
      (readSeq items) (readSeq items')

namespace Record

/-- The record without fields. -/
def nil : Record limits Unit where
  names := []
  write _ := []
  read _ := some ()
  readSeq items := some ((), items)
  depth := 0
  sublist _ := List.Sublist.slnil
  fits _ _ h := absurd h List.not_mem_nil
  reads _ _ _ _ := rfl
  congr _ := rfl
  congrSeq h := .some ⟨rfl, h⟩

/-- The entry of a field, if it is written. -/
def writeField (f : Field limits α) (a : α) : List (Bytes × Tree) :=
  (f.write a).toList.map fun t => (f.name, t)

def readFields (f : Field limits α) (r : Record limits σ) (find : Bytes → Option Tree) :
    Option (α × σ) :=
  (f.readFound (find f.name)).bind fun a => (r.read find).map fun x => (a, x)

def readFieldsSeq (f : Field limits α) (r : Record limits σ) (items : List Tree) :
    Option ((α × σ) × List Tree) :=
  (f.readFound items.head?).bind fun a => (r.readSeq items.tail).map fun p => ((a, p.1), p.2)

theorem lookup_writeField_append (f : Field limits α) (a : α) (rest : List (Bytes × Tree))
    (hrest : f.name ∉ rest.map (·.1)) :
    (writeField f a ++ rest).lookup f.name = f.write a := by
  unfold writeField
  cases f.write a with
  | none =>
      refine List.lookup_eq_none_iff.mpr fun p hp => ?_
      exact bne_iff_ne.mpr fun heq => hrest (List.mem_map.mpr ⟨p, hp, heq.symm⟩)
  | some t => simp

theorem lookup_writeField_append_of_ne (f : Field limits α) (a : α)
    (rest : List (Bytes × Tree)) {name : Bytes} (hname : name ≠ f.name) :
    (writeField f a ++ rest).lookup name = rest.lookup name := by
  unfold writeField
  cases f.write a with
  | none => rfl
  | some t =>
      have hbeq : (name == f.name) = false := beq_eq_false_iff_ne.mpr hname
      simp [List.lookup_cons, hbeq]

/-- A field before the others. -/
def cons (f : Field limits α) (r : Record limits σ) : Record limits (α × σ) where
  names := f.name :: r.names
  write x := writeField f x.1 ++ r.write x.2
  read := readFields f r
  readSeq := readFieldsSeq f r
  depth := max f.depth r.depth
  sublist x := by
    rw [List.map_append]
    unfold writeField
    cases f.write x.1 with
    | none => exact (r.sublist x.2).trans (List.sublist_cons_self _ _)
    | some t => exact (r.sublist x.2).cons_cons _
  fits x entry hentry := by
    rcases List.mem_append.mp hentry with hentry | hentry
    · obtain ⟨t, ht, rfl⟩ := List.mem_map.mp hentry
      exact (f.fits (Option.mem_toList.mp ht)).mono (le_max_left _ _)
    · exact (r.fits x.2 entry hentry).mono (le_max_right _ _)
  reads hnodup x find hfind := by
    rw [List.nodup_cons] at hnodup
    have hname : f.name ∉ (r.write x.2).map (·.1) := fun h => hnodup.1 ((r.sublist x.2).subset h)
    have hfirst : find f.name = f.write x.1 := by
      rw [hfind f.name List.mem_cons_self, lookup_writeField_append f x.1 _ hname]
    have hrest : r.read find = some x.2 := by
      refine r.reads hnodup.2 x.2 find fun name hmem => ?_
      have hne : name ≠ f.name := fun heq => hnodup.1 (heq ▸ hmem)
      rw [hfind name (List.mem_cons_of_mem _ hmem), lookup_writeField_append_of_ne f x.1 _ hne]
    rw [readFields, hfirst, f.readFound_write, Option.bind_some, hrest]
    rfl
  congr h := by
    rw [readFields, readFields, f.readFound_congr (h f.name List.mem_cons_self),
      r.congr fun name hname => h name (List.mem_cons_of_mem _ hname)]
  congrSeq {d items items'} h := by
    have hfound : Field.Found limits d items.head? items'.head? := by
      cases h with
      | nil => exact .none
      | cons hfirst _ => exact .some hfirst
    have htail : List.Forall₂ (fun t t' => t.Fits limits d ∧ t.Same d t') items.tail
        items'.tail := by
      cases h with
      | nil => exact .nil
      | cons _ hrest => exact hrest
    rw [readFieldsSeq, readFieldsSeq, f.readFound_congr hfound]
    cases f.readFound items.head? with
    | none => exact .none
    | some a =>
        have hrest := r.congrSeq htail
        rw [Option.bind_some, Option.bind_some]
        revert hrest
        cases r.readSeq items.tail <;> cases r.readSeq items'.tail <;> rintro (⟨hx, hp⟩ | _)
        · exact .none
        · exact .some ⟨congrArg (Prod.mk a) hx, hp⟩

/-- A record under the name of its type. -/
def map (r : Record limits σ) (build : σ → τ) (parts : τ → σ)
    (hbuild : ∀ x, build (parts x) = x) : Record limits τ where
  names := r.names
  write x := r.write (parts x)
  read find := (r.read find).map build
  readSeq items := (r.readSeq items).map fun p => (build p.1, p.2)
  depth := r.depth
  sublist x := r.sublist (parts x)
  fits x := r.fits (parts x)
  reads hnodup x find hfind := by
    rw [r.reads hnodup (parts x) find hfind, Option.map_some, hbuild]
  congr h := by rw [r.congr h]
  congrSeq {d items items'} h := by
    have hrest := r.congrSeq h
    revert hrest
    cases r.readSeq items <;> cases r.readSeq items' <;> rintro (⟨hx, hp⟩ | _)
    · exact .none
    · exact .some ⟨congrArg build hx, hp⟩

/-- What a first field and the others are read from. -/
theorem cons_read_eq_some {f : Field limits α} {r : Record limits σ}
    {find : Bytes → Option Tree} {x : α × σ} :
    (cons f r).read find = some x ↔
      f.readFound (find f.name) = some x.1 ∧ r.read find = some x.2 := by
  show readFields f r find = some x ↔ _
  rw [readFields, Option.bind_eq_some_iff]
  constructor
  · rintro ⟨a, ha, h⟩
    obtain ⟨y, hy, rfl⟩ := Option.map_eq_some_iff.mp h
    exact ⟨ha, hy⟩
  · rintro ⟨ha, hy⟩
    exact ⟨x.1, ha, by rw [hy]; rfl⟩

/-- What a first field and the others are read from, in a list. -/
theorem cons_readSeq_eq_some {f : Field limits α} {r : Record limits σ} {items rest : List Tree}
    {x : α × σ} (h : (cons f r).readSeq items = some (x, rest)) :
    f.readFound items.head? = some x.1 ∧ r.readSeq items.tail = some (x.2, rest) := by
  obtain ⟨a, ha, h⟩ := Option.bind_eq_some_iff.mp h
  obtain ⟨p, hp, heq⟩ := Option.map_eq_some_iff.mp h
  cases heq
  exact ⟨ha, hp⟩

/-- A required field has been found. -/
theorem required_found {name : String} {c : Codec limits α} {r : Record limits σ}
    {find : Bytes → Option Tree} {x : α × σ}
    (h : (cons (.required name c) r).read find = some x) : (find (ascii name)).isSome = true := by
  have hfound := (cons_read_eq_some.mp h).1
  change (Field.required name c).readFound (find (ascii name)) = some x.1 at hfound
  cases hfind : find (ascii name) with
  | some t => rfl
  | none =>
      rw [hfind] at hfound
      cases hfound

/-- Distinct names, in ASCII. -/
def WellNamed (r : Record limits σ) : Prop :=
  r.names.Nodup ∧ ∀ name ∈ r.names, name.all isAscii = true

instance (r : Record limits σ) : Decidable r.WellNamed :=
  inferInstanceAs (Decidable (_ ∧ _))

/-- `#[serde(deny_unknown_fields)]`. -/
def readTree (r : Record limits σ) : Tree → Option σ
  | .map entries =>
      if (entries.map (·.1)).Nodup ∧ ∀ entry ∈ entries, entry.1 ∈ r.names then
        r.read fun name => entries.lookup name
      else none
  | .seq items =>
      match r.readSeq items with
      | some (x, []) => some x
      | _ => none
  | _ => none

theorem readSeq_of_readTree {r : Record limits σ} {items : List Tree} {x : σ}
    (h : r.readTree (.seq items) = some x) : r.readSeq items = some (x, []) := by
  rw [readTree] at h
  split at h
  · rename_i heq
    cases h
    exact heq
  · cases h

/-- A record that is read from a map has been read from its fields and nothing else. -/
theorem readTree_map_eq_some {r : Record limits σ} {entries : List (Bytes × Tree)} {x : σ} :
    r.readTree (.map entries) = some x ↔
      ((entries.map (·.1)).Nodup ∧ ∀ entry ∈ entries, entry.1 ∈ r.names) ∧
        r.read (fun name => entries.lookup name) = some x := by
  rw [readTree]
  split
  · rename_i h
    exact ⟨fun hx => ⟨h, hx⟩, And.right⟩
  · rename_i h
    exact ⟨fun hx => (by cases hx), fun hx => absurd hx.1 h⟩

theorem readTree_write (r : Record limits σ) (hnames : r.names.Nodup) (x : σ) :
    r.readTree (.map (r.write x)) = some x := by
  refine readTree_map_eq_some.mpr ⟨⟨hnames.sublist (r.sublist x), ?_⟩,
    r.reads hnames x _ fun _ _ => rfl⟩
  exact fun entry hentry => (r.sublist x).subset (List.mem_map.mpr ⟨entry, hentry, rfl⟩)

/-- The values of a key in maps with the same data. -/
theorem found_of_same {d : Nat} {entries entries' mid : List (Bytes × Tree)}
    (hnodup : (entries.map (·.1)).Nodup) (hfits : ∀ entry ∈ entries, entry.2.Fits limits d)
    (hall : List.Forall₂ (fun a b => a.1 = b.1 ∧ a.2.Same d b.2) entries mid)
    (hperm : mid.Perm entries') (name : Bytes) :
    Field.Found limits d (entries.lookup name) (entries'.lookup name) := by
  have hmid : (mid.map (·.1)).Nodup := by rwa [← Tree.keys_of_same hall]
  rw [← Tree.lookup_perm hmid hperm]
  clear hperm hmid hnodup
  induction hall with
  | nil => exact .none
  | @cons a b entries mid h _ ih =>
      obtain ⟨key, value⟩ := a
      obtain ⟨key', value'⟩ := b
      obtain ⟨rfl, hvalue⟩ : key = key' ∧ value.Same d value' := h
      rw [List.lookup_cons, List.lookup_cons]
      cases hbeq : name == key with
      | true => exact .some ⟨hfits _ List.mem_cons_self, hvalue⟩
      | false => exact ih fun entry hentry => hfits entry (List.mem_cons_of_mem _ hentry)

theorem readTree_congr (r : Record limits σ) {d : Nat} {t t' : Tree} (hfits : t.Fits limits d)
    (h : t.Same d t') : r.readTree t' = r.readTree t := by
  rcases h.cases with rfl | ⟨items, items', d', rfl, rfl, rfl, hall⟩ |
    ⟨entries, entries', mid, d', rfl, rfl, rfl, hperm, hall⟩
  · rfl
  · have hread := r.congrSeq (forall₂_of_mem hfits hall)
    rw [readTree, readTree]
    generalize r.readSeq items = read at hread ⊢
    generalize r.readSeq items' = read' at hread ⊢
    rcases hread with ⟨hx, hp⟩ | _
    · rename_i p p'
      obtain ⟨x, rest⟩ := p
      obtain ⟨x', rest'⟩ := p'
      obtain rfl : x = x' := hx
      cases hp <;> rfl
    · rfl
  · have hkeys : (entries.map (·.1)).Perm (entries'.map (·.1)) := by
      rw [Tree.keys_of_same hall]
      exact hperm.map _
    have hnames : (∀ entry ∈ entries', entry.1 ∈ r.names) ↔ ∀ entry ∈ entries, entry.1 ∈ r.names := by
      have hmem : ∀ {entries : List (Bytes × Tree)}, (∀ entry ∈ entries, entry.1 ∈ r.names) ↔
          ∀ name ∈ entries.map (·.1), name ∈ r.names := List.forall_mem_map.symm
      rw [hmem, hmem]
      exact forall_congr' fun name => imp_congr_left hkeys.mem_iff.symm
    have hfound := r.congr fun name _ => found_of_same hfits.1
      (fun entry hentry => (hfits.2 entry hentry).2) hall hperm name
    rw [readTree, readTree, hfound]
    exact if_congr (and_congr hkeys.nodup_iff.symm hnames) rfl rfl

/-- The codec of a record. -/
def codec (r : Record limits σ) (hnamed : r.WellNamed)
    (hlimits : ∀ name : Bytes, name.all isAscii = true → limits.string name) :
    Codec limits σ where
  write x := .map (r.write x)
  read := r.readTree
  depth := r.depth + 1
  fits x := by
    refine ⟨hnamed.1.sublist (r.sublist x), fun entry hentry => ⟨?_, r.fits x entry hentry⟩⟩
    exact hlimits _ (hnamed.2 _ ((r.sublist x).subset (List.mem_map.mpr ⟨entry, hentry, rfl⟩)))
  reads := r.readTree_write hnamed.1
  congr := r.readTree_congr

/-! ## The strings of a record -/

section Strings

variable {ok : Bytes → Prop} {d : Nat}

/-- The strings of a record, the names of its fields included. -/
def Strings (ok : Bytes → Prop) (d : Nat) (r : Record limits σ) (x : σ) : Prop :=
  ∀ entry ∈ r.write x, ok entry.1 ∧ entry.2.AllStrings ok d

theorem strings_nil (x : Unit) : (nil : Record limits Unit).Strings ok d x :=
  fun _ h => absurd h List.not_mem_nil

theorem strings_cons {f : Field limits α} {r : Record limits σ} {x : α × σ} (hname : ok f.name)
    (hfield : ∀ t, f.write x.1 = some t → t.AllStrings ok d) (hrest : r.Strings ok d x.2) :
    (cons f r).Strings ok d x := by
  intro entry hentry
  rcases List.mem_append.mp hentry with hentry | hentry
  · obtain ⟨t, ht, rfl⟩ := List.mem_map.mp hentry
    exact ⟨hname, hfield t (Option.mem_toList.mp ht)⟩
  · exact hrest entry hentry

theorem strings_required {name : String} {c : Codec limits α} {r : Record limits σ} {x : α × σ}
    (hname : ok (ascii name)) (hvalue : (c.write x.1).AllStrings ok d)
    (hrest : r.Strings ok d x.2) : (cons (.required name c) r).Strings ok d x := by
  refine strings_cons hname (fun t ht => ?_) hrest
  obtain rfl : c.write x.1 = t := Option.some.inj ht
  exact hvalue

theorem strings_defaulted {name : String} {c : Codec limits α} {default : α}
    {r : Record limits σ} {x : α × σ} (hname : ok (ascii name))
    (hvalue : (c.write x.1).AllStrings ok d) (hrest : r.Strings ok d x.2) :
    (cons (.defaulted name c default) r).Strings ok d x := by
  refine strings_cons hname (fun t ht => ?_) hrest
  obtain rfl : c.write x.1 = t := Option.some.inj ht
  exact hvalue

theorem strings_omitted {name : String} {c : Codec limits α} {hnull : ∀ a, c.write a ≠ .null}
    {r : Record limits σ} {x : Option α × σ} (hname : ok (ascii name))
    (hvalue : ∀ a, x.1 = some a → (c.write a).AllStrings ok d) (hrest : r.Strings ok d x.2) :
    (cons (.omitted name c hnull) r).Strings ok d x := by
  refine strings_cons hname (fun t ht => ?_) hrest
  obtain ⟨a, ha, rfl⟩ := Option.map_eq_some_iff.mp ht
  exact hvalue a ha

end Strings

end Record

/-! ## Enumerations of records -/

/-- A variant of an enumeration: its tag, and its fields. -/
structure Variant (limits : Limits) (σ : Type) where
  payload : Type
  tag : Bytes
  record : Record limits payload
  build : payload → σ
  parts : σ → Option payload
  parts_build : ∀ {x p}, parts x = some p → build p = x

namespace Variant

/-- A variant under its tag, the key of the tag first. -/
def write (key : Bytes) (x : σ) (v : Variant limits σ) : Option Tree :=
  (v.parts x).map fun p => .map ((key, .string v.tag) :: v.record.write p)

/-- What is left of a map without the entries of a key. -/
def without (key : Bytes) (entries : List (Bytes × Tree)) : List (Bytes × Tree) :=
  entries.filter fun entry => entry.1 ≠ key

def readAs (tag : Bytes) (variants : List (Variant limits σ)) (t : Tree) : Option σ :=
  (variants.find? fun v => v.tag = tag).bind fun v => (v.record.readTree t).map v.build

def asString : Tree → Option Bytes
  | .string value => some value
  | _ => none

/-- `#[serde(tag = key)]`: the tag stands among the fields, once, or before them. -/
def readTagged (key : Bytes) (variants : List (Variant limits σ)) : Tree → Option σ
  | .map entries =>
      if (entries.map (·.1)).count key = 1 then
        ((entries.lookup key).bind asString).bind fun tag =>
          readAs tag variants (.map (without key entries))
      else none
  | .seq (tag :: items) => (asString tag).bind fun tag => readAs tag variants (.seq items)
  | _ => none

theorem mem_of_without {key : Bytes} {entries : List (Bytes × Tree)} {name : Bytes}
    (h : ((without key entries).lookup name).isSome = true) : name ∈ entries.map (·.1) := by
  obtain ⟨t, ht⟩ := Option.isSome_iff_exists.mp h
  obtain ⟨front, back, heq, _⟩ := List.lookup_eq_some_iff.mp ht
  have hmem : (name, t) ∈ without key entries := by
    rw [heq]
    exact List.mem_append_right _ List.mem_cons_self
  exact List.mem_map.mpr ⟨_, List.mem_of_mem_filter hmem, rfl⟩

theorem asString_congr {d : Nat} {t t' : Tree} (h : t.Same d t') : asString t' = asString t :=
  Codec.congr_of_scalar (fun _ => rfl) (fun _ => rfl) h

theorem readAs_congr {variants : List (Variant limits σ)} {d : Nat} {t t' : Tree}
    (hfits : t.Fits limits d) (h : t.Same d t') (tag : Bytes) :
    readAs tag variants t' = readAs tag variants t := by
  rw [readAs, readAs]
  refine congrArg _ (funext fun v => ?_)
  rw [v.record.readTree_congr hfits h]

theorem without_same {key : Bytes} {R : Tree → Tree → Prop} {left right : List (Bytes × Tree)}
    (h : List.Forall₂ (fun a b => a.1 = b.1 ∧ R a.2 b.2) left right) :
    List.Forall₂ (fun a b => a.1 = b.1 ∧ R a.2 b.2) (without key left) (without key right) := by
  induction h with
  | nil => exact .nil
  | @cons a b left right hab _ ih =>
      unfold without at ih ⊢
      rw [List.filter_cons, List.filter_cons, hab.1]
      split
      · exact .cons hab ih
      · exact ih

theorem readTagged_congr {key : Bytes} {variants : List (Variant limits σ)} {d : Nat}
    {t t' : Tree} (hfits : t.Fits limits d) (h : t.Same d t') :
    readTagged key variants t' = readTagged key variants t := by
  rcases h.cases with rfl | ⟨items, items', d', rfl, rfl, rfl, hall⟩ |
    ⟨entries, entries', mid, d', rfl, rfl, rfl, hperm, hall⟩
  · rfl
  · cases hall with
    | nil => rfl
    | @cons tag tag' items items' htag hitems =>
        rw [readTagged, readTagged, asString_congr htag]
        have hfits' : (Tree.seq items).Fits limits (d' + 1) := fun item hitem =>
          hfits item (List.mem_cons_of_mem _ hitem)
        have hsame : (Tree.seq items).Same (d' + 1) (.seq items') := hitems
        exact congrArg _ (funext fun tag => readAs_congr hfits' hsame tag)
  · have hkeys : (entries.map (·.1)).Perm (entries'.map (·.1)) := by
      rw [Tree.keys_of_same hall]
      exact hperm.map _
    have hfound := Record.found_of_same hfits.1
      (fun entry hentry => (hfits.2 entry hentry).2) hall hperm key
    have htag : (entries'.lookup key).bind asString = (entries.lookup key).bind asString := by
      generalize entries.lookup key = found at hfound ⊢
      generalize entries'.lookup key = found' at hfound ⊢
      cases hfound with
      | none => rfl
      | some h => exact asString_congr h.2
    have hrest : ∀ tag, readAs tag variants (.map (without key entries')) =
        readAs tag variants (.map (without key entries)) := by
      have hfits' : (Tree.map (without key entries)).Fits limits (d' + 1) :=
        ⟨hfits.1.sublist (List.Sublist.map _ List.filter_sublist),
          fun entry hentry => hfits.2 entry (List.mem_of_mem_filter hentry)⟩
      have hsame : (Tree.map (without key entries)).Same (d' + 1) (.map (without key entries')) :=
        ⟨without key mid, hperm.filter _, without_same hall⟩
      exact readAs_congr hfits' hsame
    rw [readTagged, readTagged, htag, hkeys.count_eq]
    exact if_congr Iff.rfl (congrArg _ (funext hrest)) rfl

/-- What makes the variants of an enumeration tell each other apart. -/
structure Tagged (key : Bytes) (variants : List (Variant limits σ)) : Prop where
  covers : ∀ x, ∃ v ∈ variants, (v.parts x).isSome = true
  distinct : (variants.map (·.tag)).Nodup
  named : ∀ v ∈ variants, v.record.WellNamed ∧ key ∉ v.record.names ∧ v.tag.all isAscii = true
  key_ascii : key.all isAscii = true

def writeTagged (key : Bytes) (variants : List (Variant limits σ)) (x : σ) : Tree :=
  (variants.findSome? (write key x)).getD .null

variable {key : Bytes} {variants : List (Variant limits σ)}

/-- Every value is written as one of the variants. -/
theorem writeTagged_eq (h : Tagged key variants) (x : σ) :
    ∃ v ∈ variants, ∃ p, v.parts x = some p ∧
      writeTagged key variants x = .map ((key, .string v.tag) :: v.record.write p) := by
  unfold writeTagged
  cases hfound : variants.findSome? (write key x) with
  | none =>
      obtain ⟨v, hv, hparts⟩ := h.covers x
      have hnone := List.findSome?_eq_none_iff.mp hfound v hv
      rw [write, Option.map_eq_none_iff] at hnone
      rw [hnone] at hparts
      cases hparts
  | some t =>
      obtain ⟨v, hv, ht⟩ := List.exists_of_findSome?_eq_some hfound
      obtain ⟨p, hp, rfl⟩ := Option.map_eq_some_iff.mp ht
      exact ⟨v, hv, p, hp, rfl⟩

theorem find?_tag (h : Tagged key variants) {v : Variant limits σ} (hv : v ∈ variants) :
    (variants.find? fun w => w.tag = v.tag) = some v := by
  cases hfound : variants.find? fun w => w.tag = v.tag with
  | none =>
      have hnone := List.find?_eq_none.mp hfound v hv
      exact absurd (decide_eq_true rfl) hnone
  | some w =>
      have htag : w.tag = v.tag := by simpa using List.find?_some hfound
      rw [List.inj_on_of_nodup_map h.distinct (List.mem_of_find?_eq_some hfound) hv htag]

theorem readTagged_write (h : Tagged key variants) (x : σ) :
    readTagged key variants (writeTagged key variants x) = some x := by
  obtain ⟨v, hv, p, hp, heq⟩ := writeTagged_eq h x
  obtain ⟨hnamed, hkey, _⟩ := h.named v hv
  have hrest : key ∉ (v.record.write p).map (·.1) := fun hmem =>
    hkey ((v.record.sublist p).subset hmem)
  have hwithout : without key ((key, .string v.tag) :: v.record.write p) = v.record.write p := by
    unfold without
    rw [List.filter_cons_of_neg (by simp)]
    refine List.filter_eq_self.mpr fun entry hentry => ?_
    exact decide_eq_true fun hname => hrest (hname ▸ List.mem_map.mpr ⟨entry, hentry, rfl⟩)
  rw [heq, readTagged, List.map_cons, List.count_cons_self, List.count_eq_zero_of_not_mem hrest,
    if_pos rfl, List.lookup_cons_self, hwithout]
  show readAs v.tag variants (.map (v.record.write p)) = some x
  rw [readAs, find?_tag h hv, Option.bind_some, v.record.readTree_write hnamed.1, Option.map_some,
    v.parts_build hp]

/-- A value that is read from a map has been read as one of the variants, from its fields
and the tag and nothing else. -/
theorem readTagged_map {entries : List (Bytes × Tree)} {x : σ}
    (h : readTagged key variants (.map entries) = some x) :
    ∃ v ∈ variants, ∃ p, x = v.build p ∧ entries.lookup key = some (.string v.tag) ∧
      (∀ entry ∈ entries, entry.1 = key ∨ entry.1 ∈ v.record.names) ∧
      v.record.read (fun name => (without key entries).lookup name) = some p := by
  rw [readTagged] at h
  split at h
  · obtain ⟨tag, htag, h⟩ := Option.bind_eq_some_iff.mp h
    obtain ⟨t, ht, htag⟩ := Option.bind_eq_some_iff.mp htag
    obtain ⟨v, hv, h⟩ := Option.bind_eq_some_iff.mp h
    obtain ⟨p, hp, rfl⟩ := Option.map_eq_some_iff.mp h
    have hvtag : v.tag = tag := by
      have hfound := List.find?_some hv
      exact of_decide_eq_true hfound
    have hstring : t = .string tag := by
      cases t <;> first | exact congrArg Tree.string (Option.some.inj htag) | cases htag
    obtain ⟨⟨_, hnames⟩, hread⟩ := Record.readTree_map_eq_some.mp hp
    refine ⟨v, List.mem_of_find?_eq_some hv, p, rfl, ?_, fun entry hentry => ?_, hread⟩
    · rw [ht, hstring, hvtag]
    · by_cases hkey : entry.1 = key
      · exact Or.inl hkey
      · exact Or.inr (hnames entry (List.mem_filter.mpr ⟨hentry, decide_eq_true hkey⟩))
  · cases h

theorem le_foldr_max {values : List Nat} {n : Nat} (h : n ∈ values) : n ≤ values.foldr max 0 := by
  induction values with
  | nil => cases h
  | cons first values ih =>
      rcases List.mem_cons.mp h with rfl | h
      · exact le_max_left _ _
      · exact (ih h).trans (le_max_right _ _)

end Variant

/-- The codec of an enumeration of records. -/
def Codec.tagged (key : Bytes) (variants : List (Variant limits σ))
    (h : Variant.Tagged key variants)
    (hlimits : ∀ name : Bytes, name.all isAscii = true → limits.string name) :
    Codec limits σ where
  write := Variant.writeTagged key variants
  read := Variant.readTagged key variants
  depth := (variants.map fun v => v.record.depth).foldr max 0 + 1
  fits x := by
    obtain ⟨v, hv, p, hp, heq⟩ := Variant.writeTagged_eq h x
    obtain ⟨hnamed, hkey, htag⟩ := h.named v hv
    rw [heq]
    refine ⟨?_, fun entry hentry => ?_⟩
    · exact List.nodup_cons.mpr ⟨fun hmem => hkey ((v.record.sublist p).subset hmem),
        hnamed.1.sublist (v.record.sublist p)⟩
    · rcases List.mem_cons.mp hentry with rfl | hentry
      · refine ⟨hlimits _ h.key_ascii, ?_⟩
        exact (show Tree.Fits limits 0 (.string v.tag) from hlimits _ htag).mono (Nat.zero_le _)
      · have hname := (v.record.sublist p).subset (List.mem_map.mpr ⟨entry, hentry, rfl⟩)
        refine ⟨hlimits _ (hnamed.2 _ hname), (v.record.fits p entry hentry).mono ?_⟩
        exact Variant.le_foldr_max (List.mem_map.mpr ⟨v, hv, rfl⟩)
  reads := Variant.readTagged_write h
  congr := Variant.readTagged_congr

end Prep.Serde
