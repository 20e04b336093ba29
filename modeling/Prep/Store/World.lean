/-
  Store/World.lean --- the directories of a store, and what its processes share.

  The store's own directories are real directories that nobody replaces, so a place in
  the store is an area, the name of one of its entries, and a path below that entry.
  Paths are written from the store root.
-/
import Mathlib.Data.List.AList
import Prep.Fs.Update
import Prep.Store.OutputTree
import Prep.Store.ResultId
import Prep.Text.Radix
import Prep.Text.Utf8

set_option autoImplicit false

namespace Prep.Store

open Prep.Text
open Prep.Fs (Node Path)
open Prep.Io (IoError)

/-! ## Places -/

/-- The directories below the store root that hold staged work, sources and results. -/
inductive Area where
  | staging
  | sourceStaging
  | sources
  | results
  deriving DecidableEq, Repr

/-- The path of an area from the store root. -/
def Area.path : Area → Path
  | .staging => [ascii ".staging"]
  | .sourceStaging => [ascii ".source-staging"]
  | .sources => [ascii "sources", ascii "sha256"]
  | .results => [ascii "results", ascii "sha256"]

/-- An entry of an area, or a node below it. -/
structure Place where
  area : Area
  name : Bytes
  below : Path
  deriving DecidableEq, Repr

def Place.path (place : Place) : Path := place.area.path ++ place.name :: place.below

/-- The path of a lease from the store root. -/
def leasePath (file : Bytes) : Path := [ascii ".locks", file]

def storeLockPath : Path := [ascii ".store.lock"]

/-- `format!("{id}.lock")`. -/
def leaseFile (id : Bytes) : Bytes := id ++ ascii ".lock"

theorem leaseFile_injective : Function.Injective leaseFile :=
  fun _ _ h => List.append_cancel_right h

/-! ## Transaction identifiers -/

/-- What a transaction identifier is made of: the process, the clock, and a counter of
the process. -/
structure Stamp where
  pid : UInt32
  nanos : Nat
  counter : UInt64
  nanos_lt : nanos < 2 ^ 128

/-- `transaction_id`. -/
def Stamp.transactionId (stamp : Stamp) : Bytes :=
  ascii "txn-" ++ toDecimal stamp.pid.toNat ++ ascii "-" ++ toHexadecimal stamp.nanos ++
    ascii "-" ++ toHexadecimal stamp.counter.toNat

/-- `valid_transaction_id`. -/
def validTransactionId (value : Bytes) : Bool :=
  (ascii "txn-").isPrefixOf value && decide (value.length ≤ 128) &&
    value.all fun byte => isAsciiAlphanumeric byte || byte == 45

/-- Every identifier passes the check that recovery makes. -/
theorem validTransactionId_transactionId (stamp : Stamp) :
    validTransactionId stamp.transactionId = true := by
  have hpid := length_toDecimal_le (stamp.pid.toNat_lt.trans (by norm_num : 2 ^ 32 < 2 ^ 64))
  have hnanos : (toHexadecimal stamp.nanos).length ≤ 32 :=
    length_toHexadecimal_le (by norm_num) (stamp.nanos_lt.trans_eq (by norm_num))
  have hcounter : (toHexadecimal stamp.counter.toNat).length ≤ 16 :=
    length_toHexadecimal_le (by norm_num) (stamp.counter.toNat_lt.trans_eq (by norm_num))
  unfold validTransactionId Stamp.transactionId
  rw [Bool.and_eq_true, Bool.and_eq_true]
  refine ⟨⟨?_, ?_⟩, ?_⟩
  · refine List.isPrefixOf_iff_prefix.mpr ?_
    simp only [List.append_assoc]
    exact List.prefix_append _ _
  · rw [decide_eq_true_eq]
    simp only [List.length_append]
    have htag : (ascii "txn-").length = 4 := rfl
    have hdash : (ascii "-").length = 1 := rfl
    omega
  · simp only [List.all_append, Bool.and_eq_true]
    have htext : ∀ digits : Bytes, digits.all isAsciiAlphanumeric = true →
        digits.all (fun byte => isAsciiAlphanumeric byte || byte == 45) = true := by
      intro digits h
      rw [List.all_eq_true] at h ⊢
      exact fun byte hbyte => Bool.or_eq_true_iff.mpr (Or.inl (h byte hbyte))
    exact ⟨⟨⟨⟨⟨rfl, htext _ (all_isAsciiAlphanumeric_toDecimal _)⟩, rfl⟩,
      htext _ (all_isAsciiAlphanumeric_toHexadecimal _)⟩, rfl⟩,
      htext _ (all_isAsciiAlphanumeric_toHexadecimal _)⟩

/-! ## What is shared -/

/-- Everyone who uses the store: a transaction with its builder, a source stage, a
recovery, a reader.  Each has a process. -/
abbrev Agent : Type := Nat

abbrev Process : Type := Nat

/-- A directory by the names of its entries. -/
abbrev Directory (α : Type) : Type := AList fun _ : Bytes => α

/-- A lease file: the file itself, and whose open file has its lock.  The lock of a
process that has died is free. -/
structure LeaseFile where
  ino : Nat
  holder : Option Agent
  deriving DecidableEq

/-- What all processes see: the areas, the directory of leases, and who has died. -/
structure Shared where
  area : Area → Directory Node
  leases : Directory LeaseFile
  dead : Process → Bool

namespace Shared

/-- The entry of an area. -/
def node (s : Shared) (area : Area) (name : Bytes) : Option Node := (s.area area).lookup name

def lease (s : Shared) (file : Bytes) : Option LeaseFile := s.leases.lookup file

/-- The node at a place. -/
def at? (s : Shared) (place : Place) : Option Node :=
  (s.node place.area place.name).bind fun node => node.get? place.below

end Shared

end Prep.Store
