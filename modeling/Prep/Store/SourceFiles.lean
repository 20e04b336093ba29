/-
  Store/SourceFiles.lean --- the files of source stages and of the source cache.

  A file has a number of its own, its contents and the number of its names, so that a
  hard link is a second name of the same file.  The directories of the store itself are
  real directories that nobody replaces; a stage is a directory of plain files with a
  lease of its name.
-/
import Prep.Core.Sha256
import Prep.Machine.Program
import Prep.Store.Error
import Prep.Store.World

set_option autoImplicit false

namespace Prep.Store.Source

open Prep.Core (Sha256Output finishHex)
open Prep.Fs (Path)
open Prep.Io (IoError)
open Prep.Machine
open Prep.Text

/-! ## The world -/

/-- A file: what it holds, and how many names it has. -/
structure Inode where
  contents : Bytes
  links : Nat

/-- The name of a file: in the cache, or in a stage. -/
inductive FileName where
  | cached (digest : Bytes)
  | staged (stage name : Bytes)
  deriving DecidableEq

def FileName.path : FileName → Path
  | .cached digest => Area.sources.path ++ [digest]
  | .staged stage name => Area.sourceStaging.path ++ [stage, name]

/-- The directory of a stage. -/
def stagePath (stage : Bytes) : Path := Area.sourceStaging.path ++ [stage]

/-- `archive.blob`, `archive.part` and `cache.part` of a stage. -/
def blobFile (stage : Bytes) : FileName := .staged stage (ascii "archive.blob")

def partFile (stage : Bytes) : FileName := .staged stage (ascii "archive.part")

def cachePartFile (stage : Bytes) : FileName := .staged stage (ascii "cache.part")

/-- What is on disk: the files by their numbers, the stages with their entries, the cache,
the leases of the stages and whether they are held, and the names drawn for stages. -/
@[ext]
structure World where
  inode : Nat → Inode
  nextIno : Nat
  stage : Bytes → Option (Bytes → Option Nat)
  cache : Bytes → Option Nat
  lease : Bytes → Option Bool
  drawn : List Bytes

namespace World

/-- A store that `Store::open` has just made. -/
def empty : World where
  inode _ := ⟨[], 0⟩
  nextIno := 0
  stage _ := none
  cache _ := none
  lease _ := none
  drawn := []

/-- The file of a name. -/
def find (w : World) : FileName → Option Nat
  | .cached digest => w.cache digest
  | .staged stage name => (w.stage stage).bind fun entries => entries name

/-- Whether the directory of a name exists. -/
def HasDir (w : World) : FileName → Prop
  | .cached _ => True
  | .staged stage _ => (w.stage stage).isSome = true

instance (w : World) : DecidablePred w.HasDir := fun file => by
  cases file <;> unfold HasDir <;> infer_instance

/-- A name leads to another file, or to none. -/
def setName (w : World) (file : FileName) (ino : Option Nat) : World :=
  match file with
  | .cached digest => { w with cache := Function.update w.cache digest ino }
  | .staged stage name =>
      { w with
        stage := Function.update w.stage stage
          ((w.stage stage).map fun entries => Function.update entries name ino) }

def setInode (w : World) (ino : Nat) (inode : Inode) : World :=
  { w with inode := Function.update w.inode ino inode }

/-- What a file of a name holds. -/
def contents (w : World) (file : FileName) : Option Bytes :=
  (w.find file).map fun ino => (w.inode ino).contents

end World

/-! ## Calls -/

inductive Call where
  | statStage (stage : Bytes)
  | canonicalizeStage (stage : Bytes)
  | createStage (stage : Bytes)
  | removeStage (stage : Bytes)
  | readStages
  | createLease (stage : Bytes)
  | lockLease (stage : Bytes)
  | statLease (stage : Bytes)
  | tryLockLease (stage : Bytes)
  | removeLease (stage : Bytes)
  | readLeases
  | stat (file : FileName)
  | statHandle (ino : Nat)
  | open (file : FileName)
  | createNew (file : FileName)
  | write (ino : Nat) (bytes : Bytes)
  | sync (ino : Nat)
  | readAt (ino offset limit : Nat)
  | hardLink (old new : FileName)
  | rename (old new : FileName)
  | remove (file : FileName)

/-- What a call returns: `stat` the number of the file and of its names. -/
@[reducible] def Answer : Call → Type
  | .readStages => Except IoError (List Bytes)
  | .tryLockLease _ => Except IoError Bool
  | .readLeases => Except IoError (List Bytes)
  | .stat _ => Except IoError (Nat × Nat)
  | .open _ => Except IoError Nat
  | .createNew _ => Except IoError Nat
  | .readAt _ _ _ => Except IoError Bytes
  | _ => Except IoError Unit

/-- One name of a file less. -/
def World.unlink (w : World) (ino : Nat) : World :=
  w.setInode ino ⟨(w.inode ino).contents, (w.inode ino).links - 1⟩

/-- The files of a stage lose their names in it. -/
def World.unlinkEntries (w : World) (entries : Bytes → Option Nat) : List Bytes → World
  | [] => w
  | name :: names =>
      match entries name with
      | some ino => (w.unlink ino).unlinkEntries entries names
      | none => w.unlinkEntries entries names

/-- The names the store gives to files of a stage. -/
def stageNames : List Bytes := [ascii "archive.blob", ascii "archive.part", ascii "cache.part"]

/-- How a call is answered when no call is made to fail. -/
def respond (c : Call) (w : World) : Answer c × World :=
  match c with
  | .statStage stage | .canonicalizeStage stage =>
      match w.stage stage with
      | some _ => (.ok (), w)
      | none => (.error .notFound, w)
  | .createStage stage =>
      match w.stage stage with
      | some _ => (.error .alreadyExists, w)
      | none => (.ok (), { w with stage := Function.update w.stage stage (some fun _ => none) })
  | .removeStage stage =>
      match w.stage stage with
      | some entries =>
          (.ok (), { w.unlinkEntries entries stageNames with
            stage := Function.update w.stage stage none })
      | none => (.error .notFound, w)
  | .readStages => (.ok (w.drawn.filter fun stage => (w.stage stage).isSome), w)
  | .createLease stage =>
      match w.lease stage with
      | some _ => (.error .alreadyExists, w)
      | none => (.ok (), { w with lease := Function.update w.lease stage (some false) })
  | .lockLease stage => (.ok (), { w with lease := Function.update w.lease stage (some true) })
  | .statLease stage =>
      match w.lease stage with
      | some _ => (.ok (), w)
      | none => (.error .notFound, w)
  | .tryLockLease stage =>
      match w.lease stage with
      | some true => (.ok false, w)
      | _ => (.ok true, { w with lease := Function.update w.lease stage (some true) })
  | .removeLease stage =>
      match w.lease stage with
      | some _ => (.ok (), { w with lease := Function.update w.lease stage none })
      | none => (.error .notFound, w)
  | .readLeases => (.ok (w.drawn.filter fun stage => (w.lease stage).isSome), w)
  | .stat file =>
      match w.find file with
      | some ino => (.ok (ino, (w.inode ino).links), w)
      | none => (.error .notFound, w)
  | .statHandle _ => (.ok (), w)
  | .open file =>
      match w.find file with
      | some ino => (.ok ino, w)
      | none => (.error .notFound, w)
  | .createNew file =>
      if w.HasDir file then
        match w.find file with
        | some _ => (.error .alreadyExists, w)
        | none => (.ok w.nextIno,
            { (w.setName file (some w.nextIno)).setInode w.nextIno ⟨[], 1⟩ with
              nextIno := w.nextIno + 1 })
      else (.error .notFound, w)
  | .write ino bytes =>
      (.ok (), w.setInode ino ⟨(w.inode ino).contents ++ bytes, (w.inode ino).links⟩)
  | .sync _ => (.ok (), w)
  | .readAt ino offset limit => (.ok (((w.inode ino).contents.drop offset).take limit), w)
  | .hardLink old new =>
      match w.find old with
      | none => (.error .notFound, w)
      | some ino =>
          match w.find new with
          | some _ => (.error .alreadyExists, w)
          | none =>
              if w.HasDir new then
                (.ok (), (w.setName new (some ino)).setInode ino
                  ⟨(w.inode ino).contents, (w.inode ino).links + 1⟩)
              else (.error .notFound, w)
  | .rename old new =>
      match w.find old with
      | none => (.error .notFound, w)
      | some ino =>
          if w.HasDir new then
            match w.find new with
            | none => (.ok (), (w.setName old none).setName new (some ino))
            | some replaced =>
                -- two names of one file: `rename` does nothing
                if replaced = ino then (.ok (), w)
                else (.ok (), ((w.unlink replaced).setName old none).setName new (some ino))
          else (.error .notFound, w)
  | .remove file =>
      match w.find file with
      | some ino => (.ok (), (w.unlink ino).setName file none)
      | none => (.error .notFound, w)

end Prep.Store.Source
