/-
  Store/Error.lean --- `StoreError` of `prep-store/src/lib.rs`.
-/
import Prep.Fs.Tree
import Prep.Io.Reader

set_option autoImplicit false

namespace Prep.Store

open Prep.Text
open Prep.Fs (Path)
open Prep.Io (IoError)

/-- `Path::display`, on the byte values. -/
def displayPath (path : Path) : String :=
  String.join (path.map fun name =>
    "/" ++ String.ofList (name.map fun b => Char.ofNat b.toNat))

/-- `StoreError`. -/
inductive StoreError where
  | invalidPath (message : String)
  | invalidResultId (message : String)
  | io (operation : String) (path : Path) (source : IoError)
  | serialization (message : String)
  | corruptResult (path : Path) (message : String)
  | invalidOutput (path : Path) (message : String)
  | crossFilesystem
  | sourceTooLarge
  | corruptSource (path : Path)
  | activation (message : String)
  deriving DecidableEq, Repr

/-- `impl Display for StoreError`. -/
instance : ToString StoreError where
  toString
    | .invalidPath message => message
    | .invalidResultId message => message
    | .io operation path source => s!"{operation} {displayPath path}: {source}"
    | .serialization message => message
    | .corruptResult path message => s!"corrupt result {displayPath path}: {message}"
    | .invalidOutput path message => s!"invalid output {displayPath path}: {message}"
    | .sourceTooLarge => "unverified source input exceeds size limit"
    | .corruptSource path => s!"source digest mismatch: {displayPath path}"
    | .crossFilesystem => "result staging and destination are on different filesystems"
    | .activation message => message

end Prep.Store
