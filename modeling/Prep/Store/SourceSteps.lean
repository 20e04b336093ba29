/-
  Store/SourceSteps.lean --- what the operations on source stages and on the source
  cache do while they hold the store lock.

  Each stay under the lock either leaves the files as they are, or makes one change that
  has a name: a new file, a file under another name, a name less, a new cached file.
-/
import Prep.Store.SourceStages

set_option autoImplicit false

namespace Prep.Store.Source

open Prep.Core (Sha256Output finishHex)
open Prep.Fs (Path)
open Prep.Io (IoError Reader)
open Prep.Machine
open Prep.Text

/-! ## Files by their names -/

section Names

variable {w : World} {file other : FileName} {ino : Option Nat}

@[simp] theorem setInode_find (n : Nat) (inode : Inode) :
    (w.setInode n inode).find file = w.find file := by
  cases file <;> rfl

@[simp] theorem unlink_find (n : Nat) : (w.unlink n).find file = w.find file := setInode_find _ _

@[simp] theorem setName_inode : (w.setName file ino).inode = w.inode := by
  cases file <;> rfl

@[simp] theorem setName_nextIno : (w.setName file ino).nextIno = w.nextIno := by
  cases file <;> rfl

@[simp] theorem setName_drawn : (w.setName file ino).drawn = w.drawn := by
  cases file <;> rfl

/-- The name leads where it was set to, and the others where they led. -/
theorem find_setName (h : w.HasDir file) :
    (w.setName file ino).find other = if other = file then ino else w.find other := by
  cases file with
  | cached digest =>
      cases other with
      | cached digest' =>
          simp only [World.setName, World.find, Function.update_apply, FileName.cached.injEq]
      | staged stage' name' => rfl
  | staged stage name =>
      obtain ⟨entries, hentries⟩ := Option.isSome_iff_exists.mp h
      cases other with
      | cached digest' => rfl
      | staged stage' name' =>
          simp only [World.setName, World.find, hentries, Option.map_some, Function.update_apply,
            FileName.staged.injEq]
          by_cases hstage : stage' = stage
          · subst hstage
            simp only [if_true, true_and, Option.bind_some, hentries, Function.update_apply]
          · rw [if_neg hstage, if_neg fun h => hstage h.1]

theorem hasDir_of_find {n : Nat} (h : w.find file = some n) : w.HasDir file := by
  cases file with
  | cached digest => trivial
  | staged stage name =>
      obtain ⟨entries, hentries, _⟩ := Option.bind_eq_some_iff.mp h
      exact Option.isSome_iff_exists.mpr ⟨entries, hentries⟩

/-- Setting a name makes no directory and removes none. -/
theorem isSome_stage_setName (stage : Bytes) :
    ((w.setName file ino).stage stage).isSome = (w.stage stage).isSome := by
  cases file with
  | cached digest => rfl
  | staged changed name =>
      simp only [World.setName, Function.update_apply]
      split
      · rename_i h
        rw [h, Option.isSome_map]
      · rfl

theorem hasDir_setName : (w.setName file ino).HasDir other ↔ w.HasDir other := by
  cases other with
  | cached digest => exact Iff.rfl
  | staged stage name => exact iff_of_eq (congrArg (· = true) (isSome_stage_setName stage))

end Names

/-! ## Runs of programs -/

/-- One call is answered as the world answers it. -/
theorem eval_call (c : Call) (w : World) : (perform c).eval respond w = respond c w := rfl

section Run

variable {α β : Type} {w w' : World} {op : Op α} {next : α → Op β}

@[simp] theorem run_pure (a : α) : run (pure a) w = (.ok a, w) := rfl

@[simp] theorem run_throw (e : StoreError) : run (throw e : Op α) w = (.error e, w) := rfl

@[simp] theorem run_given (value : Except StoreError α) : run (given value) w = (value, w) := rfl

@[simp] theorem run_lift (act : Program Call Answer α) :
    run (ExceptT.lift act) w = (.ok (act.eval respond w).1, (act.eval respond w).2) := by
  unfold run
  exact Program.eval_bind act _

theorem run_mk (act : Program Call Answer (Except StoreError α)) :
    run (ExceptT.mk act) w = act.eval respond w := rfl

theorem run_orIo (operation : String) (path : Path) (act : Program Call Answer (Except IoError α)) :
    run (orIo operation path act) w =
      match act.eval respond w with
      | (.ok a, w') => (.ok a, w')
      | (.error source, w') => (.error (.io operation path source), w') := by
  rw [orIo, run_mk, Program.eval_bind]
  rcases act.eval respond w with ⟨⟨source⟩ | ⟨a⟩, w'⟩ <;> rfl

theorem run_orIo_ok {operation : String} {path : Path}
    {act : Program Call Answer (Except IoError α)} {a : α}
    (h : act.eval respond w = (.ok a, w')) : run (orIo operation path act) w = (.ok a, w') := by
  rw [run_orIo, h]

theorem run_orIo_error {operation : String} {path : Path}
    {act : Program Call Answer (Except IoError α)} {source : IoError}
    (h : act.eval respond w = (.error source, w')) :
    run (orIo operation path act) w = (.error (.io operation path source), w') := by
  rw [run_orIo, h]

theorem run_orIo_eq_ok {operation : String} {path : Path}
    {act : Program Call Answer (Except IoError α)} {a : α}
    (h : run (orIo operation path act) w = (.ok a, w')) : act.eval respond w = (.ok a, w') := by
  rw [run_orIo] at h
  rcases hact : act.eval respond w with ⟨⟨source⟩ | ⟨a⟩, v⟩
  · rw [hact] at h
    cases h
  · rw [hact] at h
    cases h
    rfl

theorem run_bind : run (op >>= next) w =
    match run op w with
    | (.ok a, w') => run (next a) w'
    | (.error e, w') => (.error e, w') := by
  have h : run (op >>= next) w = (op.run >>= ExceptT.bindCont next).eval respond w := rfl
  rw [h, Program.eval_bind]
  unfold run
  rcases op.run.eval respond w with ⟨⟨e⟩ | ⟨a⟩, w'⟩ <;> rfl

theorem run_bind_ok {a : α} (h : run op w = (.ok a, w')) :
    run (op >>= next) w = run (next a) w' := by
  rw [run_bind, h]

theorem run_bind_error {e : StoreError} (h : run op w = (.error e, w')) :
    run (op >>= next) w = (.error e, w') := by
  rw [run_bind, h]

theorem run_bind_eq_ok {b : β} {w'' : World} (h : run (op >>= next) w = (.ok b, w'')) :
    ∃ a w', run op w = (.ok a, w') ∧ run (next a) w' = (.ok b, w'') := by
  rw [run_bind] at h
  rcases hop : run op w with ⟨⟨e⟩ | ⟨a⟩, w'⟩
  · rw [hop] at h
    cases h
  · rw [hop] at h
    exact ⟨a, w', rfl, h⟩

end Run

/-! ## What changes no file -/

/-- The calls that change nothing. -/
def Call.Reads : Call → Prop
  | .statStage _ | .canonicalizeStage _ | .readStages | .statLease _ | .readLeases | .stat _
  | .statHandle _ | .open _ | .sync _ | .readAt _ _ _ => True
  | _ => False

theorem respond_reads {c : Call} (h : c.Reads) (w : World) : (respond c w).2 = w := by
  cases c with
  | statStage stage | canonicalizeStage stage | statLease stage | stat file | «open» file =>
      unfold respond
      dsimp only
      split <;> rfl
  | readStages | readLeases | statHandle | sync | readAt => rfl
  | _ => cases h

/-- A program that only reads leaves the world as it is. -/
theorem run_reads {α : Type} {op : Op α} (h : Program.Only Call.Reads op.run) (w : World) :
    (run op w).2 = w :=
  have hkept : ∀ c v, c.Reads → v = w → (respond c v).2 = w :=
    fun _ v hc hv => (respond_reads hc v).trans hv
  h.eval hkept rfl

section Reads

variable {ok : Call → Prop}

theorem only_orIo {α : Type} {operation : String} {path : Path}
    {act : Program Call Answer (Except IoError α)} (h : act.Only ok) :
    Program.Only ok (orIo operation path act).run := by
  refine Program.Only.bind h fun result => ?_
  cases result <;> exact Program.only_ret _

theorem only_given {α : Type} (value : Except StoreError α) :
    Program.Only ok (given value).run := Program.only_ret _

theorem reads_nodeExists (file : FileName) : Program.Only Call.Reads (nodeExists file).run := by
  refine Program.Only.bind (Program.only_perform trivial) fun result => ?_
  rcases result with ⟨source⟩ | ⟨found⟩
  · cases source <;> exact Program.only_ret _
  · exact Program.only_ret _

theorem reads_verifyOpenFileIdentity (file : FileName) (ino : Nat) :
    Program.Only Call.Reads (verifyOpenFileIdentity file ino).run := by
  refine Program.Only.bindE (only_orIo (Program.only_perform trivial)) fun (found, links) => ?_
  dsimp only
  split
  · exact Program.only_ret _
  · refine Program.Only.bindE (only_orIo (Program.only_perform trivial)) fun _ => ?_
    split <;> exact Program.only_ret _

theorem reads_verifyStage (stage : Bytes) : Program.Only Call.Reads (verifyStage stage).run :=
  Program.Only.bindE (only_orIo (Program.only_perform trivial)) fun _ =>
    only_orIo (Program.only_perform trivial)

theorem reads_readBoundedSourceBytes (ino : Nat) (maximum : UInt64) :
    Program.Only Call.Reads (readBoundedSourceBytes ino maximum).run :=
  Program.Only.bindE (only_given _) fun _ =>
    Program.Only.bindE (only_orIo (Program.only_perform trivial)) fun _ =>
      Program.Only.bindE (only_given _) fun _ => Program.only_ret _

theorem reads_readCachedSourceBlobLocked (sha256 : Bytes → Sha256Output) (digest : Bytes)
    (maximum : UInt64) :
    Program.Only Call.Reads (readCachedSourceBlobLocked sha256 digest maximum).run := by
  refine Program.Only.bindE (reads_nodeExists _) fun found => ?_
  cases found with
  | false => exact Program.only_ret _
  | true =>
      refine Program.Only.bindE (only_orIo (Program.only_perform trivial)) fun ino => ?_
      refine Program.Only.bindE (reads_verifyOpenFileIdentity _ _) fun _ => ?_
      refine Program.Only.bindE (reads_readBoundedSourceBytes _ _) fun bytes => ?_
      exact Program.Only.bindE (only_given _) fun _ => Program.only_ret _

theorem reads_sealPart (stage : Bytes) (ino : Nat) :
    Program.Only Call.Reads (sealPart stage ino).run :=
  Program.Only.bindE (only_orIo (Program.only_perform trivial)) fun _ =>
    reads_verifyOpenFileIdentity _ _

theorem reads_openUnverifiedArchive (stage : Bytes) :
    Program.Only Call.Reads (openUnverifiedArchive stage).run :=
  Program.Only.bindE (reads_verifyStage _) fun _ =>
    Program.Only.bindE (only_orIo (Program.only_perform trivial)) fun _ =>
      Program.Only.bindE (reads_verifyOpenFileIdentity _ _) fun _ => Program.only_ret _

end Reads

/-! ## Checks -/

section Checks

variable {w w' : World} {file : FileName} {stage : Bytes} {ino : Nat} {maximum : UInt64}

theorem eval_stat (h : w.find file = some ino) :
    (perform (.stat file)).eval respond w = (.ok (ino, (w.inode ino).links), w) := by
  rw [eval_call, respond, h]

theorem eval_open (h : w.find file = some ino) :
    (perform (.open file)).eval respond w = (.ok ino, w) := by
  rw [eval_call, respond, h]

theorem run_nodeExists : run (nodeExists file) w = (.ok (w.find file).isSome, w) := by
  rw [nodeExists, run_mk, Program.eval_bind, eval_call, respond]
  cases w.find file <;> rfl

theorem run_verifyStage (h : (w.stage stage).isSome = true) :
    run (verifyStage stage) w = (.ok (), w) := by
  obtain ⟨entries, hentries⟩ := Option.isSome_iff_exists.mp h
  have hstat : (perform (.statStage stage)).eval respond w = (.ok (), w) := by
    rw [eval_call, respond, hentries]
  have hcanonicalize : (perform (.canonicalizeStage stage)).eval respond w = (.ok (), w) := by
    rw [eval_call, respond, hentries]
  rw [verifyStage, run_bind_ok (run_orIo_ok hstat)]
  exact run_orIo_ok hcanonicalize

theorem run_verifyStage_none (h : w.stage stage = none) :
    ∃ e, run (verifyStage stage) w = (.error e, w) := by
  have hstat : (perform (.statStage stage)).eval respond w = (.error .notFound, w) := by
    rw [eval_call, respond, h]
  exact ⟨_, run_bind_error (run_orIo_error hstat)⟩

/-- The name still leads to the file that is open, and no other name does. -/
theorem run_verifyOpenFileIdentity (hfind : w.find file = some ino)
    (hlinks : (w.inode ino).links = 1) :
    run (verifyOpenFileIdentity file ino) w = (.ok (), w) := by
  rw [verifyOpenFileIdentity, run_bind_ok (run_orIo_ok (eval_stat hfind))]
  dsimp only
  rw [if_neg fun h => h hlinks, run_bind_ok (run_orIo_ok rfl), if_neg fun h => h rfl, run_pure]
  rfl

theorem run_readBoundedSourceBytes (hmaximum : maximum.toNat ≤ maxCacheArchiveBytes)
    (hlength : (w.inode ino).contents.length ≤ maximum.toNat) :
    run (readBoundedSourceBytes ino maximum) w = (.ok (w.inode ino).contents, w) := by
  have hread : (perform (.readAt ino 0 (maximum.toNat + 1))).eval respond w =
      (.ok (w.inode ino).contents, w) := by
    rw [eval_call, respond, List.drop_zero, List.take_of_length_le (Nat.le_succ_of_le hlength)]
  have hcap : checkMaximum maximum = .ok () := if_neg (Nat.not_lt.mpr hmaximum)
  have hfits : checkLength (w.inode ino).contents maximum = .ok () :=
    if_neg (Nat.not_lt.mpr hlength)
  rw [readBoundedSourceBytes, hcap, run_bind_ok (run_given _), run_bind_ok (run_orIo_ok hread),
    hfits, run_bind_ok (run_given _), run_pure]

theorem checkMaximum_eq_ok (h : checkMaximum maximum = .ok ()) :
    maximum.toNat ≤ maxCacheArchiveBytes := by
  rw [checkMaximum] at h
  split at h
  · cases h
  · rename_i hle
    exact Nat.le_of_not_lt hle

theorem checkLength_eq_ok {bytes : Bytes} (h : checkLength bytes maximum = .ok ()) :
    bytes.length ≤ maximum.toNat := by
  rw [checkLength] at h
  split at h
  · cases h
  · rename_i hle
    exact Nat.le_of_not_lt hle

theorem checkDigest_eq_ok {sha256 : Bytes → Sha256Output} {bytes digest : Bytes} {path : Path}
    (h : checkDigest sha256 bytes digest path = .ok ()) : finishHex (sha256 bytes) = digest := by
  rw [checkDigest] at h
  split at h
  · cases h
  · rename_i heq
    exact not_not.mp heq

end Checks

/-! ## Cached blobs -/

section Cached

variable {sha256 : Bytes → Sha256Output} {w w' : World} {digest bytes : Bytes} {ino : Nat}
  {maximum : UInt64}

theorem run_readCachedSourceBlobLocked_none (h : w.cache digest = none) :
    run (readCachedSourceBlobLocked sha256 digest maximum) w = (.ok none, w) := by
  have hfind : w.find (.cached digest) = none := h
  rw [readCachedSourceBlobLocked, run_bind_ok run_nodeExists, hfind]
  rfl

/-- A good entry of the cache is read. -/
theorem run_readCachedSourceBlobLocked_some (h : w.cache digest = some ino)
    (hlinks : (w.inode ino).links = 1)
    (hdigest : finishHex (sha256 (w.inode ino).contents) = digest)
    (hmaximum : maximum.toNat ≤ maxCacheArchiveBytes)
    (hlength : (w.inode ino).contents.length ≤ maximum.toNat) :
    run (readCachedSourceBlobLocked sha256 digest maximum) w =
      (.ok (some (w.inode ino).contents), w) := by
  have hfind : w.find (.cached digest) = some ino := h
  have hcheck : checkDigest sha256 (w.inode ino).contents digest (FileName.cached digest).path =
      .ok () := if_neg fun hne => hne hdigest
  rw [readCachedSourceBlobLocked, run_bind_ok run_nodeExists, hfind]
  show run (orIo _ _ _ >>= _) w = _
  rw [run_bind_ok (run_orIo_ok (eval_open hfind)),
    run_bind_ok (run_verifyOpenFileIdentity hfind hlinks),
    run_bind_ok (run_readBoundedSourceBytes hmaximum hlength), hcheck, run_bind_ok (run_given _),
    run_pure]

theorem run_readBoundedSourceBytes_eq_ok
    (h : run (readBoundedSourceBytes ino maximum) w = (.ok bytes, w')) :
    maximum.toNat ≤ maxCacheArchiveBytes ∧ bytes = (w.inode ino).contents ∧
      bytes.length ≤ maximum.toNat := by
  obtain ⟨_, _, hcap, h₁⟩ := run_bind_eq_ok h
  obtain ⟨hmaximum, rfl⟩ := Prod.mk.inj hcap
  obtain ⟨taken, _, hread, h₂⟩ := run_bind_eq_ok h₁
  obtain ⟨_, _, hfits, h₃⟩ := run_bind_eq_ok h₂
  obtain ⟨hcheck, rfl⟩ := Prod.mk.inj hfits
  obtain rfl : taken = bytes := Except.ok.inj (Prod.mk.inj h₃).1
  have hlength := checkLength_eq_ok hcheck
  have hanswer := run_orIo_eq_ok hread
  rw [eval_call, respond] at hanswer
  refine ⟨checkMaximum_eq_ok hmaximum, ?_, hlength⟩
  have htaken : (w.inode ino).contents.take (maximum.toNat + 1) = taken :=
    Except.ok.inj (Prod.mk.inj hanswer).1
  rw [← htaken] at hlength ⊢
  rw [List.length_take] at hlength
  exact List.take_of_length_le (by omega)

/-- What is read from the cache has the digest and the length that were asked for, whatever
is in the cache. -/
theorem run_readCachedSourceBlobLocked_eq_ok_some
    (h : run (readCachedSourceBlobLocked sha256 digest maximum) w = (.ok (some bytes), w')) :
    ∃ ino, w.cache digest = some ino ∧ bytes = (w.inode ino).contents ∧
      finishHex (sha256 bytes) = digest ∧ bytes.length ≤ maximum.toNat ∧
      maximum.toNat ≤ maxCacheArchiveBytes := by
  rw [readCachedSourceBlobLocked, run_bind_ok run_nodeExists] at h
  cases hcache : w.cache digest with
  | none =>
      have hfind : w.find (.cached digest) = none := hcache
      rw [hfind] at h
      cases h
  | some ino =>
      have hfind : w.find (.cached digest) = some ino := hcache
      rw [hfind] at h
      replace h : run (orIo _ _ _ >>= _) w = _ := h
      rw [run_bind_ok (run_orIo_ok (eval_open hfind))] at h
      obtain ⟨_, v, hidentity, h₁⟩ := run_bind_eq_ok h
      have hv : v = w := by
        rw [← run_reads (reads_verifyOpenFileIdentity _ _) w, hidentity]
      obtain ⟨taken, _, hread, h₂⟩ := run_bind_eq_ok h₁
      obtain ⟨hcap, hcontents, hlength⟩ := run_readBoundedSourceBytes_eq_ok hread
      obtain ⟨_, _, hdigest, h₃⟩ := run_bind_eq_ok h₂
      have hcheck : checkDigest _ taken digest _ = .ok () := (Prod.mk.inj hdigest).1
      obtain rfl : taken = bytes := Option.some.inj (Except.ok.inj (Prod.mk.inj h₃).1)
      rw [hv] at hcontents
      exact ⟨ino, rfl, hcontents, checkDigest_eq_ok hcheck, hlength, hcap⟩

theorem run_readCachedSourceBlobLocked_eq_ok_none
    (h : run (readCachedSourceBlobLocked sha256 digest maximum) w = (.ok none, w')) :
    w.cache digest = none := by
  rw [readCachedSourceBlobLocked, run_bind_ok run_nodeExists] at h
  cases hcache : w.cache digest with
  | none => rfl
  | some ino =>
      have hfind : w.find (.cached digest) = some ino := hcache
      rw [hfind] at h
      replace h : run (orIo _ _ _ >>= _) w = _ := h
      rw [run_bind_ok (run_orIo_ok (eval_open hfind))] at h
      obtain ⟨_, _, _, hread⟩ := run_bind_eq_ok h
      obtain ⟨_, _, _, hdigest⟩ := run_bind_eq_ok hread
      obtain ⟨_, _, _, hnone⟩ := run_bind_eq_ok hdigest
      cases hnone

end Cached

/-! ## Changes -/

/-- A new file under a name. -/
def World.newFile (w : World) (file : FileName) : World :=
  { (w.setName file (some w.nextIno)).setInode w.nextIno ⟨[], 1⟩ with
    nextIno := w.nextIno + 1 }

/-- A file under another name. -/
def World.moveFile (w : World) (ino : Nat) (old new : FileName) : World :=
  (w.setName old none).setName new (some ino)

/-- A file without a name it had. -/
def World.removeFile (w : World) (ino : Nat) (file : FileName) : World :=
  (w.unlink ino).setName file none

/-- A new file in the cache. -/
def World.publish (w : World) (digest bytes : Bytes) : World :=
  { w with
    cache := Function.update w.cache digest (some w.nextIno)
    inode := Function.update w.inode w.nextIno ⟨bytes, 1⟩
    nextIno := w.nextIno + 1 }

section Changes

variable {sha256 : Bytes → Sha256Output} {w w' : World} {stage digest bytes : Bytes} {ino : Nat}
  {maximum : UInt64}

theorem run_startPart (w : World) (stage : Bytes) :
    (∃ e, run (startPart stage) w = (.error e, w)) ∨
    ((w.stage stage).isSome = true ∧ w.find (partFile stage) = none ∧
      run (startPart stage) w = (.ok w.nextIno, w.newFile (partFile stage))) := by
  cases hstage : (w.stage stage).isSome with
  | false =>
      have hnone := Option.not_isSome_iff_eq_none.mp (ne_true_of_eq_false hstage)
      obtain ⟨e, he⟩ := run_verifyStage_none hnone
      exact .inl ⟨e, run_bind_error he⟩
  | true =>
      rw [startPart, run_bind_ok (run_verifyStage hstage), run_bind_ok run_nodeExists]
      cases hblob : w.find (blobFile stage) with
      | some ino => exact .inl ⟨_, rfl⟩
      | none =>
          cases hpart : w.find (partFile stage) with
          | some ino =>
              have hexists : (perform (.createNew (partFile stage))).eval respond w =
                  (.error .alreadyExists, w) := by
                rw [eval_call, respond, hpart, if_pos (hasDir_of_find hpart)]
              exact .inl ⟨_, run_orIo_error hexists⟩
          | none =>
              refine .inr ⟨rfl, rfl, run_orIo_ok ?_⟩
              have hdir : w.HasDir (partFile stage) := hstage
              rw [eval_call, respond, hpart, if_pos hdir]
              rfl

theorem run_completePart (w : World) (stage : Bytes) :
    (∃ e, run (completePart stage) w = (.error e, w)) ∨
    ∃ ino, w.find (partFile stage) = some ino ∧ w.find (blobFile stage) = none ∧
      run (completePart stage) w =
        (.ok (), w.moveFile ino (partFile stage) (blobFile stage)) := by
  cases hstage : (w.stage stage).isSome with
  | false =>
      have hnone := Option.not_isSome_iff_eq_none.mp (ne_true_of_eq_false hstage)
      obtain ⟨e, he⟩ := run_verifyStage_none hnone
      exact .inl ⟨e, run_bind_error he⟩
  | true =>
      rw [completePart, run_bind_ok (run_verifyStage hstage), run_bind_ok run_nodeExists]
      cases hblob : w.find (blobFile stage) with
      | some ino => exact .inl ⟨_, rfl⟩
      | none =>
          cases hpart : w.find (partFile stage) with
          | none =>
              have hmissing : (perform (.rename (partFile stage) (blobFile stage))).eval respond w =
                  (.error .notFound, w) := by
                rw [eval_call, respond, hpart]
              exact .inl ⟨_, run_orIo_error hmissing⟩
          | some ino =>
              refine .inr ⟨ino, rfl, rfl, run_orIo_ok ?_⟩
              have hdir : w.HasDir (blobFile stage) := hstage
              rw [eval_call, respond, hpart]
              dsimp only
              rw [if_pos hdir, hblob]
              rfl

/-- The part of a cached file while it is filled. -/
theorem find_newFile {file other : FileName} (h : w.HasDir file) :
    (w.newFile file).find other = if other = file then some w.nextIno else w.find other := by
  have hnew : (w.newFile file).find other =
      ((w.setName file (some w.nextIno)).setInode w.nextIno ⟨[], 1⟩).find other := by
    cases other <;> rfl
  rw [hnew, setInode_find, find_setName h]

/-- The part of a cached file, filled. -/
def World.filled (w : World) (stage bytes : Bytes) : World :=
  (w.newFile (cachePartFile stage)).setInode w.nextIno ⟨bytes, 1⟩

/-- The filled part has its place in the cache as a second name. -/
def World.linked (w : World) (stage digest bytes : Bytes) : World :=
  ((w.filled stage bytes).setName (.cached digest) (some w.nextIno)).setInode w.nextIno ⟨bytes, 2⟩

theorem find_filled {other : FileName} (hdir : (w.stage stage).isSome = true) :
    (w.filled stage bytes).find other =
      if other = cachePartFile stage then some w.nextIno else w.find other := by
  have hnew : w.HasDir (cachePartFile stage) := hdir
  rw [World.filled, setInode_find, find_newFile hnew]

theorem inode_filled : (w.filled stage bytes).inode w.nextIno = ⟨bytes, 1⟩ :=
  Function.update_self ..

theorem inode_linked : (w.linked stage digest bytes).inode w.nextIno = ⟨bytes, 2⟩ :=
  Function.update_self ..

theorem run_fillSourceBlob (hdir : (w.stage stage).isSome = true)
    (hplace : w.cache digest = none) :
    run (fillSourceBlob sha256 stage w.nextIno bytes digest maximum)
      (w.newFile (cachePartFile stage)) = (.ok (), w.linked stage digest bytes) := by
  have hempty : (w.newFile (cachePartFile stage)).inode w.nextIno = ⟨[], 1⟩ :=
    Function.update_self ..
  have hwrite : (perform (.write w.nextIno bytes)).eval respond (w.newFile (cachePartFile stage)) =
      (.ok (), w.filled stage bytes) := by
    rw [eval_call, respond, hempty, List.nil_append]
    rfl
  have hsync : (perform (.sync w.nextIno)).eval respond (w.filled stage bytes) =
      (.ok (), w.filled stage bytes) := rfl
  have hpart : (w.filled stage bytes).find (cachePartFile stage) = some w.nextIno := by
    rw [find_filled hdir, if_pos rfl]
  have hfree : (w.filled stage bytes).find (.cached digest) = none := by
    rw [find_filled hdir, if_neg nofun]
    exact hplace
  have hplaceDir : (w.filled stage bytes).HasDir (.cached digest) := trivial
  have hlink : respond (.hardLink (cachePartFile stage) (.cached digest)) (w.filled stage bytes) =
      (.ok (), w.linked stage digest bytes) := by
    rw [respond, hpart]
    dsimp only
    rw [hfree]
    dsimp only
    rw [if_pos hplaceDir, inode_filled]
    rfl
  have hdone : run (linkSourceBlob sha256 stage digest maximum) (w.filled stage bytes) =
      (.ok (), w.linked stage digest bytes) := by
    rw [linkSourceBlob, run_mk, Program.eval_bind, eval_call, hlink]
    rfl
  have hlinks : ((w.filled stage bytes).inode w.nextIno).links = 1 := by rw [inode_filled]
  rw [fillSourceBlob, run_bind_ok (run_orIo_ok hwrite), run_bind_ok (run_orIo_ok hsync),
    run_bind_ok (run_verifyOpenFileIdentity hpart hlinks), hdone]

/-- Without its part the cached file has one name, and the stage the files it had. -/
theorem respond_remove_linked (hdir : (w.stage stage).isSome = true)
    (hpart : w.find (cachePartFile stage) = none) :
    respond (.remove (cachePartFile stage)) (w.linked stage digest bytes) =
      (.ok (), w.publish digest bytes) := by
  have hplaceDir : (w.filled stage bytes).HasDir (.cached digest) := trivial
  have hfind : (w.linked stage digest bytes).find (cachePartFile stage) = some w.nextIno := by
    rw [World.linked, setInode_find, find_setName hplaceDir, if_neg nofun, find_filled hdir,
      if_pos rfl]
  obtain ⟨entries, hentries⟩ := Option.isSome_iff_exists.mp hdir
  have hentry : entries (ascii "cache.part") = none := by
    rw [← hpart, cachePartFile, World.find, hentries, Option.bind_some]
  have hstage : (w.linked stage digest bytes).stage = Function.update w.stage stage
      (some (Function.update entries (ascii "cache.part") (some w.nextIno))) := by
    rw [← Option.map_some (f := fun entries : Bytes → Option Nat =>
      Function.update entries (ascii "cache.part") (some w.nextIno)), ← hentries]
    rfl
  have hinode : (w.linked stage digest bytes).inode =
      Function.update w.inode w.nextIno ⟨bytes, 2⟩ := by
    show Function.update (Function.update (Function.update w.inode _ _) _ _) _ _ = _
    rw [Function.update_idem, Function.update_idem]
  rw [respond, hfind]
  refine Prod.ext rfl (World.ext ?_ rfl ?_ rfl rfl rfl)
  · show Function.update (w.linked stage digest bytes).inode w.nextIno
      ⟨((w.linked stage digest bytes).inode w.nextIno).contents, _⟩ = _
    rw [inode_linked, hinode, Function.update_idem]
    rfl
  · show Function.update (w.linked stage digest bytes).stage stage
      (((w.linked stage digest bytes).stage stage).map fun entries =>
        Function.update entries (ascii "cache.part") none) = w.stage
    rw [hstage, Function.update_self, Option.map_some, Function.update_idem, Function.update_idem,
      ← hentry, Function.update_eq_self, ← hentries, Function.update_eq_self]

/-- Where nothing is cached under the digest, the blob is published. -/
theorem run_publishSourceBlob_absent (hstage : (w.stage stage).isSome = true)
    (hpart : w.find (cachePartFile stage) = none) (hplace : w.cache digest = none) :
    run (publishSourceBlob sha256 stage bytes digest maximum) w =
      (.ok (), w.publish digest bytes) := by
  have hdir : w.HasDir (cachePartFile stage) := hstage
  have hcreate : (perform (.createNew (cachePartFile stage))).eval respond w =
      (.ok w.nextIno, w.newFile (cachePartFile stage)) := by
    rw [eval_call, respond, if_pos hdir, hpart]
    rfl
  have hfill : (fillSourceBlob sha256 stage w.nextIno bytes digest maximum).run.eval respond
      (w.newFile (cachePartFile stage)) = (.ok (), w.linked stage digest bytes) :=
    run_fillSourceBlob hstage hplace
  have hremove : (orIo "remove source cache part" (cachePartFile stage).path
      (perform (.remove (cachePartFile stage)))).run.eval respond
        (w.linked stage digest bytes) = (.ok (), w.publish digest bytes) :=
    run_orIo_ok (respond_remove_linked hstage hpart)
  rw [publishSourceBlob, run_bind_ok (run_verifyStage hstage),
    run_bind_ok (run_readCachedSourceBlobLocked_none hplace)]
  show run (orIo _ _ _ >>= _) w = _
  rw [run_bind_ok (run_orIo_ok hcreate), run_bind_ok (run_lift _), hfill,
    run_bind_ok (run_lift _), hremove]
  rfl

/-- A blob that is cached already is left as it is. -/
theorem run_publishSourceBlob_present {found : Bytes} (hstage : (w.stage stage).isSome = true)
    (hread : run (readCachedSourceBlobLocked sha256 digest maximum) w = (.ok (some found), w)) :
    run (publishSourceBlob sha256 stage bytes digest maximum) w = (.ok (), w) := by
  rw [publishSourceBlob, run_bind_ok (run_verifyStage hstage), run_bind_ok hread]
  rfl

theorem run_publishSourceBlob (w : World) (stage digest bytes : Bytes) (maximum : UInt64)
    (hpart : w.find (cachePartFile stage) = none) :
    (∃ e, run (publishSourceBlob sha256 stage bytes digest maximum) w = (.error e, w)) ∨
    ((w.stage stage).isSome = true ∧
      run (publishSourceBlob sha256 stage bytes digest maximum) w = (.ok (), w) ∧
      ∃ ino, w.cache digest = some ino ∧
        finishHex (sha256 (w.inode ino).contents) = digest ∧
        (w.inode ino).contents.length ≤ maximum.toNat) ∨
    ((w.stage stage).isSome = true ∧ w.cache digest = none ∧
      run (publishSourceBlob sha256 stage bytes digest maximum) w =
        (.ok (), w.publish digest bytes)) := by
  cases hstage : (w.stage stage).isSome with
  | false =>
      obtain ⟨e, he⟩ :=
        run_verifyStage_none (Option.not_isSome_iff_eq_none.mp (ne_true_of_eq_false hstage))
      exact .inl ⟨e, run_bind_error he⟩
  | true =>
      have hworld := run_reads (reads_readCachedSourceBlobLocked sha256 digest maximum) w
      obtain ⟨result, hread⟩ : ∃ result,
          run (readCachedSourceBlobLocked sha256 digest maximum) w = (result, w) :=
        ⟨_, Prod.ext rfl hworld⟩
      rcases result with ⟨e⟩ | ⟨_ | found⟩
      · refine .inl ⟨e, ?_⟩
        rw [publishSourceBlob, run_bind_ok (run_verifyStage hstage), run_bind_error hread]
      · have hplace := run_readCachedSourceBlobLocked_eq_ok_none hread
        exact .inr (.inr ⟨rfl, hplace, run_publishSourceBlob_absent hstage hpart hplace⟩)
      · obtain ⟨ino, hcache, rfl, hdigest, hlength, _⟩ :=
          run_readCachedSourceBlobLocked_eq_ok_some hread
        exact .inr (.inl ⟨rfl, run_publishSourceBlob_present hstage hread, ino, hcache, hdigest,
          hlength⟩)

end Changes

/-! ## First moves -/

/-- The first move of a caching changes nothing. -/
theorem startCache_world (stage expected : Bytes) (maximum : UInt64) (w : World) :
    (startCache stage expected maximum w).2 = w := by
  rw [startCache]
  split
  · rfl
  · have hworld := run_reads (reads_openUnverifiedArchive stage) w
    split <;> rename_i hrun <;> rw [hrun] at hworld
    · exact hworld
    · split <;> exact hworld

theorem startCache_progress (stage expected : Bytes) (maximum : UInt64) (w : World) :
    (∃ result, (startCache stage expected maximum w).1 =
      .returns (.cached stage expected maximum result)) ∨
    ∃ ino digest, (startCache stage expected maximum w).1 =
      .goesOn (.reading stage ino digest expected maximum []) := by
  rw [startCache]
  split
  · exact .inl ⟨_, rfl⟩
  · split
    · exact .inl ⟨_, rfl⟩
    · split
      · exact .inl ⟨_, rfl⟩
      · exact .inr ⟨_, _, rfl⟩

end Prep.Store.Source
