/-
  Store/SourceCrash.lean --- the source cache when processes die between two calls, and when
  the part of a cached file cannot be removed.

  A blob is published by a second name for its part, and then the part loses its own.  A
  process that dies in between leaves a cached file of two names, which is not read as long
  as it has both.  Every other point at which a process may die leaves the cache as good as
  it was, and so does what a dead process leaves in its stage.

  Scope: the histories are those of `Event`.  A process may die before any call of any
  operation, with a part of the bytes of a write or a part of the files of a stage gone; the
  removal of `cache.part` may fail; every other call does what it says.  Reads and cachings
  afterwards are those of a caller that is left alone, and their own calls succeed.

  `cache_crashSafe` gives the condition under which a digest can be read and its bytes cached
  again.  It is an equivalence in both halves.  A stage that has a left-over `cache.part` of its
  own is not one of those from which bytes are cached: there the part cannot be created.

  Not here: what a caller sees who reads while another process is between the two calls, for
  both hold the store lock.
-/
import Prep.Machine.Interrupt
import Prep.Store.SourceOrder

set_option autoImplicit false

namespace Prep.Store.Source

open Prep.Core (Sha256Output finishHex)
open Prep.Fs (Path)
open Prep.Io (IoError Reader)
open Prep.Machine
open Prep.Text

/-! ## Deaths and failures -/

/-- Where a process dies: the calls it still makes, how many bytes get through if it dies in a
write, and which files are gone if it dies while it removes a stage. -/
structure Death where
  calls : Nat
  written : Nat
  removed : List Bytes

/-- What gets through of the call a process dies in. -/
def Death.partly (death : Death) (c : Call) (w : World) : World :=
  match c with
  | .write ino bytes => (respond (.write ino (bytes.take death.written)) w).2
  | .removeStage stage =>
      death.removed.foldl (fun w name => (respond (.remove (.staged stage name)) w).2) w
  | _ => w

/-- What a process leaves that dies in a program. -/
def Death.leaves {α : Type} (death : Death) (program : Program Call Answer α) (w : World) : World :=
  program.interrupted respond death.partly death.calls w

/-- The calls of the next move of an operation.  A read of a staged archive leaves nothing. -/
def Task.program (sha256 : Bytes → Sha256Output) : Task → Program Call Answer Unit
  | .copying _ ino input maximum total =>
      match input.read 8192 with
      | (.ok (head :: tail), _) =>
          let total := total + (tail.length + 1)
          if 2 ^ 64 ≤ total ∨ maximum.toNat < total then return ()
          else do
            let _ ← perform (.write ino (head :: tail))
      | _ => return ()
  | .sealing stage ino _ => do
      let _ ← (sealPart stage ino).run
  | .completing stage _ _ => do
      let _ ← (completePart stage).run
  | .discarding stage _ => do
      let _ ← perform (.remove (partFile stage))
  | .reading _ _ _ _ _ _ => return ()
  | .publishing stage digest _ maximum bytes => do
      let _ ← (publishSourceBlob sha256 stage bytes digest maximum).run

/-- How calls are answered when files cannot be removed. -/
def respondKeeping (source : IoError) (c : Call) (w : World) : Answer c × World :=
  match c with
  | .remove _ => (.error source, w)
  | c => respond c w

/-- What may happen: a step, the death of a process in a step, or a caching that cannot remove
its part. -/
inductive Event where
  | step (action : Step)
  | dies (action : Step) (death : Death)
  | keepsPart (agent : Agent) (source : IoError)

/-- The state a process leaves that dies in a step. -/
def dies (sha256 : Bytes → Sha256Output) (s : State) (death : Death) : Step → Option State
  | .begin names =>
      if names.Nodup ∧ ∀ name ∈ names, name ∉ s.world.drawn then
        some { s with
          world := death.leaves (beginUnverifiedSource names).run
            { s.world with drawn := s.world.drawn ++ names } }
      else none
  | .spool agent stage _ _ =>
      match s.task agent with
      | none => some { s with world := death.leaves (startPart stage).run s.world }
      | some _ => none
  | .cache agent stage _ _ =>
      match s.task agent with
      | none => some { s with world := death.leaves (openUnverifiedArchive stage).run s.world }
      | some _ => none
  | .move agent _ =>
      match s.task agent with
      | some task =>
          some { s with
            world := death.leaves (task.program sha256) s.world
            task := Function.update s.task agent none }
      | none => none
  | .drop stage => some { s with world := death.leaves (dropStage stage) s.world }
  | .abandon stage => step sha256 s (.abandon stage)
  | .recover => some { s with world := death.leaves recoverAbandoned.run s.world }

def happen (sha256 : Bytes → Sha256Output) (s : State) : Event → Option State
  | .step action => step sha256 s action
  | .dies action death => dies sha256 s death action
  | .keepsPart agent source =>
      match s.task agent with
      | some (.publishing stage digest expected maximum bytes) =>
          let (result, w) := (publishSourceBlob sha256 stage bytes digest maximum).run.eval
            (respondKeeping source) s.world
          some (s.after agent (.returns (.cached stage expected maximum result), w))
      | _ => none

/-- The events of a history, one after another. -/
def events (sha256 : Bytes → Sha256Output) (s : State) : List Event → Option State
  | [] => some s
  | first :: rest => (happen sha256 s first).bind fun next => events sha256 next rest

/-- The calls of a move do what the move does. -/
theorem advance_world (sha256 : Bytes → Sha256Output) (amount : Nat) (w : World) (task : Task) :
    (advance sha256 amount w task).2 = ((task.program sha256).eval respond w).2 := by
  cases task with
  | copying stage ino input maximum total =>
      show (copyPass stage ino input maximum total w).2 = _
      rw [Task.program, copyPass]
      rcases input.read 8192 with ⟨⟨source⟩ | ⟨_ | ⟨head, tail⟩⟩, rest⟩
      · cases source <;> rfl
      · rfl
      · dsimp only
        split <;> rfl
  | sealing stage ino total =>
      rw [advance, Task.program, Program.eval_bind, ← run]
      rcases run (sealPart stage ino) w with ⟨⟨e⟩ | ⟨_⟩, w'⟩ <;> rfl
  | completing stage ino total =>
      rw [advance, Task.program, Program.eval_bind, ← run]
      rcases run (completePart stage) w with ⟨⟨e⟩ | ⟨_⟩, w'⟩ <;> rfl
  | discarding stage e => rfl
  | reading stage ino digest expected maximum taken => rfl
  | publishing stage digest expected maximum bytes =>
      rw [advance, Task.program, Program.eval_bind, ← run]
      rfl

/-! ## Programs -/

/-- A way to answer that differs from that of the world in removals at most. -/
def Serves (answer : (c : Call) → World → Answer c × World) : Prop :=
  ∀ c w, (∀ file, c ≠ .remove file) → answer c w = respond c w

/-- The calls that every world allows. -/
def Call.Free (sha256 : Bytes → Sha256Output) (c : Call) : Prop := ∀ w, c.Allowed sha256 w

section Programs

variable {sha256 : Bytes → Sha256Output} {answer : (c : Call) → World → Answer c × World}
  {w w' : World} {stage digest bytes : Bytes} {ino : Nat} {maximum : UInt64} {α : Type}

theorem serves_respond : Serves respond := fun _ _ _ => rfl

theorem serves_respondKeeping (source : IoError) : Serves (respondKeeping source) := by
  intro c w h
  cases c with
  | remove file => exact absurd rfl (h file)
  | _ => rfl

theorem Call.Reads.free {c : Call} (h : c.Reads) : c.Free sha256 := by
  intro w
  cases c with
  | statStage | canonicalizeStage | readStages | statLease | readLeases | stat | statHandle
  | «open» | sync | readAt => trivial
  | _ => cases h

theorem Call.Reads.ne_remove {c : Call} (h : c.Reads) (file : FileName) : c ≠ .remove file := by
  rintro rfl
  exact h

theorem guarded_reads {p : Program Call Answer α} (h : p.Only Call.Reads) :
    p.Guarded answer (Call.Allowed sha256) w :=
  h.guarded fun _ w hc => Call.Reads.free hc w

/-- A program that only reads leaves the world as it is, also when removals fail. -/
theorem world_of_reads (hserves : Serves answer) {op : Op α} (h : Program.Only Call.Reads op.run)
    {result : Except StoreError α} (heval : op.run.eval answer w = (result, w')) : w' = w := by
  rw [h.eval_congr fun c w hc => hserves c w hc.ne_remove] at heval
  exact (congrArg Prod.snd heval).symm.trans (run_reads h w)

/-- One program after another, when the first only reads. -/
theorem guarded_afterReads {β : Type} (hserves : Serves answer) {op : Op α} {next : α → Op β}
    (hop : Program.Only Call.Reads op.run)
    (hnext : ∀ a, op.run.eval answer w = (.ok a, w) →
      Program.Guarded answer (Call.Allowed sha256) (next a).run w) :
    Program.Guarded answer (Call.Allowed sha256) (op >>= next).run w := by
  refine Program.Guarded.bindE (guarded_reads hop) fun a w' heval => ?_
  obtain rfl := world_of_reads hserves hop heval
  exact hnext a heval

theorem guarded_orIo {operation : String} {path : Path}
    {act : Program Call Answer (Except IoError α)}
    (h : act.Guarded answer (Call.Allowed sha256) w) :
    Program.Guarded answer (Call.Allowed sha256) (orIo operation path act).run w := by
  refine Program.Guarded.bind h ?_
  cases (act.eval answer w).1 <;> exact Program.guarded_ret _

theorem guarded_lift {act : Program Call Answer α}
    (h : act.Guarded answer (Call.Allowed sha256) w) :
    Program.Guarded answer (Call.Allowed sha256) (ExceptT.lift act : Op α).run w :=
  Program.Guarded.bind h (Program.guarded_ret _)

theorem eval_orIo_ok {operation : String} {path : Path}
    {act : Program Call Answer (Except IoError α)} {a : α}
    (h : (orIo operation path act).run.eval answer w = (.ok a, w')) :
    act.eval answer w = (.ok a, w') := by
  rw [orIo, ExceptT.run_mk, Program.eval_bind] at h
  rcases hact : act.eval answer w with ⟨⟨source⟩ | ⟨b⟩, v⟩
  · rw [hact] at h
    cases h
  · rw [hact] at h
    cases h
    rfl

theorem only_beginUnverifiedSource (names : List Bytes) :
    Program.Only (Call.Free sha256) (beginUnverifiedSource names).run := by
  induction names with
  | nil => exact Program.only_ret _
  | cons stage names ih =>
      refine Program.Only.bind (Program.only_perform fun _ => trivial) fun created => ?_
      rcases created with ⟨source⟩ | ⟨_⟩
      · cases source with
        | alreadyExists => exact ih
        | _ => exact Program.only_ret _
      · refine Program.Only.bind (Program.only_perform fun _ => trivial) fun locked => ?_
        rcases locked with ⟨source⟩ | ⟨_⟩
        · exact Program.only_ret _
        · refine Program.Only.bind (Program.only_perform fun _ => trivial) fun made => ?_
          rcases made with ⟨source⟩ | ⟨_⟩
          · refine Program.Only.bind (Program.only_perform fun _ => trivial) fun _ => ?_
            split
            · exact ih
            · exact Program.only_ret _
          · exact Program.only_ret _

theorem Call.Sweeps.free {c : Call} (h : c.Sweeps) : c.Free sha256 := by
  cases h with
  | reads hreads => exact hreads.free
  | removeStage | tryLockLease | removeLease => exact fun _ => trivial

theorem only_startPart (stage : Bytes) :
    Program.Only (Call.Free sha256) (startPart stage).run := by
  have hreads : ∀ {β : Type} {op : Op β}, Program.Only Call.Reads op.run →
      Program.Only (Call.Free sha256) op.run := fun h => h.mono fun _ => Call.Reads.free
  refine Program.Only.bindE (hreads (reads_verifyStage stage)) fun _ => ?_
  refine Program.Only.bindE (hreads (reads_nodeExists _)) fun found => ?_
  split
  · exact Program.only_ret _
  · exact only_orIo (Program.only_perform fun _ => ⟨stage, _, rfl⟩)

/-- The archive is put in a place that is free. -/
theorem guarded_completePart (w : World) (stage : Bytes) :
    Program.Guarded respond (Call.Allowed sha256) (completePart stage).run w := by
  refine guarded_afterReads serves_respond (reads_verifyStage stage) fun _ _ => ?_
  refine guarded_afterReads serves_respond (reads_nodeExists _) fun found hfound => ?_
  split
  · exact Program.guarded_ret _
  · rename_i hnot
    refine guarded_orIo (Program.guarded_perform ⟨stage, rfl, rfl, ?_⟩)
    have hexists : found = (w.find (blobFile stage)).isSome :=
      (Except.ok.inj (congrArg Prod.fst (run_nodeExists.symm.trans hfound))).symm
    rw [hexists] at hnot
    exact Option.not_isSome_iff_eq_none.mp hnot

/-- The part that is put in the cache has been filled with what its place says. -/
theorem guarded_fillSourceBlob (hserves : Serves answer) (h : w.Orderly sha256)
    (hdir : w.HasDir (cachePartFile stage))
    (hbytes : finishHex (sha256 bytes) = digest) :
    Program.Guarded answer (Call.Allowed sha256)
      (fillSourceBlob sha256 stage w.nextIno bytes digest maximum).run
      (w.newFile (cachePartFile stage)) := by
  have hstage : (w.stage stage).isSome = true := hdir
  have hnew : ∀ file, (w.newFile (cachePartFile stage)).find file = some w.nextIno →
      file = cachePartFile stage := by
    intro file hfile
    rw [find_newFile hdir] at hfile
    split at hfile
    · assumption
    · exact absurd (h.old file _ hfile) (Nat.lt_irrefl _)
  have hempty : (w.newFile (cachePartFile stage)).inode w.nextIno = ⟨[], 1⟩ :=
    Function.update_self ..
  refine Program.Guarded.bindE (guarded_orIo (Program.guarded_perform ?_)) fun _ w₁ hwrite => ?_
  · intro digest' hcached
    exact cached_ne_cachePart digest' stage (hnew _ hcached)
  have hfilled : w₁ = w.filled stage bytes := by
    have hanswer := eval_orIo_ok hwrite
    rw [perform, Program.eval_perform, hserves _ _ fun _ heq => (by cases heq), respond, hempty,
      List.nil_append] at hanswer
    exact (congrArg Prod.snd hanswer).symm
  subst hfilled
  refine guarded_afterReads hserves (only_orIo (Program.only_perform trivial)) fun _ _ => ?_
  refine guarded_afterReads hserves (reads_verifyOpenFileIdentity _ _) fun _ _ => ?_
  refine Program.Guarded.bind (Program.guarded_perform ⟨stage, digest, rfl, rfl, ?_⟩) ?_
  · intro ino hpart
    rw [find_filled hstage, if_pos rfl] at hpart
    obtain rfl := Option.some.inj hpart
    refine ⟨fun other hother => ?_, ?_⟩
    · rw [World.filled, setInode_find] at hother
      exact hnew other hother
    · rw [inode_filled]
      exact hbytes
  · split
    · exact Program.guarded_ret _
    · refine Program.Guarded.bind
        (guarded_reads (reads_readCachedSourceBlobLocked sha256 digest maximum)) ?_
      split <;> exact Program.guarded_ret _
    · exact Program.guarded_ret _

theorem guarded_publishSourceBlob (hserves : Serves answer) (h : w.Orderly sha256)
    (stage : Bytes) (maximum : UInt64)
    (hbytes : finishHex (sha256 bytes) = digest) :
    Program.Guarded answer (Call.Allowed sha256)
      (publishSourceBlob sha256 stage bytes digest maximum).run w := by
  refine guarded_afterReads hserves (reads_verifyStage stage) fun _ _ => ?_
  refine guarded_afterReads hserves (reads_readCachedSourceBlobLocked _ _ _) fun found _ => ?_
  split
  · exact Program.guarded_ret _
  · refine Program.Guarded.bindE (guarded_orIo (Program.guarded_perform ⟨stage, _, rfl⟩))
      fun ino w₃ hcreate => ?_
    have hanswer := eval_orIo_ok hcreate
    rw [perform, Program.eval_perform, hserves _ _ fun _ heq => (by cases heq), respond] at hanswer
    split at hanswer
    · rename_i hdir
      split at hanswer
      · cases hanswer
      · cases hanswer
        refine Program.Guarded.bindE (guarded_lift (guarded_fillSourceBlob hserves h hdir hbytes))
          fun writeResult w₄ _ => ?_
        refine Program.Guarded.bindE
          (guarded_lift (guarded_orIo (Program.guarded_perform ⟨stage, _, rfl⟩)))
          fun cleanup _ _ => ?_
        exact Program.Guarded.bindE (Program.guarded_ret _) fun _ _ _ => Program.guarded_ret _
    · cases hanswer

/-- What is kept by every call is kept by a program, however its calls are answered. -/
theorem keeps_eval (hserves : Serves answer) (hremove : ∀ file w,
      (answer (.remove file) w).2 = w ∨ answer (.remove file) w = respond (.remove file) w)
    (h : w.Orderly sha256) {p : Program Call Answer α}
    (hp : p.Guarded answer (Call.Allowed sha256) w) : w.Keeps sha256 (p.eval answer w).2 := by
  refine hp.eval (fun c v hc hv => ?_) (keeps_refl h)
  refine hv.trans ?_
  by_cases hkept : ∃ file, c = .remove file
  · obtain ⟨file, rfl⟩ := hkept
    rcases hremove file v with heq | heq
    · rw [heq]
      exact keeps_refl hv.orderly
    · rw [heq]
      exact keeps_respond hv.orderly hc
  · rw [hserves c v fun file heq => hkept ⟨file, heq⟩]
    exact keeps_respond hv.orderly hc

theorem keeps_program (h : w.Orderly sha256) {p : Program Call Answer α}
    (hp : p.Guarded respond (Call.Allowed sha256) w) : w.Keeps sha256 (p.eval respond w).2 :=
  keeps_eval serves_respond (fun _ _ => .inr rfl) h hp

/-- So does what gets through of a call whose process dies in it. -/
theorem keeps_partly (h : w.Orderly sha256) (death : Death) {c : Call} (hc : c.Allowed sha256 w) :
    w.Keeps sha256 (death.partly c w) := by
  cases c with
  | write ino bytes => exact keeps_write h _ hc
  | removeStage stage =>
      show w.Keeps sha256 (death.removed.foldl _ w)
      generalize death.removed = names
      induction names generalizing w with
      | nil => exact keeps_refl h
      | cons name names ih =>
          have hfirst := keeps_remove h stage name
          exact hfirst.trans (ih hfirst.orderly trivial)
  | _ => exact keeps_refl h

theorem keeps_leaves (h : w.Orderly sha256) (death : Death) {p : Program Call Answer α}
    (hp : p.Guarded respond (Call.Allowed sha256) w) : w.Keeps sha256 (death.leaves p w) :=
  hp.interrupted (fun _ _ hc hv => hv.trans (keeps_respond hv.orderly hc))
    (fun _ _ hc hv => hv.trans (keeps_partly hv.orderly death hc)) (keeps_refl h) death.calls

end Programs

/-! ## Histories with deaths -/

/-- What an operation knows between two of its moves, whoever dies: a spool fills no cached
file, and what is to be published has its digest. -/
def Task.Kept (sha256 : Bytes → Sha256Output) (w : World) : Task → Prop
  | .copying _ ino _ _ _ | .sealing _ ino _ | .completing _ ino _ => w.Plain ino
  | .discarding _ _ | .reading _ _ _ _ _ _ => True
  | .publishing _ digest _ _ bytes => finishHex (sha256 bytes) = digest

structure State.Orderly (sha256 : Bytes → Sha256Output) (s : State) : Prop where
  world : s.world.Orderly sha256
  task : ∀ agent task, s.task agent = some task → task.Kept sha256 s.world

section Events

variable {sha256 : Bytes → Sha256Output} {s s' : State} {w : World}

theorem World.Keeps.task (h : s.world.Keeps sha256 w) {task : Task}
    (hkept : task.Kept sha256 s.world) : task.Kept sha256 w := by
  cases task with
  | copying stage ino | sealing stage ino | completing stage ino => exact h.plain ino hkept
  | discarding | reading | publishing => exact hkept

/-- The calls of a move are those of an operation. -/
theorem guarded_program {task : Task} (h : w.Orderly sha256) (hkept : task.Kept sha256 w) :
    (task.program sha256).Guarded respond (Call.Allowed sha256) w := by
  cases task with
  | copying stage ino input maximum total =>
      rw [Task.program]
      split
      · dsimp only
        split
        · exact Program.guarded_ret _
        · have hplain : w.Plain ino := hkept
          exact Program.Guarded.bind (Program.guarded_perform hplain.not_cached)
            (Program.guarded_ret _)
      · exact Program.guarded_ret _
  | sealing stage ino total =>
      exact Program.Guarded.bind (guarded_reads (reads_sealPart stage ino)) (Program.guarded_ret _)
  | completing stage ino total =>
      exact Program.Guarded.bind (guarded_completePart w stage) (Program.guarded_ret _)
  | discarding stage e =>
      exact Program.Guarded.bind (Program.guarded_perform ⟨stage, _, rfl⟩) (Program.guarded_ret _)
  | reading stage ino digest expected maximum taken => exact Program.guarded_ret _
  | publishing stage digest expected maximum bytes =>
      exact Program.Guarded.bind (guarded_publishSourceBlob serves_respond h _ _ hkept)
        (Program.guarded_ret _)

/-- An operation goes on with what it has to know. -/
theorem kept_goesOn {amount : Nat} {task next : Task} (hkept : task.Kept sha256 w)
    (hnext : (advance sha256 amount w task).1 = .goesOn next) : next.Kept sha256 w := by
  cases task with
  | copying stage ino input maximum total =>
      replace hnext : (copyPass stage ino input maximum total w).1 = next :=
        Progress.goesOn.inj hnext
      subst hnext
      rw [copyPass]
      split
      · exact hkept
      · trivial
      · exact hkept
      · dsimp only
        split
        · trivial
        · exact hkept
  | sealing stage ino total =>
      rw [advance] at hnext
      split at hnext
      · cases hnext
        exact hkept
      · cases hnext
        trivial
  | completing stage ino total =>
      rw [advance] at hnext
      split at hnext
      · cases hnext
      · cases hnext
        trivial
  | discarding stage e => cases hnext
  | reading stage ino digest expected maximum taken =>
      rw [advance, readPass] at hnext
      split at hnext
      · split at hnext
        · cases hnext
        · split at hnext
          · cases hnext
          · rename_i hcheck
            cases hnext
            exact checkDigest_eq_ok hcheck
      · cases hnext
        trivial
  | publishing stage digest expected maximum bytes => cases hnext

theorem orderly_of_keeps (h : s.Orderly sha256) (hkeeps : s.world.Keeps sha256 w) :
    State.Orderly sha256 { s with world := w } where
  world := hkeeps.orderly
  task agent task htask := hkeeps.task (h.task agent task htask)

theorem orderly_after (h : s.Orderly sha256) (hkeeps : s.world.Keeps sha256 w) (agent : Agent)
    {progress : Progress} (hnext : ∀ next, progress = .goesOn next → next.Kept sha256 w) :
    (s.after agent (progress, w)).Orderly sha256 := by
  cases progress with
  | goesOn next =>
      refine ⟨hkeeps.orderly, fun other task htask => ?_⟩
      replace htask : Function.update s.task agent (some next) other = some task := htask
      rw [Function.update_apply] at htask
      split at htask
      · cases htask
        exact hnext _ rfl
      · exact hkeeps.task (h.task other task htask)
  | returns value =>
      refine ⟨hkeeps.orderly, fun other task htask => ?_⟩
      replace htask : Function.update s.task agent none other = some task := htask
      rw [Function.update_apply] at htask
      split at htask
      · cases htask
      · exact hkeeps.task (h.task other task htask)

theorem keeps_begin (h : s.Orderly sha256) (names : List Bytes) :
    s.world.Keeps sha256 { s.world with drawn := s.world.drawn ++ names } :=
  keeps_leases h.world s.world.lease _

theorem orderly_step (h : s.Orderly sha256) {action : Step}
    (hstep : step sha256 s action = some s') : s'.Orderly sha256 := by
  cases action with
  | begin names =>
      simp only [step] at hstep
      split at hstep
      · cases hstep
        have hdrawn := keeps_begin h names
        exact orderly_of_keeps h (hdrawn.trans (keeps_program hdrawn.orderly
          ((only_beginUnverifiedSource names).guarded fun _ w hc => hc w)))
      · cases hstep
  | spool agent stage input maximum =>
      simp only [step] at hstep
      split at hstep
      · cases hstep
        have hkeeps := keeps_program h.world ((only_startPart stage).guarded fun _ w hc => hc w)
        rw [← run] at hkeeps
        rw [startSpool]
        rcases run_startPart s.world stage with ⟨e, hrun⟩ | ⟨hstage, hpart, hrun⟩
        · rw [hrun] at hkeeps ⊢
          exact orderly_after h hkeeps agent fun _ heq => (by cases heq)
        · rw [hrun] at hkeeps ⊢
          refine orderly_after h hkeeps agent ?_
          rintro _ ⟨rfl⟩
          have hdir : s.world.HasDir (partFile stage) := hstage
          refine ⟨Nat.lt_succ_self _, fun file hfile => ⟨stage, .inl ?_⟩⟩
          rw [find_newFile hdir] at hfile
          split at hfile
          · assumption
          · exact absurd (h.world.old file _ hfile) (Nat.lt_irrefl _)
      · cases hstep
  | cache agent stage expected maximum =>
      simp only [step] at hstep
      split at hstep
      · cases hstep
        have hkeeps : s.world.Keeps sha256 (startCache stage expected maximum s.world).2 := by
          rw [startCache_world]
          exact keeps_refl h.world
        refine orderly_after h hkeeps agent fun next hnext => ?_
        rcases startCache_progress stage expected maximum s.world with ⟨_, heq⟩ | ⟨_, _, heq⟩
        · cases heq.symm.trans hnext
        · cases heq.symm.trans hnext
          trivial
      · cases hstep
  | move agent amount =>
      simp only [step] at hstep
      split at hstep
      · rename_i task htask
        cases hstep
        have hkept := h.task agent task htask
        have hkeeps := keeps_program h.world (guarded_program h.world hkept)
        rw [← advance_world sha256 amount] at hkeeps
        exact orderly_after h hkeeps agent fun next hnext => hkeeps.task (kept_goesOn hkept hnext)
      · cases hstep
  | drop stage =>
      cases hstep
      exact orderly_of_keeps h (keeps_program h.world
        ((sweeps_dropStage stage).guarded fun _ w hc => hc.free w))
  | abandon stage =>
      cases hstep
      exact orderly_of_keeps h (keeps_leases h.world _ s.world.drawn)
  | recover =>
      cases hstep
      exact orderly_of_keeps h (keeps_program h.world
        (sweeps_recoverAbandoned.guarded fun _ w hc => hc.free w))

theorem orderly_dies (h : s.Orderly sha256) {action : Step} {death : Death}
    (hdies : dies sha256 s death action = some s') : s'.Orderly sha256 := by
  cases action with
  | begin names =>
      simp only [dies] at hdies
      split at hdies
      · cases hdies
        have hdrawn := keeps_begin h names
        exact orderly_of_keeps h (hdrawn.trans (keeps_leaves hdrawn.orderly death
          ((only_beginUnverifiedSource names).guarded fun _ w hc => hc w)))
      · cases hdies
  | spool agent stage input maximum =>
      simp only [dies] at hdies
      split at hdies
      · cases hdies
        exact orderly_of_keeps h (keeps_leaves h.world death
          ((only_startPart stage).guarded fun _ w hc => hc w))
      · cases hdies
  | cache agent stage expected maximum =>
      simp only [dies] at hdies
      split at hdies
      · cases hdies
        exact orderly_of_keeps h (keeps_leaves h.world death
          (guarded_reads (reads_openUnverifiedArchive stage)))
      · cases hdies
  | move agent amount =>
      simp only [dies] at hdies
      split at hdies
      · rename_i task htask
        cases hdies
        have hkeeps := keeps_leaves h.world death
          (guarded_program h.world (h.task agent task htask))
        refine ⟨hkeeps.orderly, fun other task' htask' => ?_⟩
        dsimp only at htask'
        rw [Function.update_apply] at htask'
        split at htask'
        · cases htask'
        · exact hkeeps.task (h.task other task' htask')
      · cases hdies
  | drop stage =>
      cases hdies
      exact orderly_of_keeps h (keeps_leaves h.world death
        ((sweeps_dropStage stage).guarded fun _ w hc => hc.free w))
  | abandon stage =>
      have hstep : step sha256 s (.abandon stage) = some s' := hdies
      exact orderly_step h hstep
  | recover =>
      cases hdies
      exact orderly_of_keeps h (keeps_leaves h.world death
        (sweeps_recoverAbandoned.guarded fun _ w hc => hc.free w))

/-- Every event keeps the files in order. -/
theorem orderly_happen (h : s.Orderly sha256) {event : Event}
    (hhappen : happen sha256 s event = some s') : s'.Orderly sha256 := by
  cases event with
  | step action => exact orderly_step h hhappen
  | dies action death => exact orderly_dies h hhappen
  | keepsPart agent source =>
      simp only [happen] at hhappen
      split at hhappen
      · rename_i stage digest expected maximum bytes htask
        cases hhappen
        have hkeeps := keeps_eval (serves_respondKeeping source) (fun _ _ => .inl rfl) h.world
          (guarded_publishSourceBlob (serves_respondKeeping source) h.world stage maximum
            (h.task agent _ htask))
        exact orderly_after h hkeeps agent fun _ heq => (by cases heq)
      · cases hhappen

theorem orderly_initial : State.initial.Orderly sha256 where
  world := {
    old file ino hfile := by cases file <;> cases hfile
    names file other ino hfile := by cases file <;> cases hfile
    alone file ino hfile := by cases file <;> cases hfile
    paired stage digest ino hpart := by cases hpart
    digest digest ino hcached := by cases hcached }
  task agent task htask := by cases htask

theorem orderly_events (h : s.Orderly sha256) {history : List Event}
    (hevents : events sha256 s history = some s') : s'.Orderly sha256 := by
  induction history generalizing s with
  | nil =>
      cases hevents
      exact h
  | cons event history ih =>
      obtain ⟨mid, hhappen, hrest⟩ := Option.bind_eq_some_iff.mp hevents
      exact ih (orderly_happen h hhappen) hrest

end Events

/-! ## What is read and cached after deaths -/

/-- Moves of one agent alone, with as much read in each as the operating system hands out. -/
def readMoves (agent : Agent) : Nat → (Nat → Nat) → List Step
  | 0, _ => []
  | count + 1, amounts =>
      .move agent (amounts 0) :: readMoves agent count fun i => amounts (i + 1)

/-- The caching of an agent comes to a good end if it is left alone. -/
def Caches (sha256 : Bytes → Sha256Output) (s : State) (agent : Agent) (stage expected : Bytes)
    (maximum : UInt64) (amounts : Nat → Nat) : Prop :=
  ∃ count s', history sha256 s (readMoves agent count amounts) = some s' ∧
    s'.returned = s.returned ++ [.cached stage expected maximum (.ok ())]

/-- No stage has the part of what is cached under the digest: nothing is cached there, or its
part has lost its name. -/
def World.PartGone (w : World) (digest : Bytes) : Prop :=
  ∀ stage ino, w.find (.cached digest) = some ino → w.find (cachePartFile stage) ≠ some ino

section Later

variable {sha256 : Bytes → Sha256Output} {s s' : State} {w : World} {agent : Agent}
  {stage digest expected bytes : Bytes} {maximum : UInt64} {ino : Nat} {amounts : Nat → Nat}

theorem step_move {task : Task} (htask : s.task agent = some task) (amount : Nat) :
    step sha256 s (.move agent amount) =
      some (s.after agent (advance sha256 amount s.world task)) := by
  simp only [step, htask]

/-- A move that returns nothing neither ends a caching nor keeps it from its end. -/
theorem caches_move_iff (hstep : step sha256 s (.move agent (amounts 0)) = some s')
    (hreturned : s'.returned = s.returned) :
    Caches sha256 s agent stage expected maximum amounts ↔
      Caches sha256 s' agent stage expected maximum fun i => amounts (i + 1) := by
  constructor
  · rintro ⟨count, last, hmoves, hlast⟩
    cases count with
    | zero =>
        cases Option.some.inj hmoves
        exact absurd (List.self_eq_append_right.mp hlast) (List.cons_ne_nil _ _)
    | succ count =>
        rw [readMoves, history, hstep] at hmoves
        exact ⟨count, last, hmoves, hlast.trans (by rw [hreturned])⟩
  · rintro ⟨count, last, hmoves, hlast⟩
    refine ⟨count + 1, last, ?_, hlast.trans (by rw [hreturned])⟩
    rw [readMoves, history, hstep]
    exact hmoves

/-- An agent that has returned makes no more moves. -/
theorem returned_of_moves {count : Nat} (hidle : s.task agent = none)
    (h : history sha256 s (readMoves agent count amounts) = some s') : s' = s := by
  cases count with
  | zero => exact (Option.some.inj h).symm
  | succ count =>
      simp only [readMoves, history, step, hidle] at h
      cases h

/-- A cached file that has lost its part is read. -/
theorem run_readCachedSourceBlobLocked_of_orderly (h : w.Orderly sha256)
    (hgone : w.PartGone digest)
    (hcap : maximum.toNat ≤ maxCacheArchiveBytes)
    (hfits : ∀ bytes, w.contents (.cached digest) = some bytes → bytes.length ≤ maximum.toNat) :
    run (readCachedSourceBlobLocked sha256 digest maximum) w =
      (.ok (w.contents (.cached digest)), w) := by
  cases hplace : w.find (.cached digest) with
  | none =>
      rw [World.contents, hplace]
      exact run_readCachedSourceBlobLocked_none hplace
  | some ino =>
      have hcontents : w.contents (.cached digest) = some (w.inode ino).contents := by
        rw [World.contents, hplace, Option.map_some]
      have hlinks : (w.inode ino).links = 1 := by
        refine h.alone _ ino hplace fun other hother => ?_
        rcases h.names _ other ino hplace hother with
          heq | ⟨stage, _, ⟨heq, _⟩ | ⟨_, rfl⟩⟩
        · exact heq
        · cases heq
        · exact absurd hother (hgone stage ino hplace)
      rw [hcontents]
      exact run_readCachedSourceBlobLocked_some hplace hlinks (h.digest digest ino hplace) hcap
        (hfits _ hcontents)

/-- A cached file that still has its part is refused. -/
theorem run_readCachedSourceBlobLocked_of_linked (h : w.Orderly sha256)
    (hplace : w.find (.cached digest) = some ino)
    (hpart : w.find (cachePartFile stage) = some ino) :
    run (readCachedSourceBlobLocked sha256 digest maximum) w =
      (.error (.invalidPath
        s!"lock file must not have hard links: {displayPath (FileName.cached digest).path}"),
        w) := by
  have hlinks : (w.inode ino).links ≠ 1 := by
    rw [h.paired stage digest ino hpart hplace]
    decide
  have hidentity : run (verifyOpenFileIdentity (.cached digest) ino) w =
      (.error (.invalidPath
        s!"lock file must not have hard links: {displayPath (FileName.cached digest).path}"),
        w) := by
    rw [verifyOpenFileIdentity, run_bind_ok (run_orIo_ok (eval_stat hplace))]
    dsimp only
    rw [if_pos hlinks, run_throw]
  rw [readCachedSourceBlobLocked, run_bind_ok run_nodeExists, hplace]
  show run (orIo _ _ _ >>= _) w = _
  rw [run_bind_ok (run_orIo_ok (eval_open hplace)), run_bind_error hidentity]

theorem World.partGone_of_none (h : w.contents (.cached digest) = none) : w.PartGone digest := by
  intro stage ino hplace
  rw [World.contents, hplace] at h
  cases h

/-- An entry of the cache is read exactly if it has lost its part and the maximum is not above
the cap. -/
theorem readCachedSourceBlobLocked_ok_iff (h : w.Orderly sha256)
    (hfits : ∀ bytes, w.contents (.cached digest) = some bytes → bytes.length ≤ maximum.toNat) :
    (∃ found, (run (readCachedSourceBlobLocked sha256 digest maximum) w).1 = .ok found) ↔
      w.contents (.cached digest) = none ∨
        w.PartGone digest ∧ maximum.toNat ≤ maxCacheArchiveBytes := by
  constructor
  · rintro ⟨found, hfound⟩
    have hread : run (readCachedSourceBlobLocked sha256 digest maximum) w = (.ok found, _) :=
      Prod.ext hfound rfl
    cases found with
    | none =>
        have hplace : w.find (.cached digest) = none :=
          run_readCachedSourceBlobLocked_eq_ok_none hread
        exact .inl (by rw [World.contents, hplace, Option.map_none])
    | some bytes =>
        obtain ⟨_, _, _, _, _, hcap⟩ := run_readCachedSourceBlobLocked_eq_ok_some hread
        refine .inr ⟨fun stage ino hplace hpart => ?_, hcap⟩
        rw [run_readCachedSourceBlobLocked_of_linked h hplace hpart] at hfound
        cases hfound
  · rintro (hnone | ⟨hgone, hcap⟩)
    · have hplace : w.find (.cached digest) = none := Option.map_eq_none_iff.mp hnone
      exact ⟨none, by rw [run_readCachedSourceBlobLocked_none hplace]⟩
    · exact ⟨_, by rw [run_readCachedSourceBlobLocked_of_orderly h hgone hcap hfits]⟩

theorem run_publishSourceBlob_refused {e : StoreError}
    (hread : run (readCachedSourceBlobLocked sha256 digest maximum) w = (.error e, w)) :
    ∃ refusal, (run (publishSourceBlob sha256 stage bytes digest maximum) w).1 =
      .error refusal := by
  cases hstage : (w.stage stage).isSome with
  | false =>
      obtain ⟨refusal, hrefusal⟩ :=
        run_verifyStage_none (Option.not_isSome_iff_eq_none.mp (ne_true_of_eq_false hstage))
      exact ⟨refusal, by rw [publishSourceBlob, run_bind_error hrefusal]⟩
  | true =>
      exact ⟨e, by
        rw [publishSourceBlob, run_bind_ok (run_verifyStage hstage), run_bind_error hread]⟩

/-- What has been read is published or found published, exactly if the cache can be read. -/
theorem caches_publishing_iff
    (htask : s.task agent = some (.publishing stage digest expected maximum bytes))
    (hstage : (s.world.stage stage).isSome = true)
    (hpart : s.world.find (cachePartFile stage) = none) :
    Caches sha256 s agent stage expected maximum amounts ↔
      ∃ found, (run (readCachedSourceBlobLocked sha256 digest maximum) s.world).1 =
        .ok found := by
  have hworld := run_reads (reads_readCachedSourceBlobLocked sha256 digest maximum) s.world
  constructor
  · rintro ⟨count, last, hmoves, hlast⟩
    cases count with
    | zero =>
        cases Option.some.inj hmoves
        exact absurd (List.self_eq_append_right.mp hlast) (List.cons_ne_nil _ _)
    | succ count =>
        rw [readMoves, history, step_move htask] at hmoves
        obtain rfl := returned_of_moves (Function.update_self ..) hmoves
        have hpublished : (run (publishSourceBlob sha256 stage bytes digest maximum)
            s.world).1 = .ok () :=
          (Returned.cached.inj (List.singleton_inj.mp (List.append_cancel_left hlast))).2.2.2
        cases hread : (run (readCachedSourceBlobLocked sha256 digest maximum) s.world).1 with
        | ok found => exact ⟨found, rfl⟩
        | error e =>
            obtain ⟨refusal, hrefusal⟩ := run_publishSourceBlob_refused (Prod.ext hread hworld)
            rw [hrefusal] at hpublished
            cases hpublished
  · rintro ⟨found, hfound⟩
    have hread : run (readCachedSourceBlobLocked sha256 digest maximum) s.world =
        (.ok found, s.world) := Prod.ext hfound hworld
    have hrun : (run (publishSourceBlob sha256 stage bytes digest maximum) s.world).1 =
        .ok () := by
      cases found with
      | none =>
          have hfree := run_readCachedSourceBlobLocked_eq_ok_none hread
          rw [run_publishSourceBlob_absent hstage hpart hfree]
      | some found => rw [run_publishSourceBlob_present hstage hread]
    refine ⟨1, s.after agent (advance sha256 (amounts 0) s.world
      (.publishing stage digest expected maximum bytes)), ?_, ?_⟩
    · rw [readMoves, history, step_move htask]
      rfl
    · rw [advance]
      dsimp only [State.after]
      rw [hrun]

/-- A read hands out a piece of what is left, or nothing when nothing is left. -/
theorem readPass_of_contents {taken rest : Bytes} (hino : (w.inode ino).contents = taken ++ rest)
    (hbytes : finishHex (sha256 (taken ++ rest)) = digest)
    (hlength : (taken ++ rest).length ≤ maximum.toNat) (amount : Nat) :
    rest = [] ∧ readPass sha256 stage ino digest expected maximum taken amount w =
        .goesOn (.publishing stage digest expected maximum taken) ∨
    ∃ piece behind, piece ≠ [] ∧ rest = piece ++ behind ∧
      readPass sha256 stage ino digest expected maximum taken amount w =
        .goesOn (.reading stage ino digest expected maximum (taken ++ piece)) := by
  rw [readPass, hino, List.drop_left]
  cases rest with
  | nil =>
      rw [List.append_nil] at hbytes hlength
      have hfits : checkLength taken maximum = .ok () := if_neg (Nat.not_lt.mpr hlength)
      have hcheck : checkDigest sha256 taken digest (blobFile stage).path = .ok () :=
        if_neg fun hne => hne hbytes
      rw [List.take_nil, hfits]
      dsimp only
      rw [hcheck]
      exact .inl ⟨rfl, rfl⟩
  | cons head tail =>
      obtain ⟨amount', hamount⟩ : ∃ amount', min (amount + 1) (maximum.toNat + 1 - taken.length) =
          amount' + 1 := by
        rw [List.length_append] at hlength
        exact ⟨min (amount + 1) (maximum.toNat + 1 - taken.length) - 1, by omega⟩
      rw [hamount, List.take_succ_cons]
      exact .inr ⟨head :: tail.take amount', tail.drop amount', List.cons_ne_nil _ _,
        by rw [List.cons_append, List.take_append_drop], rfl⟩

/-- A caching reads the archive of its stage to the end, however little each read hands out,
and comes to a good end exactly if the cache can be read. -/
theorem caches_reading_iff {taken rest : Bytes}
    (htask : s.task agent = some (.reading stage ino digest expected maximum taken))
    (hblob : s.world.find (blobFile stage) = some ino)
    (hino : (s.world.inode ino).contents = taken ++ rest)
    (hbytes : finishHex (sha256 (taken ++ rest)) = digest)
    (hlength : (taken ++ rest).length ≤ maximum.toNat)
    (hpart : s.world.find (cachePartFile stage) = none) :
    Caches sha256 s agent stage expected maximum amounts ↔
      ∃ found, (run (readCachedSourceBlobLocked sha256 digest maximum) s.world).1 =
        .ok found := by
  induction hleft : rest.length using Nat.strongRecOn generalizing s taken rest amounts with
  | ind left ih =>
    have hstep : step sha256 s (.move agent (amounts 0)) = some (s.after agent
        (readPass sha256 stage ino digest expected maximum taken (amounts 0) s.world, s.world)) :=
      step_move htask _
    rcases @readPass_of_contents sha256 s.world stage digest expected maximum ino taken rest hino
      hbytes hlength (amounts 0) with ⟨rfl, hpass⟩ | ⟨piece, behind, hpiece, rfl, hpass⟩
    · rw [hpass] at hstep
      exact (caches_move_iff hstep rfl).trans (caches_publishing_iff (Function.update_self ..)
        (isSome_stage_of_find hblob) hpart)
    · rw [hpass] at hstep
      rw [← List.append_assoc] at hino hbytes hlength
      refine (caches_move_iff hstep rfl).trans (ih behind.length ?_ (Function.update_self ..)
        hblob hino hbytes hlength hpart rfl)
      have hsome := List.length_pos_iff.mpr hpiece
      rw [List.length_append] at hleft
      omega

/-- A call of `cache_source_blob` reads the archive of its stage from the start, unless the
maximum is above the cap. -/
theorem startCache_of_blob (hexpected : canonicalSourceSha256 expected = .ok digest)
    (hopen : run (openUnverifiedArchive stage) w = (.ok ino, w)) :
    (maximum.toNat ≤ maxCacheArchiveBytes ∧ startCache stage expected maximum w =
        (.goesOn (.reading stage ino digest expected maximum []), w)) ∨
    (maxCacheArchiveBytes < maximum.toNat ∧ startCache stage expected maximum w =
        (.returns (.cached stage expected maximum (.error .sourceTooLarge)), w)) := by
  rw [startCache, hexpected]
  dsimp only
  rw [hopen]
  dsimp only
  rcases Nat.lt_or_ge maxCacheArchiveBytes maximum.toNat with hlarge | hcap
  · have hmaximum : checkMaximum maximum = .error .sourceTooLarge := if_pos hlarge
    rw [hmaximum]
    exact .inr ⟨hlarge, rfl⟩
  · have hmaximum : checkMaximum maximum = .ok () := if_neg (Nat.not_lt.mpr hcap)
    rw [hmaximum]
    exact .inl ⟨hcap, rfl⟩

/-- `cache_source_blob` with a stage that holds the bytes of the digest, left alone. -/
theorem cache_ok_iff (h : s.world.Orderly sha256)
    (hexpected : canonicalSourceSha256 expected = .ok digest)
    (hfits : ∀ bytes, s.world.contents (.cached digest) = some bytes →
      bytes.length ≤ maximum.toNat)
    (hidle : s.task agent = none) (hstaged : s.world.contents (blobFile stage) = some bytes)
    (hbytes : finishHex (sha256 bytes) = digest) (hlength : bytes.length ≤ maximum.toNat)
    (hpart : s.world.find (cachePartFile stage) = none) :
    (∃ count s', history sha256 s
        (.cache agent stage expected maximum :: readMoves agent count amounts) = some s' ∧
      s'.returned = s.returned ++ [.cached stage expected maximum (.ok ())]) ↔
    s.world.PartGone digest ∧ maximum.toNat ≤ maxCacheArchiveBytes := by
  obtain ⟨ino, hblob, rfl⟩ := Option.map_eq_some_iff.mp hstaged
  have honly := h.only hblob (fun digest => (cached_ne_blob digest stage).symm)
    fun stage' => (cachePart_ne_blob stage' stage).symm
  have hopen := run_openUnverifiedArchive hblob (h.alone _ ino hblob honly)
  have hstep : step sha256 s (.cache agent stage expected maximum) =
      some (s.after agent (startCache stage expected maximum s.world)) := by
    simp only [step, hidle]
  simp only [history, hstep, Option.bind_some]
  rcases startCache_of_blob hexpected hopen with ⟨hcap, hstart⟩ | ⟨hlarge, hstart⟩ <;>
    rw [hstart]
  · have hreading : Caches sha256
        (s.after agent (.goesOn (.reading stage ino digest expected maximum []), s.world)) agent
        stage expected maximum amounts ↔ _ :=
      caches_reading_iff (Function.update_self ..) hblob (List.nil_append _).symm hbytes hlength
        hpart
    refine hreading.trans ((readCachedSourceBlobLocked_ok_iff h hfits).trans ?_)
    constructor
    · rintro (hnone | hboth)
      · exact ⟨World.partGone_of_none hnone, hcap⟩
      · exact hboth
    · exact .inr
  · constructor
    · rintro ⟨count, last, hmoves, hlast⟩
      obtain rfl := returned_of_moves (Function.update_self ..) hmoves
      cases List.singleton_inj.mp (List.append_cancel_left hlast)
    · exact fun hboth => absurd hboth.2 (Nat.not_le.mpr hlarge)

/-- After every history of spools and cachings in which processes may die between any two calls
and parts may be left behind, a digest is read without an error exactly if nothing is cached
under it, or its entry is not still a second name of the part of a stage and the maximum is not
above the cap; what is read then is what is published, and has the digest.  And its bytes can
be cached from a stage without a left-over part exactly under the same condition.  The maximum
is at least the length of what is published and of what is cached. -/
theorem cache_crashSafe (sha256 : Bytes → Sha256Output) {past : List Event} {s : State}
    (hpast : events sha256 State.initial past = some s) {expected digest : Bytes}
    (hexpected : canonicalSourceSha256 expected = .ok digest) {maximum : UInt64}
    (hfits : ∀ bytes, s.world.contents (.cached digest) = some bytes →
      bytes.length ≤ maximum.toNat) :
    ((∃ found, (run (readCachedSourceBlob sha256 expected maximum) s.world).1 = .ok found ∧
        ∀ bytes, found = some bytes → finishHex (sha256 bytes) = digest) ↔
      s.world.contents (.cached digest) = none ∨
        s.world.PartGone digest ∧ maximum.toNat ≤ maxCacheArchiveBytes) ∧
    (∀ found, (run (readCachedSourceBlob sha256 expected maximum) s.world).1 = .ok found →
      found = s.world.contents (.cached digest)) ∧
    ∀ agent stage bytes, s.task agent = none → s.world.contents (blobFile stage) = some bytes →
      finishHex (sha256 bytes) = digest → bytes.length ≤ maximum.toNat →
      s.world.find (cachePartFile stage) = none → ∀ amounts,
        (∃ count s', history sha256 s
            (.cache agent stage expected maximum :: readMoves agent count amounts) = some s' ∧
          s'.returned = s.returned ++ [.cached stage expected maximum (.ok ())]) ↔
        s.world.PartGone digest ∧ maximum.toNat ≤ maxCacheArchiveBytes := by
  have h := (orderly_events orderly_initial hpast).world
  have hlocked : run (readCachedSourceBlob sha256 expected maximum) s.world =
      run (readCachedSourceBlobLocked sha256 digest maximum) s.world := by
    rw [readCachedSourceBlob, hexpected, run_bind_ok (run_given _)]
  rw [hlocked]
  have hfound : ∀ found, (run (readCachedSourceBlobLocked sha256 digest maximum) s.world).1 =
      .ok found → found = s.world.contents (.cached digest) := by
    intro found hok
    rcases (readCachedSourceBlobLocked_ok_iff h hfits).mp ⟨found, hok⟩ with
      hnone | ⟨hgone, hcap⟩
    · have hplace : s.world.find (.cached digest) = none := Option.map_eq_none_iff.mp hnone
      rw [run_readCachedSourceBlobLocked_none hplace] at hok
      rw [hnone]
      exact (Except.ok.inj hok).symm
    · rw [run_readCachedSourceBlobLocked_of_orderly h hgone hcap hfits] at hok
      exact (Except.ok.inj hok).symm
  refine ⟨?_, hfound, fun agent stage bytes hidle hstaged hbytes hlength hpart amounts =>
    cache_ok_iff h hexpected hfits hidle hstaged hbytes hlength hpart⟩
  rw [← readCachedSourceBlobLocked_ok_iff h hfits]
  refine exists_congr fun found => and_iff_left_of_imp fun hok bytes hbytes => ?_
  obtain ⟨ino, hplace, rfl⟩ := Option.map_eq_some_iff.mp ((hfound found hok).symm.trans hbytes)
  exact h.digest digest ino hplace

/-! ## A sample -/

/-- The digest of `abc`. -/
def abcName : Bytes := finishHex (Prep.Core.abcHash (ascii "abc"))

/-- A stage is begun and `abc` spooled to it. -/
def spooledBy (agent : Agent) (stage : Bytes) : List Event :=
  [.step (.begin [stage]), .step (.spool agent stage (.ofBytes (ascii "abc")) 3),
    .step (.move agent 0), .step (.move agent 0), .step (.move agent 0), .step (.move agent 0)]

/-- A caching reads it, up to where it publishes what it has read. -/
def readFrom (agent : Agent) (stage : Bytes) : List Event :=
  [.step (.cache agent stage abcName 3), .step (.move agent 2), .step (.move agent 0)]

/-- The process of the first caching dies with its part linked and not yet removed; a second
stage holds the same bytes. -/
def linkedPast : List Event :=
  spooledBy 0 (ascii "txn-1") ++ readFrom 0 (ascii "txn-1") ++
    [.dies (.move 0 0) ⟨9, 0, []⟩, .step (.abandon (ascii "txn-1"))] ++ spooledBy 1 (ascii "txn-2")

/-- And the stage of the dead process is recovered. -/
def recoveredPast : List Event := linkedPast ++ [.step .recover]

theorem recoveredPast_isSome :
    (events Prep.Core.abcHash State.initial recoveredPast).isSome = true := by
  decide +kernel

def sampleRecovered : State :=
  (events Prep.Core.abcHash State.initial recoveredPast).get recoveredPast_isSome

theorem sampleRecovered_partGone : sampleRecovered.world.PartGone abcName := by
  intro stage ino hplace hpart
  have halone : sampleRecovered.world.find (.cached abcName) = some 1 ∧
      (sampleRecovered.world.inode 1).links = 1 := by
    decide +kernel
  obtain rfl := Option.some.inj (halone.1.symm.trans hplace)
  have hpaired := (orderly_events orderly_initial
    (Option.some_get recoveredPast_isSome).symm).world.paired stage abcName 1 hpart hplace
  exact absurd (halone.2.symm.trans hpaired) (by decide)

/-- What the dead process has published is read once its stage is recovered, and its bytes are
cached from the second stage. -/
theorem cache_crashSafe_sample :
    (run (readCachedSourceBlob Prep.Core.abcHash abcName 3) sampleRecovered.world).1 =
      .ok (some (ascii "abc")) ∧
    ∀ amounts, ∃ count s', history Prep.Core.abcHash sampleRecovered
        (.cache 1 (ascii "txn-2") abcName 3 :: readMoves 1 count amounts) = some s' ∧
      s'.returned = sampleRecovered.returned ++ [.cached (ascii "txn-2") abcName 3 (.ok ())] := by
  have hpublished : sampleRecovered.world.contents (.cached abcName) = some (ascii "abc") := by
    decide +kernel
  have hfits : ∀ bytes, sampleRecovered.world.contents (.cached abcName) = some bytes →
      bytes.length ≤ (3 : UInt64).toNat := by
    intro bytes hbytes
    obtain rfl := Option.some.inj (hpublished.symm.trans hbytes)
    decide
  have hcap : (3 : UInt64).toNat ≤ maxCacheArchiveBytes := by decide
  obtain ⟨hread, hfound, hcache⟩ := cache_crashSafe Prep.Core.abcHash
    (Option.some_get recoveredPast_isSome).symm
    (show canonicalSourceSha256 abcName = .ok abcName by decide +kernel)
    hfits
  obtain ⟨found, hok, _⟩ := hread.mpr (.inr ⟨sampleRecovered_partGone, hcap⟩)
  refine ⟨hok.trans (by rw [hfound found hok, ← hpublished]; rfl), fun amounts => ?_⟩
  exact (hcache 1 (ascii "txn-2") (ascii "abc") (Option.isNone_iff_eq_none.mp (by decide +kernel))
    (by decide +kernel) rfl (by decide) (Option.isNone_iff_eq_none.mp (by decide +kernel))
    amounts).mpr ⟨sampleRecovered_partGone, hcap⟩

theorem linkedPast_isSome :
    (events Prep.Core.abcHash State.initial linkedPast).isSome = true := by
  decide +kernel

def sampleLinked : State :=
  (events Prep.Core.abcHash State.initial linkedPast).get linkedPast_isSome

/-- What the dead process has published is not read before its stage is recovered, and its bytes
are not cached from the second stage. -/
theorem published_not_read :
    events Prep.Core.abcHash State.initial linkedPast = some sampleLinked ∧
    sampleLinked.world.contents (.cached abcName) = some (ascii "abc") ∧
    (∀ found, (run (readCachedSourceBlob Prep.Core.abcHash abcName 3) sampleLinked.world).1 ≠
      .ok found) ∧
    sampleLinked.task 1 = none ∧
    sampleLinked.world.contents (blobFile (ascii "txn-2")) = some (ascii "abc") ∧
    ∀ amounts count s', history Prep.Core.abcHash sampleLinked
        (.cache 1 (ascii "txn-2") abcName 3 :: readMoves 1 count amounts) = some s' →
      s'.returned ≠ sampleLinked.returned ++ [.cached (ascii "txn-2") abcName 3 (.ok ())] := by
  have hpast : events Prep.Core.abcHash State.initial linkedPast = some sampleLinked :=
    (Option.some_get linkedPast_isSome).symm
  have hpublished : sampleLinked.world.contents (.cached abcName) = some (ascii "abc") := by
    decide +kernel
  have hidle : sampleLinked.task 1 = none := Option.isNone_iff_eq_none.mp (by decide +kernel)
  have hstaged : sampleLinked.world.contents (blobFile (ascii "txn-2")) = some (ascii "abc") := by
    decide +kernel
  have hplace : sampleLinked.world.find (.cached abcName) = some 1 := by decide +kernel
  have hpart : sampleLinked.world.find (cachePartFile (ascii "txn-1")) = some 1 := by
    decide +kernel
  refine ⟨hpast, hpublished, fun found hfound => ?_, hidle, hstaged,
    fun amounts count s' hmoves hreturned => ?_⟩
  · have hrefused : (run (readCachedSourceBlob Prep.Core.abcHash abcName 3)
        sampleLinked.world).1.toOption = none := by
      decide +kernel
    rw [hfound] at hrefused
    cases hrefused
  · obtain ⟨hgone, _⟩ := (cache_ok_iff (orderly_events orderly_initial hpast).world
      (show canonicalSourceSha256 abcName = .ok abcName by decide +kernel)
      (fun bytes hbytes => by
        obtain rfl := Option.some.inj (hpublished.symm.trans hbytes)
        decide)
      hidle hstaged rfl (by decide) (Option.isNone_iff_eq_none.mp (by decide +kernel))).mp
      ⟨count, s', hmoves, hreturned⟩
    exact hgone _ _ hplace hpart

end Later

end Prep.Store.Source
