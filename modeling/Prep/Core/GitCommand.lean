/-
  Core/GitCommand.lean --- the commands of `prep-core/src/git_command.rs`.

  Whatever a lock or a manifest says, Git is started without the configuration of the user
  and the system, and what it is given from outside stands where Git takes no options.

  A command is what the system is handed: a program, its arguments, its environment and its
  channels.  What Git makes of them is left out.
-/
import Prep.Core.GitRef

set_option autoImplicit false

namespace Prep.Core

open Prep.Manifest
open Prep.Text

/-! ## Commands -/

/-- `Stdio`, as Git's processes use it. -/
inductive GitStdio where
  | inherit
  | null
  | piped
  deriving DecidableEq

/-- `Command`, as it is configured for Git. -/
structure GitCommand where
  program : Bytes
  envClear : Bool
  env : List (Bytes × Bytes)
  args : List Bytes
  processGroup : Option Nat
  stdin : GitStdio
  stdout : GitStdio
  stderr : GitStdio
  deriving DecidableEq

namespace GitCommand

/-- `Command::new`. -/
def new (program : Bytes) : GitCommand where
  program := program
  envClear := false
  env := []
  args := []
  processGroup := none
  stdin := .inherit
  stdout := .inherit
  stderr := .inherit

/-- `env_clear`. -/
def clearEnv (command : GitCommand) : GitCommand := { command with envClear := true, env := [] }

/-- `envs`. -/
def envs (command : GitCommand) (vars : List (Bytes × Bytes)) : GitCommand :=
  { command with env := command.env ++ vars }

/-- `args`. -/
def arg (command : GitCommand) (args : List Bytes) : GitCommand :=
  { command with args := command.args ++ args }

end GitCommand

/-- The environment of `isolated_git_command`. -/
def isolatedGitEnv : List (Bytes × Bytes) :=
  [(ascii "GIT_CONFIG_NOSYSTEM", ascii "1"),
    (ascii "GIT_CONFIG_GLOBAL", ascii "/dev/null"),
    (ascii "GIT_CONFIG_SYSTEM", ascii "/dev/null"),
    (ascii "GIT_TERMINAL_PROMPT", ascii "0"),
    (ascii "GIT_OPTIONAL_LOCKS", ascii "0"),
    (ascii "GIT_NO_REPLACE_OBJECTS", ascii "1"),
    (ascii "GIT_LFS_SKIP_SMUDGE", ascii "1"),
    (ascii "GIT_ALLOW_PROTOCOL", ascii "https"),
    (ascii "GIT_PROTOCOL_FROM_USER", ascii "0")]

/-- The settings of `isolated_git_command`. -/
def isolatedGitSettings : List Bytes :=
  [ascii "core.hooksPath=/dev/null", ascii "credential.helper=", ascii "http.followRedirects=false",
    ascii "filter.lfs.required=false", ascii "filter.lfs.smudge=", ascii "filter.lfs.process=",
    ascii "protocol.file.allow=never", ascii "submodule.recurse=false", ascii "core.symlinks=false"]

/-- The arguments of `isolated_git_command`: every setting after a `-c`. -/
def isolatedGitArgs : List Bytes := isolatedGitSettings.flatMap fun value => [ascii "-c", value]

/-- `isolated_git_command`. -/
def isolatedGitCommand (executable : Bytes) : GitCommand :=
  (((GitCommand.new executable).clearEnv).envs isolatedGitEnv).arg isolatedGitArgs

/-- `prepare_locked_tree_inspection`. -/
def prepareLockedTreeInspection (executable repository revision : Bytes) :
    Except GitRefError GitCommand :=
  if ¬ (revision.length = 40 ∨ revision.length = 64) ∨ revision.all isAsciiHexdigit = false then
    .error (.invalidInput "invalid pinned commit")
  else
    .ok ((isolatedGitCommand executable).arg
      [ascii "-C", repository, ascii "ls-tree", ascii "-r", ascii "-z", ascii "--full-tree",
        revision])

/-- `prepare_exact_git_ref_resolution`. -/
def prepareExactGitRefResolution (executable httpsRemote fullRef : Bytes) :
    Except GitRefError GitCommand :=
  if (ascii "https://").isPrefixOf httpsRemote = false ∨ httpsRemote.length > 2048 ∨
      httpsRemote.any (fun byte => byte ≤ 32 || byte == 127) ∨ 64 ∈ httpsRemote ∨
      validFullGitRef fullRef = false then
    .error (.invalidInput "untrusted Git remote or mutable/ambiguous ref")
  else .ok ((isolatedGitCommand executable).arg [ascii "ls-remote", httpsRemote, fullRef])

/-- `prepare_locked_commit_kind_inspection`. -/
def prepareLockedCommitKindInspection (executable repository : Bytes) (objectId : GitCommit) :
    GitCommand :=
  (isolatedGitCommand executable).arg
    [ascii "-C", repository, ascii "cat-file", ascii "-t", objectId.asStr]

/-! ## What the commands are given -/

/-- A command with the isolated environment and settings, a subcommand with options of its
own, and operands. -/
structure Isolated (command : GitCommand) (executable : Bytes) (directory : List Bytes)
    (subcommand : List Bytes) (operands : List Bytes) : Prop where
  program : command.program = executable
  envClear : command.envClear = true
  env : command.env = isolatedGitEnv
  args : command.args = isolatedGitArgs ++ directory ++ subcommand ++ operands
  operands : ∀ operand ∈ operands, operand ≠ [] ∧ operand.head? ≠ some 45 ∧ (0 : UInt8) ∉ operand

/-- A text that no program takes for an option, and that ends where it seems to. -/
theorem operand_of_all {operand : Bytes} {ok : UInt8 → Bool} (hne : operand ≠ [])
    (hall : operand.all ok = true) (hdash : operand.head? ≠ some 45) (hzero : ok 0 = false) :
    operand ≠ [] ∧ operand.head? ≠ some 45 ∧ (0 : UInt8) ∉ operand := by
  refine ⟨hne, hdash, fun hmem => ?_⟩
  rw [List.all_eq_true] at hall
  exact Bool.false_ne_true (hzero.symm.trans (hall 0 hmem))

theorem head?_of_prefix {tag text : Bytes} (h : tag <+: text) (hne : tag ≠ []) :
    text.head? = tag.head? := by
  obtain ⟨rest, rfl⟩ := h
  rw [List.head?_append_of_ne_nil _ hne]

theorem mem_intercalate {byte separator : UInt8} {pieces : List Bytes}
    (h : byte ∈ [separator].intercalate pieces) :
    byte = separator ∨ ∃ piece ∈ pieces, byte ∈ piece := by
  induction pieces with
  | nil => cases h
  | cons first rest ih =>
      cases rest with
      | nil => exact .inr ⟨first, List.mem_singleton_self _, by simpa using h⟩
      | cons second rest =>
          rw [List.intercalate_cons_cons, List.mem_append, List.mem_append,
            List.mem_singleton] at h
          rcases h with (hfirst | hsep) | hrest
          · exact .inr ⟨first, List.mem_cons_self, hfirst⟩
          · exact .inl hsep
          · exact (ih hrest).imp_right fun ⟨piece, hpiece, hbyte⟩ =>
              ⟨piece, List.mem_cons_of_mem _ hpiece, hbyte⟩

/-- A full reference is made of letters, digits, dashes, underlines, dots and slashes. -/
theorem validFullGitRef_bytes {fullRef : Bytes} (h : validFullGitRef fullRef = true) {byte : UInt8}
    (hmem : byte ∈ fullRef) : isAsciiAlphanumeric byte = true ∨ byte = 45 ∨ byte = 95 ∨
      byte = 46 ∨ byte = 47 := by
  obtain ⟨tag, short, htag, rfl, hvalid⟩ : ∃ tag short,
      tag.all (fun b => isAsciiAlphanumeric b || b == 47) = true ∧ fullRef = tag ++ short ∧
        (short.splitOn 47).all validRefComponent = true := by
    unfold validFullGitRef at h
    have hshort : ∀ short, (if short.isEmpty || decide (fullRef.length > 256) ||
        decide (ascii ".." <:+: short) || (ascii ".lock").isSuffixOf short then false
        else (short.splitOn 47).all validRefComponent) = true →
        (short.splitOn 47).all validRefComponent = true := by
      intro short hif
      split at hif
      · cases hif
      · exact hif
    cases hheads : stripPrefix (ascii "refs/heads/") fullRef with
    | some short =>
        rw [hheads] at h
        exact ⟨_, short, rfl, stripPrefix_eq_some.mp hheads, hshort short h⟩
    | none =>
        cases htags : stripPrefix (ascii "refs/tags/") fullRef with
        | some short =>
            rw [hheads, htags] at h
            exact ⟨_, short, rfl, stripPrefix_eq_some.mp htags, hshort short h⟩
        | none =>
            rw [hheads, htags] at h
            cases h
  rcases List.mem_append.mp hmem with hmem | hmem
  · have hbyte := List.all_eq_true.mp htag byte hmem
    rw [Bool.or_eq_true, beq_iff_eq] at hbyte
    exact hbyte.imp_right fun h => .inr (.inr (.inr h))
  · rw [← @List.intercalate_splitOn _ short _ _ 47] at hmem
    rcases mem_intercalate hmem with rfl | ⟨piece, hpiece, hbyte⟩
    · exact .inr (.inr (.inr (.inr rfl)))
    · have hcomponent := List.all_eq_true.mp hvalid piece hpiece
      unfold validRefComponent at hcomponent
      rw [Bool.and_eq_true, List.all_eq_true] at hcomponent
      have hok := hcomponent.2 byte hbyte
      simp only [Bool.or_eq_true, beq_iff_eq] at hok
      rcases hok with ((halnum | rfl) | rfl) | rfl
      · exact .inl halnum
      · exact .inr (.inl rfl)
      · exact .inr (.inr (.inl rfl))
      · exact .inr (.inr (.inr (.inl rfl)))

/-- Both kinds of full references begin alike. -/
theorem validFullGitRef_head {fullRef : Bytes} (h : validFullGitRef fullRef = true) :
    ascii "refs/" <+: fullRef := by
  unfold validFullGitRef at h
  cases hheads : stripPrefix (ascii "refs/heads/") fullRef with
  | some short =>
      rw [stripPrefix_eq_some.mp hheads]
      exact ⟨ascii "heads/" ++ short, rfl⟩
  | none =>
      cases htags : stripPrefix (ascii "refs/tags/") fullRef with
      | some short =>
          rw [stripPrefix_eq_some.mp htags]
          exact ⟨ascii "tags/" ++ short, rfl⟩
      | none =>
          rw [hheads, htags] at h
          cases h

theorem operand_of_hexdigits {text : Bytes} (hlength : text.length = 40 ∨ text.length = 64)
    (hall : text.all isAsciiHexdigit = true) :
    text ≠ [] ∧ text.head? ≠ some 45 ∧ (0 : UInt8) ∉ text := by
  refine operand_of_all ?_ hall (fun hdash => ?_) rfl
  · rintro rfl
    rcases hlength with h | h <;> cases h
  · have hmem := List.mem_of_mem_head? hdash
    have hdigit := List.all_eq_true.mp hall 45 hmem
    exact absurd hdigit (by decide)

theorem operand_of_commit (commit : GitCommit) :
    commit.asStr ≠ [] ∧ commit.asStr.head? ≠ some 45 ∧ (0 : UInt8) ∉ commit.asStr :=
  operand_of_hexdigits commit.length ((all_isLowerHexdigit_iff _).mp commit.hexdigits).1

theorem operand_of_ref {fullRef : Bytes} (h : validFullGitRef fullRef = true) :
    fullRef ≠ [] ∧ fullRef.head? ≠ some 45 ∧ (0 : UInt8) ∉ fullRef := by
  have hhead := head?_of_prefix (validFullGitRef_head h) (by decide)
  refine ⟨?_, fun hdash => ?_, fun hzero => ?_⟩
  · rintro rfl
    cases hhead
  · rw [hdash] at hhead
    cases hhead
  · rcases validFullGitRef_bytes h hzero with hbyte | hbyte | hbyte | hbyte | hbyte <;> cases hbyte

/-- Whatever is asked for, Git is started isolated, and what is asked for are its operands. -/
theorem isolated_exactGitRefResolution {executable httpsRemote fullRef : Bytes}
    {command : GitCommand}
    (h : prepareExactGitRefResolution executable httpsRemote fullRef = .ok command) :
    Isolated command executable [] [ascii "ls-remote"] [httpsRemote, fullRef] := by
  unfold prepareExactGitRefResolution at h
  split at h
  · cases h
  rename_i hok
  cases h
  simp only [not_or, Bool.not_eq_false] at hok
  obtain ⟨hhttps, _, hbytes, _, href⟩ := hok
  have hhead := head?_of_prefix (List.isPrefixOf_iff_prefix.mp hhttps) (by decide)
  refine ⟨rfl, rfl, rfl, ?_, List.forall_mem_cons.mpr ⟨⟨?_, ?_, fun hzero => ?_⟩,
    List.forall_mem_singleton.mpr (operand_of_ref href)⟩⟩
  · rw [List.append_nil]
    rfl
  · rintro rfl
    cases hhead
  · intro hdash
    rw [hdash] at hhead
    cases hhead
  · exact hbytes (List.any_eq_true.mpr ⟨0, hzero, rfl⟩)

theorem isolated_lockedTreeInspection {executable repository revision : Bytes}
    {command : GitCommand}
    (h : prepareLockedTreeInspection executable repository revision = .ok command) :
    Isolated command executable [ascii "-C", repository]
      [ascii "ls-tree", ascii "-r", ascii "-z", ascii "--full-tree"] [revision] := by
  unfold prepareLockedTreeInspection at h
  split at h
  · cases h
  rename_i hok
  cases h
  rw [not_or, not_not, Bool.not_eq_false] at hok
  exact ⟨rfl, rfl, rfl, rfl,
    List.forall_mem_singleton.mpr (operand_of_hexdigits hok.1 hok.2)⟩

theorem isolated_lockedCommitKindInspection (executable repository : Bytes) (objectId : GitCommit) :
    Isolated (prepareLockedCommitKindInspection executable repository objectId) executable
      [ascii "-C", repository] [ascii "cat-file", ascii "-t"] [objectId.asStr] :=
  ⟨rfl, rfl, rfl, rfl, List.forall_mem_singleton.mpr (operand_of_commit objectId)⟩

end Prep.Core
