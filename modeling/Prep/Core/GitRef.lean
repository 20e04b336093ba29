/-
  Core/GitRef.lean --- `parse_exact_git_ref` of `prep-core/src/git_command.rs` and the
  answers it takes.

  An answer is any string of bytes, as any process may have written it; that Git has is not
  assumed.  Errors are told apart by their kind and their text.
-/
import Prep.Data.Except
import Prep.Data.Split
import Prep.Manifest.Types
import Prep.Text.Lines

set_option autoImplicit false

namespace Prep.Core

open Prep.Data
open Prep.Manifest
open Prep.Text

/-! ## The parser -/

/-- The `std::io::Error`s of the parser: the kind, and the text of those that have one. -/
inductive GitRefError where
  | invalidInput (message : String)
  | invalidData (message : Option String)
  | notFound
  deriving DecidableEq, Repr

/-- A component of a branch or tag name. -/
def validRefComponent (component : Bytes) : Bool :=
  !component.isEmpty && component.head? != some 46 && component.getLast? != some 46 &&
    component.all fun b => isAsciiAlphanumeric b || b == 45 || b == 95 || b == 46

/-- `valid_full_git_ref`. -/
def validFullGitRef (reference : Bytes) : Bool :=
  match (stripPrefix (ascii "refs/heads/") reference).or
      (stripPrefix (ascii "refs/tags/") reference) with
  | none => false
  | some short =>
      if short.isEmpty || decide (reference.length > 256) || decide (ascii ".." <:+: short) ||
          (ascii ".lock").isSuffixOf short then
        false
      else (short.splitOn 47).all validRefComponent

/-- The name a tag's commit is listed under. -/
def peeledRef (requestedRef : Bytes) : Bytes := requestedRef ++ ascii "^\x7b\x7d"

/-- The variables `direct` and `peeled`. -/
structure FoundRefs where
  direct : Option GitCommit
  peeled : Option GitCommit

/-- One pass of the loop of `parse_exact_git_ref`. -/
def readRefLine (requestedRef : Bytes) (found : FoundRefs) (line : Bytes) :
    Except GitRefError FoundRefs :=
  match splitOnce [9] line with
  | none => .error (.invalidData none)
  | some (object, reference) =>
      match GitCommit.parse object with
      | .error _ => .error (.invalidData none)
      | .ok commit =>
          if reference = requestedRef then
            if found.direct.isSome then .error (.invalidData none)
            else .ok { found with direct := some commit }
          else if (ascii "refs/tags/").isPrefixOf requestedRef ∧
              reference = peeledRef requestedRef then
            if found.peeled.isSome then .error (.invalidData none)
            else .ok { found with peeled := some commit }
          else .error (.invalidData none)

/-- `parse_exact_git_ref`. -/
def parseExactGitRef (output requestedRef : Bytes) : Except GitRefError GitCommit :=
  if validFullGitRef requestedRef = false then
    .error (.invalidInput "Git reference must be an exact branch or tag")
  else if output.isEmpty ∨ output.length > 4096 then
    .error (.invalidData (some "unexpected Git reference response size"))
  else if Utf8.valid output = false then .error (.invalidData none)
  else do
    let found ← (lines output).foldlM (readRefLine requestedRef) ⟨none, none⟩
    if (ascii "refs/heads/").isPrefixOf requestedRef ∧ found.peeled.isSome then
      .error (.invalidData none)
    else
      match found.direct with
      | none => .error .notFound
      | some direct => .ok (found.peeled.getD direct)

/-! ## The answers -/

/-- An object identifier, in either case. -/
def IsObjectId (object : Bytes) : Prop :=
  (object.length = 40 ∨ object.length = 64) ∧ object.all isAsciiHexdigit = true

/-- A record of an answer. -/
def refRecord (object reference : Bytes) : Bytes := object ++ 9 :: reference

/-- The lines of an answer: the record of the reference itself and, if there is one, that of
the peeled tag. -/
def answerLines (requestedRef : Bytes) (direct peeled : Option Bytes) : List Bytes :=
  (direct.map (refRecord · requestedRef)).toList ++
    (peeled.map (refRecord · (peeledRef requestedRef))).toList

theorem GitCommit.parse_eq_ok_iff {object : Bytes} {commit : GitCommit} :
    GitCommit.parse object = .ok commit ↔
      IsObjectId object ∧ commit.asStr = toAsciiLowercase object := by
  have hid : IsObjectId object ↔ ((toAsciiLowercase object).length = 40 ∨
      (toAsciiLowercase object).length = 64) ∧
      (toAsciiLowercase object).all isAsciiHexdigit = true := by
    rw [length_toAsciiLowercase, all_isAsciiHexdigit_toAsciiLowercase]
    rfl
  rw [hid]
  unfold GitCommit.parse
  dsimp only
  split
  · rename_i h
    rw [Except.ok.injEq, and_iff_right h]
    constructor
    · rintro rfl
      rfl
    · intro hcommit
      cases commit
      cases hcommit
      rfl
  · rename_i h
    exact ⟨fun hok => (by cases hok), fun hok => absurd hok.1 h⟩

theorem IsObjectId.exists_commit {object : Bytes} (h : IsObjectId object) :
    ∃ commit : GitCommit, commit.asStr = toAsciiLowercase object := by
  refine ⟨⟨toAsciiLowercase object, ?_, ?_⟩, rfl⟩
  · rw [length_toAsciiLowercase]
    exact h.1
  · refine (all_isLowerHexdigit_iff _).mpr ⟨?_, toAsciiLowercase_toAsciiLowercase object⟩
    rw [all_isAsciiHexdigit_toAsciiLowercase]
    exact h.2

theorem GitCommit.eq_of_asStr {left right : GitCommit} (h : left.asStr = right.asStr) :
    left = right := by
  cases left
  cases right
  cases h
  rfl

theorem splitOnce_tab {line object reference : Bytes} :
    splitOnce [9] line = some (object, reference) ↔
      line = refRecord object reference ∧ 9 ∉ object := by
  induction line generalizing object with
  | nil =>
      constructor
      · intro h
        cases h
      · rintro ⟨h, _⟩
        exact absurd h.symm (List.append_ne_nil_of_right_ne_nil _ (List.cons_ne_nil _ _))
  | cons b line ih =>
      have hstrip : stripPrefix [9] (b :: line) = if b = 9 then some line else none := by
        split
        · rename_i h
          rw [h]
          exact stripPrefix_append [9] line
        · rename_i h
          rw [stripPrefix_eq_none]
          exact fun rest heq => h (List.cons.inj heq).1
      rw [splitOnce, hstrip]
      by_cases hb : b = 9
      · rw [if_pos hb, hb]
        constructor
        · intro h
          obtain ⟨rfl, rfl⟩ := Prod.mk.inj (Option.some.inj h)
          exact ⟨rfl, List.not_mem_nil⟩
        · rintro ⟨h, hfree⟩
          obtain ⟨rfl, rfl⟩ := cut_unique (show [] ++ 9 :: line = object ++ 9 :: reference from h)
            List.not_mem_nil hfree
          rfl
      · rw [if_neg hb]
        show (splitOnce [9] line).map _ = _ ↔ _
        rw [Option.map_eq_some_iff]
        constructor
        · rintro ⟨⟨front, back⟩, hcut, h⟩
          obtain ⟨rfl, rfl⟩ := Prod.mk.inj h
          obtain ⟨rfl, hfree⟩ := ih.mp hcut
          refine ⟨rfl, ?_⟩
          rw [List.mem_cons, not_or]
          exact ⟨Ne.symm hb, hfree⟩
        · rintro ⟨h, hfree⟩
          cases object with
          | nil => exact absurd (List.cons.inj h).1 hb
          | cons c object =>
              obtain ⟨rfl, hline⟩ := List.cons.inj h
              rw [List.mem_cons, not_or] at hfree
              exact ⟨(object, reference), ih.mpr ⟨hline, hfree.2⟩, rfl⟩

theorem IsObjectId.free {object : Bytes} (h : IsObjectId object) : 9 ∉ object := by
  have hhex : isAsciiHexdigit 9 = false := by decide
  intro hmem
  rw [List.all_eq_true.mp h.2 9 hmem] at hhex
  cases hhex

theorem peeledRef_ne (requestedRef : Bytes) : peeledRef requestedRef ≠ requestedRef := by
  intro h
  have hlength := congrArg List.length h
  have hmark : (ascii "^\x7b\x7d").length = 3 := by decide
  rw [peeledRef, List.length_append, hmark] at hlength
  omega

/-- A pass takes a record of the reference, or one of the peeled tag, where there was none. -/
theorem readRefLine_eq_ok_iff {requestedRef line : Bytes} {found found' : FoundRefs} :
    readRefLine requestedRef found line = .ok found' ↔
      ∃ object commit, IsObjectId object ∧ commit.asStr = toAsciiLowercase object ∧
        ((line = refRecord object requestedRef ∧ found.direct = none ∧
          found' = ⟨some commit, found.peeled⟩) ∨
        (line = refRecord object (peeledRef requestedRef) ∧
          (ascii "refs/tags/").isPrefixOf requestedRef = true ∧ found.peeled = none ∧
          found' = ⟨found.direct, some commit⟩)) := by
  unfold readRefLine
  constructor
  · intro h
    split at h
    · cases h
    · rename_i object reference hcut
      obtain ⟨rfl, _⟩ := splitOnce_tab.mp hcut
      split at h
      · cases h
      · rename_i commit hcommit
        obtain ⟨hobject, hlower⟩ := GitCommit.parse_eq_ok_iff.mp hcommit
        refine ⟨object, commit, hobject, hlower, ?_⟩
        split at h
        · rename_i hreference
          split at h
          · cases h
          · rename_i hdirect
            cases h
            rw [Bool.not_eq_true, Option.isSome_eq_false_iff, Option.isNone_iff_eq_none] at hdirect
            exact .inl ⟨by rw [hreference], hdirect, rfl⟩
        · split at h
          · rename_i hpeeledRef
            split at h
            · cases h
            · rename_i hpeeled
              cases h
              rw [Bool.not_eq_true, Option.isSome_eq_false_iff,
                Option.isNone_iff_eq_none] at hpeeled
              exact .inr ⟨by rw [hpeeledRef.2], hpeeledRef.1, hpeeled, rfl⟩
          · cases h
  · rintro ⟨object, commit, hobject, hlower, hline⟩
    have hcommit := GitCommit.parse_eq_ok_iff.mpr ⟨hobject, hlower⟩
    rcases hline with ⟨rfl, hdirect, rfl⟩ | ⟨rfl, htag, hpeeled, rfl⟩
    · rw [splitOnce_tab.mpr ⟨rfl, hobject.free⟩]
      show (match GitCommit.parse object with | .error _ => _ | .ok commit => _) = _
      rw [hcommit]
      show (if _ then (if _ then _ else _) else _) = _
      rw [if_pos rfl, hdirect, if_neg (by decide)]
    · rw [splitOnce_tab.mpr ⟨rfl, hobject.free⟩]
      show (match GitCommit.parse object with | .error _ => _ | .ok commit => _) = _
      rw [hcommit]
      show (if _ then _ else if _ then (if _ then _ else _) else _) = _
      rw [if_neg (peeledRef_ne requestedRef), if_pos ⟨htag, rfl⟩, hpeeled, if_neg (by decide)]

/-- A slot of the loop before and behind lines that fill it at most once. -/
def Fills (before : Option GitCommit) (object : Option Bytes) (behind : Option GitCommit) : Prop :=
  match object with
  | none => behind = before
  | some object => before = none ∧ IsObjectId object ∧
      ∃ commit, behind = some commit ∧ commit.asStr = toAsciiLowercase object

/-- The loop takes the lines of an answer, in any order, and no other line. -/
theorem foldlM_readRefLine_eq_ok_iff {requestedRef : Bytes} {lines : List Bytes} :
    ∀ {found found' : FoundRefs},
      lines.foldlM (readRefLine requestedRef) found = .ok found' ↔
        ∃ direct peeled, lines.Perm (answerLines requestedRef direct peeled) ∧
          Fills found.direct direct found'.direct ∧ Fills found.peeled peeled found'.peeled ∧
          (peeled ≠ none → (ascii "refs/tags/").isPrefixOf requestedRef = true) := by
  induction lines with
  | nil =>
      intro found found'
      constructor
      · intro h
        cases h
        exact ⟨none, none, .nil, rfl, rfl, fun h => absurd rfl h⟩
      · rintro ⟨direct, peeled, hlines, hdirect, hpeeled, _⟩
        obtain ⟨hnone, hnone'⟩ := List.append_eq_nil_iff.mp hlines.nil_eq.symm
        cases direct with
        | some object => cases hnone
        | none =>
            cases peeled with
            | some object => cases hnone'
            | none =>
                cases found
                cases found'
                cases hdirect
                cases hpeeled
                rfl
  | cons line lines ih =>
      intro found found'
      rw [List.foldlM_cons]
      constructor
      · intro h
        obtain ⟨next, hnext, h⟩ := bind_eq_ok_iff.mp h
        obtain ⟨direct, peeled, hlines, hdirect, hpeeled, htag⟩ := ih.mp h
        obtain ⟨object, commit, hobject, hlower, hline⟩ := readRefLine_eq_ok_iff.mp hnext
        rcases hline with ⟨rfl, hnone, rfl⟩ | ⟨rfl, htag', hnone, rfl⟩
        · cases direct with
          | some other => cases hdirect.1
          | none =>
              refine ⟨some object, peeled, hlines.cons _, ⟨hnone, hobject, commit, hdirect, hlower⟩,
                hpeeled, htag⟩
        · cases peeled with
          | some other => cases hpeeled.1
          | none =>
              refine ⟨direct, some object, ?_, hdirect, ⟨hnone, hobject, commit, hpeeled, hlower⟩,
                fun _ => htag'⟩
              refine (hlines.cons _).trans ?_
              rw [answerLines, answerLines]
              exact List.perm_middle.symm
      · rintro ⟨direct, peeled, hlines, hdirect, hpeeled, htag⟩
        have hline : line ∈ answerLines requestedRef direct peeled :=
          hlines.mem_iff.mp List.mem_cons_self
        rcases List.mem_append.mp hline with hmem | hmem
        · obtain ⟨object, rfl, rfl⟩ := Option.map_eq_some_iff.mp (Option.mem_toList.mp hmem)
          obtain ⟨hnone, hobject, commit, hsome, hlower⟩ := hdirect
          refine bind_eq_ok_iff.mpr ⟨⟨some commit, found.peeled⟩, readRefLine_eq_ok_iff.mpr
            ⟨object, commit, hobject, hlower, .inl ⟨rfl, hnone, rfl⟩⟩, ?_⟩
          exact ih.mpr ⟨none, peeled, hlines.cons_inv, hsome, hpeeled, htag⟩
        · obtain ⟨object, rfl, rfl⟩ := Option.map_eq_some_iff.mp (Option.mem_toList.mp hmem)
          obtain ⟨hnone, hobject, commit, hsome, hlower⟩ := hpeeled
          refine bind_eq_ok_iff.mpr ⟨⟨found.direct, some commit⟩, readRefLine_eq_ok_iff.mpr
            ⟨object, commit, hobject, hlower, .inr ⟨rfl, htag (Option.some_ne_none _), hnone, rfl⟩⟩, ?_⟩
          refine ih.mpr ⟨direct, none, ?_, hdirect, hsome, fun h => absurd rfl h⟩
          exact (hlines.trans List.perm_middle).cons_inv

/-- A reference is no branch and tag at once. -/
theorem not_branch_of_tag {requestedRef : Bytes}
    (h : (ascii "refs/tags/").isPrefixOf requestedRef = true) :
    ¬ (ascii "refs/heads/").isPrefixOf requestedRef = true := by
  intro hbranch
  have hleads := List.prefix_of_prefix_length_le (List.isPrefixOf_iff_prefix.mp h)
    (List.isPrefixOf_iff_prefix.mp hbranch) (by decide)
  exact absurd hleads (by decide)

/-- The parser takes exactly the answers that consist of the record of the requested reference
and, for a tag, at most one record of the peeled tag, and it returns the peeled object if there
is one. -/
theorem parseExactGitRef_exact (output requestedRef : Bytes) (commit : GitCommit) :
    parseExactGitRef output requestedRef = .ok commit ↔
      validFullGitRef requestedRef = true ∧ output ≠ [] ∧ Utf8.valid output = true ∧
        output.length ≤ 4096 ∧
        ∃ lines direct peeled, LinesOf lines output ∧
          lines.Perm (answerLines requestedRef (some direct) peeled) ∧ IsObjectId direct ∧
          (∀ object, peeled = some object →
            IsObjectId object ∧ (ascii "refs/tags/").isPrefixOf requestedRef = true) ∧
          commit.asStr = toAsciiLowercase (peeled.getD direct) := by
  unfold parseExactGitRef
  constructor
  · intro h
    split at h
    · cases h
    · rename_i hvalid
      split at h
      · cases h
      · rename_i hsize
        split at h
        · cases h
        · rename_i htext
          obtain ⟨found, hfound, hlast⟩ := bind_eq_ok_iff.mp h
          obtain ⟨direct, peeled, hlines, hdirect, hpeeled, htag⟩ :=
            foldlM_readRefLine_eq_ok_iff.mp hfound
          split at hlast
          · cases hlast
          · split at hlast
            · cases hlast
            · rename_i value hvalue
              cases hlast
              rw [not_or, List.isEmpty_iff, Nat.not_lt] at hsize
              refine ⟨Bool.eq_true_of_not_eq_false hvalid, hsize.1,
                Bool.eq_true_of_not_eq_false htext, hsize.2, ?_⟩
              cases direct with
              | none => cases hvalue.symm.trans hdirect
              | some object =>
                  obtain ⟨_, hobject, commit, hcommit, hlower⟩ := hdirect
                  obtain rfl := Option.some.inj (hvalue.symm.trans hcommit)
                  refine ⟨lines output, object, peeled, lines_eq_iff.mp rfl, hlines, hobject, ?_,
                    ?_⟩
                  · rintro other rfl
                    exact ⟨hpeeled.2.1, htag (Option.some_ne_none _)⟩
                  · cases peeled with
                    | none =>
                        have hnone : found.peeled = none := hpeeled
                        rw [hnone]
                        exact hlower
                    | some other =>
                        obtain ⟨_, _, commit', hcommit', hlower'⟩ := hpeeled
                        rw [hcommit']
                        exact hlower'
  · rintro ⟨hvalid, hsome, htext, hlength, lines', direct, peeled, hconsists, hlines, hdirect,
      hpeeled, hcommit⟩
    obtain rfl := lines_eq_iff.mpr hconsists
    have hsize : ¬ (output.isEmpty = true ∨ output.length > 4096) := by
      rw [not_or, List.isEmpty_iff, Nat.not_lt]
      exact ⟨hsome, hlength⟩
    rw [if_neg (ne_false_of_eq_true hvalid), if_neg hsize, if_neg (ne_false_of_eq_true htext)]
    obtain ⟨value, hvalue⟩ := hdirect.exists_commit
    have hloop : ∀ rest, Fills none peeled rest →
        (lines output).foldlM (readRefLine requestedRef) ⟨none, none⟩ = .ok ⟨some value, rest⟩ := by
      intro rest hrest
      refine foldlM_readRefLine_eq_ok_iff.mpr ⟨some direct, peeled, hlines,
        ⟨rfl, hdirect, value, rfl, hvalue⟩, hrest, fun hne => ?_⟩
      obtain ⟨object, hobject⟩ := Option.ne_none_iff_exists'.mp hne
      exact (hpeeled object hobject).2
    cases peeled with
    | none =>
        refine bind_eq_ok_iff.mpr ⟨_, hloop none rfl, ?_⟩
        rw [if_neg (fun h => by cases h.2)]
        exact congrArg _ (GitCommit.eq_of_asStr (hvalue.trans hcommit.symm))
    | some object =>
        obtain ⟨hobject, htag⟩ := hpeeled object rfl
        refine bind_eq_ok_iff.mpr ⟨_, hloop (some commit) ⟨rfl, hobject, commit, rfl, hcommit⟩, ?_⟩
        rw [if_neg fun h => not_branch_of_tag htag h.1]
        rfl

/-- An annotated tag, its peeled record first and without a last line feed. -/
example : parseExactGitRef (List.replicate 40 97 ++ ascii "\trefs/tags/v1^\x7b\x7d\r\n" ++
      List.replicate 40 66 ++ ascii "\trefs/tags/v1") (ascii "refs/tags/v1") =
    .ok ⟨List.replicate 40 97, by decide, by decide⟩ := by
  decide +kernel

end Prep.Core
