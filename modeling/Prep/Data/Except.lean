/-
  Data/Except.lean --- what a fallible computation that succeeds has done.
-/
import Mathlib

set_option autoImplicit false

namespace Prep.Data

variable {ε α β : Type}

/-- A sequence succeeds when its first part does and its second part does on the
value of the first. -/
theorem bind_eq_ok_iff {x : Except ε α} {f : α → Except ε β} {b : β} :
    (x >>= f) = .ok b ↔ ∃ a, x = .ok a ∧ f a = .ok b := by
  cases x with
  | error e =>
      constructor
      · intro h
        cases h
      · rintro ⟨a, h, _⟩
        cases h
  | ok a =>
      constructor
      · intro h
        exact ⟨a, rfl, h⟩
      · rintro ⟨a', h, hf⟩
        cases h
        exact hf

/-- A check before a computation. -/
theorem check_bind_eq_ok_iff {check : Except ε PUnit} {f : PUnit → Except ε β} {b : β} :
    (check >>= f) = .ok b ↔ check = .ok () ∧ f () = .ok b := by
  rw [bind_eq_ok_iff]
  exact ⟨fun ⟨_, hcheck, hf⟩ => ⟨hcheck, hf⟩, fun ⟨hcheck, hf⟩ => ⟨(), hcheck, hf⟩⟩

/-- A loop of checks succeeds when every check does. -/
theorem forM_eq_ok_iff {values : List α} {check : α → Except ε PUnit} :
    forM values check = .ok () ↔ ∀ a ∈ values, check a = .ok () := by
  induction values with
  | nil => exact ⟨fun _ _ h => absurd h List.not_mem_nil, fun _ => rfl⟩
  | cons a values ih =>
      rw [List.forM_cons, bind_eq_ok_iff, List.forall_mem_cons]
      constructor
      · rintro ⟨_, ha, hrest⟩
        exact ⟨ha, ih.mp hrest⟩
      · rintro ⟨ha, hrest⟩
        exact ⟨(), ha, ih.mpr hrest⟩

theorem mapError_eq_ok_iff {ε' : Type} {f : ε → ε'} {x : Except ε α} {a : α} :
    x.mapError f = .ok a ↔ x = .ok a := by
  cases x with
  | error e => exact ⟨fun h => (by cases h), fun h => (by cases h)⟩
  | ok b =>
      constructor
      · intro h
        cases h
        rfl
      · intro h
        cases h
        rfl

theorem toOption_eq_some_iff {x : Except ε α} {a : α} : x.toOption = some a ↔ x = .ok a := by
  cases x with
  | error e => exact ⟨fun h => (by cases h), fun h => (by cases h)⟩
  | ok b =>
      constructor
      · intro h
        cases h
        rfl
      · intro h
        cases h
        rfl

/-! ## Two computations side by side -/

/-- Two computations fail with the same error, or succeed with related values. -/
inductive Agree {α' : Type} (R : α → α' → Prop) : Except ε α → Except ε α' → Prop
  | error (e : ε) : Agree R (.error e) (.error e)
  | ok {a : α} {a' : α'} (h : R a a') : Agree R (.ok a) (.ok a')

namespace Agree

variable {α' β' : Type} {R : α → α' → Prop} {S : β → β' → Prop}

theorem bind {x : Except ε α} {x' : Except ε α'} {f : α → Except ε β} {f' : α' → Except ε β'}
    (h : Agree R x x') (hf : ∀ a a', R a a' → Agree S (f a) (f' a')) :
    Agree S (x >>= f) (x' >>= f') := by
  cases h with
  | error e => exact .error e
  | ok h => exact hf _ _ h

/-- A computation beside itself. -/
theorem same (x : Except ε α) : Agree (· = ·) x x := by
  cases x with
  | error e => exact .error e
  | ok a => exact .ok rfl

/-- The same step in front of both. -/
theorem given {x : Except ε α} {f : α → Except ε β} {f' : α → Except ε β'}
    (hf : ∀ a, x = .ok a → Agree S (f a) (f' a)) : Agree S (x >>= f) (x >>= f') := by
  cases x with
  | error e => exact .error e
  | ok a => exact hf a rfl

theorem eq {x x' : Except ε α} (h : Agree (· = ·) x x') : x = x' := by
  cases h with
  | error e => rfl
  | ok h => rw [h]

end Agree

end Prep.Data
