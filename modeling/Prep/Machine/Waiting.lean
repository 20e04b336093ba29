/-
  Machine/Waiting.lean --- how long a program waits.

  `passes c answer time spent after` says what is known of the time of a call: if it is made
  at `time` or later, it may have waited for `spent`, and it is answered at `after` or later.
  The waiting adds up along a run.  How long anything else takes is left open.
-/
import Prep.Machine.Embed

set_option autoImplicit false

namespace Prep.Machine

variable {Call Call' : Type} {Answer : Call → Type} {Answer' : Call' → Type} {σ ε α β : Type}

/-- What is known of the time of the calls. -/
abbrev Passes (Call : Type) (Answer : Call → Type) : Type :=
  (c : Call) → Answer c → Nat → Nat → Nat → Prop

/-- The calls of a run, from a time on, have waited for so long in all. -/
inductive Waited (passes : Passes Call Answer) : Nat → Trace Call Answer → Nat → Prop
  | nil (time : Nat) : Waited passes time [] 0
  | cons {made : Answered Call Answer} {trace : Trace Call Answer} {time spent after more : Nat} :
      passes made.call made.answer time spent after → Waited passes after trace more →
      Waited passes time (made :: trace) (spent + more)

/-- A call that has not waited. -/
theorem Waited.idle {passes : Passes Call Answer} {made : Answered Call Answer}
    {trace : Trace Call Answer} {time after spent : Nat}
    (h : passes made.call made.answer time 0 after) (hrest : Waited passes after trace spent) :
    Waited passes time (made :: trace) spent := by
  rw [← Nat.zero_add spent]
  exact .cons h hrest

namespace Program

/-- From a time on, however far the program has got, it has waited for no longer than `n`, and
that time has then passed. -/
def Within (passes : Passes Call Answer) : Program Call Answer α → Nat → Nat → Prop
  | .ret _, _, _ => True
  | .call c next, time, n => ∀ answer spent after, passes c answer time spent after →
      time + spent ≤ after ∧ ∃ m, spent + m ≤ n ∧ Within passes (next answer) after m

variable {passes : Passes Call Answer} {p : Program Call Answer α} {time n : Nat}

theorem within_ret (a : α) : (ret a : Program Call Answer α).Within passes time n := trivial

theorem Within.mono {m : Nat} (h : p.Within passes time m) (hle : m ≤ n) :
    p.Within passes time n := by
  cases p with
  | ret a => trivial
  | call c next =>
      intro answer spent after hpasses
      obtain ⟨hforward, k, hroom, hnext⟩ := h answer spent after hpasses
      exact ⟨hforward, k, Nat.le_trans hroom hle, hnext⟩

/-- A call that does not wait. -/
theorem within_idle {c : Call} {next : Answer c → Program Call Answer α}
    (h : ∀ answer spent after, passes c answer time spent after → spent = 0 ∧ time ≤ after ∧
      (next answer).Within passes after n) : (call c next).Within passes time n := by
  intro answer spent after hpasses
  obtain ⟨rfl, hforward, hnext⟩ := h answer spent after hpasses
  exact ⟨hforward, n, Nat.le_of_eq (Nat.zero_add n), hnext⟩

/-- One program after another. -/
theorem Within.bind {f : α → Program Call Answer β} {m : Nat} (h : p.Within passes time m)
    (hle : m ≤ n) (hf : ∀ a spent after, time + spent ≤ after → spent ≤ m →
      ∃ k, spent + k ≤ n ∧ (f a).Within passes after k) : (p >>= f).Within passes time n := by
  induction p generalizing time m n with
  | ret a =>
      obtain ⟨k, hroom, hnext⟩ := hf a 0 time (Nat.le_refl _) (Nat.zero_le _)
      exact hnext.mono (by omega)
  | call c next ih =>
      intro answer spent after hpasses
      obtain ⟨hforward, k, hroom, hnext⟩ := h answer spent after hpasses
      refine ⟨hforward, n - spent, by omega, ih answer hnext (by omega) ?_⟩
      intro a more final hfinal hmore
      obtain ⟨last, hlast, hrest⟩ := hf a (spent + more) final (by omega) (by omega)
      exact ⟨last, by omega, hrest⟩

/-- What is waited for in a run that has ended. -/
theorem Within.ends (h : p.Within passes time n) {trace : Trace Call Answer} {a : α} {spent : Nat}
    (hends : p.Ends trace a) (hwaited : Waited passes time trace spent) : spent ≤ n := by
  induction hends generalizing time n spent with
  | ret a =>
      cases hwaited
      exact Nat.zero_le n
  | call c next answer _ ih =>
      cases hwaited with
      | cons hpasses hrest =>
          obtain ⟨_, m, hroom, hnext⟩ := h answer _ _ hpasses
          exact Nat.le_trans (Nat.add_le_add_left (ih hnext hrest) _) hroom

/-- And in a run up to a call that it stands at. -/
theorem Within.calls (h : p.Within passes time n) {trace : Trace Call Answer} {last : Call}
    {spent : Nat} (hcalls : p.Calls trace last) (hwaited : Waited passes time trace spent) :
    spent ≤ n := by
  induction hcalls generalizing time n spent with
  | here c next =>
      cases hwaited
      exact Nat.zero_le n
  | later c next answer _ ih =>
      cases hwaited with
      | cons hpasses hrest =>
          obtain ⟨_, m, hroom, hnext⟩ := h answer _ _ hpasses
          exact Nat.le_trans (Nat.add_le_add_left (ih hnext hrest) _) hroom

/-- Among programs that can make other calls too, the calls take the time they took. -/
theorem Within.embed {f : Call → Call'} {back : ∀ c, Answer' (f c) → Answer c}
    {passes' : Passes Call' Answer'}
    (hpasses : ∀ c answer time spent after, passes' (f c) answer time spent after →
      passes c (back c answer) time spent after) (h : p.Within passes time n) :
    (p.embed f back).Within passes' time n := by
  induction p generalizing time n with
  | ret a => trivial
  | call c next ih =>
      intro answer spent after hmade
      obtain ⟨hforward, m, hroom, hnext⟩ :=
        h (back c answer) spent after (hpasses c answer _ _ _ hmade)
      exact ⟨hforward, m, hroom, ih (back c answer) hnext⟩

end Program

/-! ## Bounds -/

/-- From any time on, the program waits no longer than the limit for that time. -/
def Bounded (passes : Passes Call Answer) (limit : Nat → Nat)
    (act : StateT σ (Program Call Answer) α) : Prop :=
  ∀ s time, (act.run s).Within passes time (limit time)

/-- A limit that leaves room for two others, one after the other. -/
def Covers (limit first second : Nat → Nat) : Prop :=
  ∀ time spent after, time + spent ≤ after → spent ≤ first time →
    spent + second after ≤ limit time

section Bounds

variable {passes : Passes Call Answer} {limit first second : Nat → Nat}
  {act : StateT σ (Program Call Answer) α}

/-- There is room for the first of the two alone. -/
theorem Covers.first_le (h : Covers limit first second) {time : Nat} : first time ≤ limit time :=
  Nat.le_trans (Nat.le_add_right _ _)
    (h time (first time) (time + first time) (Nat.le_refl _) (Nat.le_refl _))

/-- A limit that does not grow with time. -/
def Shrinks (limit : Nat → Nat) : Prop := ∀ time after, time ≤ after → limit after ≤ limit time

theorem covers_nothing (h : Shrinks limit) : Covers limit (fun _ => 0) limit := by
  intro time spent after hafter hspent
  have hlater := h time after (Nat.le_trans (Nat.le_add_right time spent) hafter)
  have hzero : spent = 0 := Nat.le_zero.mp hspent
  omega

theorem covers_last : Covers limit limit fun _ => 0 := fun _ _ _ _ hspent => hspent

/-- Waiting up to a deadline, and then for something more. -/
theorem covers_until (deadline more : Nat) : Covers (fun time => deadline - time + more)
    (fun time => deadline - time) fun time => deadline - time + more := by
  intro time spent after hafter hspent
  dsimp only at hspent ⊢
  omega

theorem covers_after (deadline more : Nat) : Covers (fun time => deadline - time + more)
    (fun time => deadline - time) fun _ => more := by
  intro time spent after _ hspent
  exact Nat.add_le_add_right hspent more

theorem covers_add (m n : Nat) : Covers (fun _ => m + n) (fun _ => m) fun _ => n :=
  fun _ _ _ _ hspent => Nat.add_le_add_right hspent n

theorem Bounded.mono (h : Bounded passes first act) (hle : ∀ time, first time ≤ limit time) :
    Bounded passes limit act :=
  fun s time => (h s time).mono (hle time)

theorem bounded_pure (a : α) : Bounded passes limit (pure a : StateT σ (Program Call Answer) α) :=
  fun _ _ => Program.within_ret _

theorem Bounded.bind {f : α → StateT σ (Program Call Answer) β}
    (hcovers : Covers limit first second)
    (h : Bounded passes first act) (hf : ∀ a, Bounded passes second (f a)) :
    Bounded passes limit (act >>= f) :=
  fun s time => (h s time).bind hcovers.first_le fun result spent after hforward hspent =>
    ⟨second after, hcovers time spent after hforward hspent, hf result.1 result.2 after⟩

theorem Bounded.map {f : α → β} (h : Bounded passes limit act) :
    Bounded passes limit (f <$> act) :=
  fun s time => (h s time).bind (Nat.le_refl _) fun _ _ _ _ hspent =>
    ⟨0, hspent, Program.within_ret _⟩

theorem Bounded.bindE {act : ExceptT ε (StateT σ (Program Call Answer)) α}
    {f : α → ExceptT ε (StateT σ (Program Call Answer)) β} (hcovers : Covers limit first second)
    (h : Bounded passes first act.run) (hf : ∀ a, Bounded passes second (f a).run) :
    Bounded passes limit (act >>= f).run := by
  refine Bounded.bind hcovers h fun result => ?_
  cases result with
  | ok a => exact hf a
  | error e => exact bounded_pure _

theorem Bounded.bindLift {f : α → ExceptT ε (StateT σ (Program Call Answer)) β}
    (hcovers : Covers limit first second) (h : Bounded passes first act)
    (hf : ∀ a, Bounded passes second (f a).run) :
    Bounded passes limit (ExceptT.lift act >>= f).run := by
  have hlift : Bounded passes first (ExceptT.lift act : ExceptT ε _ α).run := Bounded.map h
  exact Bounded.bindE hcovers hlift hf

end Bounds

end Prep.Machine
