/-
  Machine/Interrupt.lean --- programs whose process dies under way.

  A process dies between two calls, or in a call of which only a part gets through.  What
  every call keeps where it is made, the world keeps wherever the program stops.
-/
import Prep.Machine.Program

set_option autoImplicit false

namespace Prep.Machine.Program

variable {Call : Type} {Answer : Call → Type} {World α β ε : Type}

/-- The world a program leaves whose process dies after so many calls.  Of the call it dies
in, `partly` gets through. -/
def interrupted (respond : (c : Call) → World → Answer c × World) (partly : Call → World → World) :
    Nat → Program Call Answer α → World → World
  | _, .ret _, w => w
  | 0, .call c _, w => partly c w
  | n + 1, .call c next, w => interrupted respond partly n (next (respond c w).1) (respond c w).2

/-- Every call is made in a world that allows it. -/
def Guarded (respond : (c : Call) → World → Answer c × World) (ok : Call → World → Prop) :
    Program Call Answer α → World → Prop
  | .ret _, _ => True
  | .call c next, w => ok c w ∧ Guarded respond ok (next (respond c w).1) (respond c w).2

section Guarded

variable {respond : (c : Call) → World → Answer c × World} {ok : Call → World → Prop}
  {inv : World → Prop} {w : World} {p : Program Call Answer α}

theorem guarded_ret (a : α) : (Program.ret a : Program Call Answer α).Guarded respond ok w :=
  trivial

theorem guarded_perform {c : Call} (h : ok c w) : (perform c).Guarded respond ok w := ⟨h, trivial⟩

/-- Calls that every world allows. -/
theorem Only.guarded {good : Call → Prop} (h : p.Only good) (hok : ∀ c w, good c → ok c w) :
    p.Guarded respond ok w := by
  induction p generalizing w with
  | ret a => exact trivial
  | call c next ih => exact ⟨hok c w h.1, ih _ (h.2 _)⟩

/-- One program after another. -/
theorem Guarded.bind {f : α → Program Call Answer β} (h : p.Guarded respond ok w)
    (hf : (f (p.eval respond w).1).Guarded respond ok (p.eval respond w).2) :
    (p >>= f).Guarded respond ok w := by
  induction p generalizing w with
  | ret a => exact hf
  | call c next ih => exact ⟨h.1, ih _ h.2 hf⟩

/-- One program after another, when the first may end with an error. -/
theorem Guarded.bindE {op : ExceptT ε (Program Call Answer) α}
    {f : α → ExceptT ε (Program Call Answer) β} (h : Guarded respond ok op.run w)
    (hf : ∀ a w', op.run.eval respond w = (.ok a, w') → Guarded respond ok (f a).run w') :
    Guarded respond ok (op >>= f).run w := by
  refine Guarded.bind (p := op.run) h ?_
  rcases hop : op.run.eval respond w with ⟨⟨e⟩ | ⟨a⟩, w'⟩
  · exact guarded_ret _
  · exact hf a w' hop

/-- What each call keeps where it is allowed, the program keeps. -/
theorem Guarded.eval (h : p.Guarded respond ok w)
    (hinv : ∀ c w, ok c w → inv w → inv (respond c w).2) (hw : inv w) :
    inv (p.eval respond w).2 := by
  induction p generalizing w with
  | ret a => exact hw
  | call c next ih => exact ih _ h.2 (hinv c w h.1 hw)

/-- It keeps it wherever its process dies. -/
theorem Guarded.interrupted (h : p.Guarded respond ok w) {partly : Call → World → World}
    (hinv : ∀ c w, ok c w → inv w → inv (respond c w).2)
    (hpartly : ∀ c w, ok c w → inv w → inv (partly c w)) (hw : inv w) (calls : Nat) :
    inv (p.interrupted respond partly calls w) := by
  induction p generalizing w calls with
  | ret a =>
      cases calls <;> exact hw
  | call c next ih =>
      cases calls with
      | zero => exact hpartly c w h.1 hw
      | succ calls => exact ih _ h.2 (hinv c w h.1 hw) calls

/-- Two ways to answer that differ only in calls the program does not make. -/
theorem Only.eval_congr {respond' : (c : Call) → World → Answer c × World} {good : Call → Prop}
    (h : p.Only good) (heq : ∀ c w, good c → respond' c w = respond c w) :
    p.eval respond' w = p.eval respond w := by
  induction p generalizing w with
  | ret a => rfl
  | call c next ih =>
      rw [Program.eval, Program.eval, heq c w h.1]
      exact ih _ (h.2 _)

end Guarded

end Prep.Machine.Program
