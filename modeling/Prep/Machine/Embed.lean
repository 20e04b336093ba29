/-
  Machine/Embed.lean --- a program among programs that can make other calls too.
-/
import Prep.Machine.Trace

set_option autoImplicit false

namespace Prep.Machine.Program

variable {Call Call' : Type} {Answer : Call → Type} {Answer' : Call' → Type} {α : Type}

/-- The program with each call made as a call of another kind, whose answer is taken back. -/
def embed (f : Call → Call') (back : ∀ c, Answer' (f c) → Answer c) :
    Program Call Answer α → Program Call' Answer' α
  | .ret a => .ret a
  | .call c next => .call (f c) fun answer => (next (back c answer)).embed f back

variable {f : Call → Call'} {back : ∀ c, Answer' (f c) → Answer c}

/-- It makes the calls that it made. -/
theorem keeps_embed {ok : Call → Prop} {ok' : Call' → Prop} (hok : ∀ c, ok c → ok' (f c))
    {p : Program Call Answer α} {past : Trace Call Answer} {past' : Trace Call' Answer'}
    (h : p.Keeps (fun _ made => ok made.call) past fun _ _ => True) :
    (p.embed f back).Keeps (fun _ made => ok' made.call) past' fun _ _ => True := by
  induction p generalizing past past' with
  | ret a => trivial
  | call c next ih =>
      intro answer
      obtain ⟨hc, hrest⟩ := h (back c answer)
      exact ⟨hok c hc, ih _ hrest⟩

/-- A program that never makes a bad call makes none among the calls of the other kind. -/
theorem Before.embed {bad : Call → Prop} {bad' : Call' → Prop} (hbad : ∀ c, bad' (f c) → bad c)
    {p : Program Call Answer α} {past : Trace Call Answer} {past' : Trace Call' Answer'}
    (h : p.Before bad (fun _ => False) past) :
    (p.embed f back).Before bad' (fun _ => False) past' := by
  induction p generalizing past past' with
  | ret a => trivial
  | call c next ih => exact ⟨fun hc => h.1 (hbad c hc), fun answer => ih _ (h.2 (back c answer))⟩

end Prep.Machine.Program
