/-
  Machine/Phases.lean --- in which order programs make their calls.

  A program is in a phase: it says which calls may be made, and an answer leads to the next.
  That a program follows the phases is read off the program.  What they say of the world an
  agent may then count on in every run, and an agent whose calls can be answered in their
  phases gets to its end alone.
-/
import Prep.Machine.Alone

set_option autoImplicit false

namespace Prep.Machine

variable {Agent Call : Type} {Answer : Call → Type} {World Choice Event Phase : Type}

/-- The calls that may be made in a phase, and the phase after an answer. -/
structure Phases (Call : Type) (Answer : Call → Type) (Phase : Type) where
  allows : Phase → Call → Prop
  next : Phase → (c : Call) → Answer c → Phase

/-! ## Programs that follow them -/

namespace Program

variable {r : Phases Call Answer Phase} {α β ε : Type} {phase : Phase}

/-- From a phase on the program makes only calls that may be made, whatever it is answered,
and ends in a phase of `post`. -/
def Follows (r : Phases Call Answer Phase) (post : α → Phase → Prop) :
    Program Call Answer α → Phase → Prop
  | .ret a, phase => post a phase
  | .call c next, phase =>
      r.allows phase c ∧ ∀ answer, (next answer).Follows r post (r.next phase c answer)

theorem follows_ret {post : α → Phase → Prop} {a : α} (h : post a phase) :
    (Program.ret a : Program Call Answer α).Follows r post phase := h

theorem follows_perform {c : Call} {post : Answer c → Phase → Prop} (hallows : r.allows phase c)
    (h : ∀ answer, post answer (r.next phase c answer)) : (perform c).Follows r post phase :=
  ⟨hallows, h⟩

/-- One program after another. -/
theorem Follows.bind {Q : α → Phase → Prop} {post : β → Phase → Prop}
    {p : Program Call Answer α} {f : α → Program Call Answer β} (h : p.Follows r Q phase)
    (hf : ∀ a phase, Q a phase → (f a).Follows r post phase) :
    (p >>= f).Follows r post phase := by
  induction p generalizing phase with
  | ret a => exact hf a phase h
  | call c next ih => exact ⟨h.1, fun answer => ih answer (h.2 answer)⟩

/-- One program after another, when the first may end with an error. -/
theorem Follows.bindE {Q : Except ε α → Phase → Prop} {post : Except ε β → Phase → Prop}
    {p : ExceptT ε (Program Call Answer) α} {f : α → ExceptT ε (Program Call Answer) β}
    (h : Follows r Q p.run phase)
    (hf : ∀ a phase, Q (.ok a) phase → Follows r post (f a).run phase)
    (herror : ∀ e phase, Q (.error e) phase → post (.error e) phase) :
    Follows r post (p >>= f).run phase := by
  refine Follows.bind h fun result phase hresult => ?_
  cases result with
  | ok a => exact hf a phase hresult
  | error e => exact follows_ret (herror e phase hresult)

theorem Follows.mono {post post' : α → Phase → Prop} {p : Program Call Answer α}
    (h : p.Follows r post phase) (himp : ∀ a phase, post a phase → post' a phase) :
    p.Follows r post' phase := by
  induction p generalizing phase with
  | ret a => exact himp a phase h
  | call c next ih => exact ⟨h.1, fun answer => ih answer (h.2 answer)⟩

/-- Calls that may be made in every phase of a kind, and leave it so, are followed. -/
theorem Only.follows {ok : Call → Prop} {kind : Phase → Prop} {p : Program Call Answer α}
    (h : p.Only ok) (hok : ∀ phase c, kind phase → ok c →
      r.allows phase c ∧ ∀ answer, kind (r.next phase c answer)) (hkind : kind phase) :
    p.Follows r (fun _ => kind) phase := by
  induction p generalizing phase with
  | ret a => exact hkind
  | call c next ih =>
      obtain ⟨hallows, hnext⟩ := hok phase c hkind h.1
      exact ⟨hallows, fun answer => ih answer (h.2 answer) (hnext answer)⟩

end Program

/-! ## An agent alone -/

section Alone

variable {m : System Agent Call Answer World Choice Event} {calm : Choice → Prop} {a : Agent}
  {r : Phases Call Answer Phase} {holds : Phase → World → Prop} {α : Type} {w v : World}
  {phase : Phase}

/-- What an agent's own calls keep, phase by phase, holds after a call of several steps. -/
theorem Alone.holds_next {c : Call} {answer : Answer c}
    (hdone : ∀ phase c choice answer w w', holds phase w → r.allows phase c →
      m.respond a c choice w = some (.done answer w') → holds (r.next phase c answer) w')
    (hmore : ∀ phase c choice w w', holds phase w → r.allows phase c →
      m.respond a c choice w = some (.more w') → holds phase w')
    (h : Alone m calm a (Program.perform c) w answer v) (hallows : r.allows phase c)
    (hw : holds phase w) : holds (r.next phase c answer) v := by
  generalize hp : (Program.perform c : Program Call Answer (Answer c)) = p at h
  induction h with
  | ret x w => cases hp
  | done _ _ hrespond hrest _ =>
      cases hp
      cases hrest
      exact hdone phase c _ _ _ _ hw hallows hrespond
  | more _ _ hrespond _ ih =>
      cases hp
      exact ih (hmore phase c _ _ _ hw hallows hrespond) rfl

/-- An agent gets to the end of a program that follows the phases, if in each phase the calls
that may be made can be answered. -/
theorem Alone.exists_of_follows {p : Program Call Answer α} {post : α → Phase → Prop}
    (hdone : ∀ phase c choice answer w w', holds phase w → r.allows phase c →
      m.respond a c choice w = some (.done answer w') → holds (r.next phase c answer) w')
    (hmore : ∀ phase c choice w w', holds phase w → r.allows phase c →
      m.respond a c choice w = some (.more w') → holds phase w')
    (hanswer : ∀ phase c w, holds phase w → r.allows phase c →
      ∃ answer v, Alone m calm a (Program.perform c) w answer v)
    (hp : p.Follows r post phase) (hw : holds phase w) :
    ∃ x v phase', Alone m calm a p w x v ∧ post x phase' ∧ holds phase' v := by
  induction p generalizing phase w with
  | ret x => exact ⟨x, w, phase, .ret x w, hp, hw⟩
  | call c next ih =>
      obtain ⟨hallows, hnext⟩ := hp
      obtain ⟨answer, v, hcall⟩ := hanswer phase c w hw hallows
      have hv := hcall.holds_next hdone hmore hallows hw
      obtain ⟨x, u, phase', hrest, hpost, hu⟩ := ih answer (hnext answer) hv
      exact ⟨x, u, phase', hcall.bind hrest, hpost, hu⟩

/-- A call that an agent gets through is one whose first step it can make. -/
theorem Alone.exists_respond {c : Call} {answer : Answer c}
    (h : Alone m calm a (Program.perform c) w answer v) :
    ∃ choice reply, calm choice ∧ m.respond a c choice w = some reply := by
  generalize hp : (Program.perform c : Program Call Answer (Answer c)) = p at h
  cases h with
  | ret => cases hp
  | done _ hcalm hrespond =>
      cases hp
      exact ⟨_, _, hcalm, hrespond⟩
  | more _ hcalm hrespond =>
      cases hp
      exact ⟨_, _, hcalm, hrespond⟩

end Alone

/-! ## All agents -/

section Runs

variable {m : System Agent Call Answer World Choice Event}

/-- What the phases say of the world: what an agent's own calls make of it, and what the
others leave of it. -/
structure Phases.Tracks (r : Phases Call Answer Phase) (d : Discipline m)
    (holds : Agent → Phase → World → Prop) : Prop where
  done : ∀ a phase c choice answer w w', holds a phase w → r.allows phase c →
    m.respond a c choice w = some (.done answer w') → holds a (r.next phase c answer) w'
  more : ∀ a phase c choice w w', holds a phase w → r.allows phase c →
    m.respond a c choice w = some (.more w') → holds a phase w'
  act : ∀ a b phase c choice w reply, a ≠ b → d.inv w → m.alive w a = true →
    m.alive w b = true → d.guard b c w → holds a phase w → m.respond b c choice w = some reply →
      holds a phase reply.world
  event : ∀ a phase e w w', d.inv w → m.happen e w = some w' → m.alive w' a = true →
    holds a phase w → holds a phase w'

/-- Every living agent is in a phase that says what is so, and follows the phases to a last
one. -/
def Phases.Obeyed (r : Phases Call Answer Phase) (m : System Agent Call Answer World Choice Event)
    (holds : Agent → Phase → World → Prop) (last : Phase → Prop)
    (s : State Agent Call Answer World) : Prop :=
  ∀ a, m.alive s.world a = true → ∃ phase, holds a phase s.world ∧
    (s.program a).Follows r (fun _ => last) phase

variable [DecidableEq Agent] {r : Phases Call Answer Phase} {d : Discipline m}
  {holds : Agent → Phase → World → Prop} {last : Phase → Prop}
  {s s' : State Agent Call Answer World}

theorem Phases.Obeyed.step (h : r.Obeyed m holds last s) (htracks : r.Tracks d holds)
    (hgood : d.Good s) {step : Step Agent Choice Event} (hstep : m.step s step = some s') :
    r.Obeyed m holds last s' := by
  intro a halive'
  have halive := alive_of_step d hstep halive'
  obtain ⟨phase, hphase, hfollows⟩ := h a halive
  cases step with
  | event e =>
      obtain ⟨hhappen, hprogram⟩ := System.step_event hstep
      exact ⟨phase, htracks.event a phase e _ _ hgood.1 hhappen halive' hphase, hprogram ▸ hfollows⟩
  | act b choice =>
      obtain ⟨hb, c, next, reply, hprogram, hrespond, hworld, hreply⟩ := System.step_act hstep
      rw [hworld]
      by_cases hab : a = b
      · subst hab
        rw [hprogram] at hfollows
        obtain ⟨hallows, hnext⟩ := hfollows
        cases reply with
        | done answer w =>
            refine ⟨r.next phase c answer,
              htracks.done a phase c choice _ _ _ hphase hallows hrespond, ?_⟩
            rw [hreply, Function.update_self]
            exact hnext answer
        | more w =>
            refine ⟨phase, htracks.more a phase c choice _ _ hphase hallows hrespond, ?_⟩
            rw [hreply, hprogram]
            exact ⟨hallows, hnext⟩
      · refine ⟨phase, htracks.act a b phase c choice _ _ hab hgood.1 halive hb
          (hgood.guarded hstep hprogram) hphase hrespond, ?_⟩
        have hothers : ¬ Step.IsBy a (Step.act b choice : Step Agent Choice Event) :=
          fun heq => hab (Eq.symm heq)
        rw [program_of_others hothers hstep]
        exact hfollows

/-- In every run of agents that follow the phases each is in one that says what is so. -/
theorem Phases.Obeyed.run (h : r.Obeyed m holds last s) (htracks : r.Tracks d holds)
    (hgood : d.Good s) {steps : List (Step Agent Choice Event)}
    (hrun : m.run s steps = some s') : r.Obeyed m holds last s' := by
  induction steps generalizing s with
  | nil => exact Option.some.inj hrun ▸ h
  | cons first rest ih =>
      obtain ⟨next, hfirst, hrest⟩ := Option.bind_eq_some_iff.mp hrun
      exact ih (h.step htracks hgood hfirst) (hgood.step hfirst) hrest

end Runs

end Prep.Machine
