/-
  Machine/Alone.lean --- one agent among the others.

  While an agent makes no step the others leave it what it may rely on.  While the others
  make none, an agent gets to the end of a program whose calls can all be answered.
-/
import Prep.Machine.Guard

set_option autoImplicit false

namespace Prep.Machine

variable {Agent Call : Type} {Answer : Call → Type} {World Choice Event : Type}

/-- A step of an agent. -/
def Step.IsBy (a : Agent) : Step Agent Choice Event → Prop
  | .act b _ => b = a
  | .event _ => False

/-! ## Conditions on the steps of a run -/

section Along

variable [DecidableEq Agent] {m : System Agent Call Answer World Choice Event}
  {s s' : State Agent Call Answer World} {steps : List (Step Agent Choice Event)}

/-- A condition that an invariant gives at every step holds along the run. -/
theorem System.along_of_invariant
    {cond cond' : State Agent Call Answer World → Step Agent Choice Event → Prop}
    {I : State Agent Call Answer World → Prop}
    (hstep : ∀ s step s', I s → cond s step → m.step s step = some s' → cond' s step ∧ I s')
    (hs : I s) (halong : m.along cond s steps) (hrun : m.run s steps = some s') :
    m.along cond' s steps := by
  induction steps generalizing s with
  | nil => trivial
  | cons first rest ih =>
      obtain ⟨next, hfirst, hrest⟩ := Option.bind_eq_some_iff.mp hrun
      obtain ⟨hcond, hnext⟩ := hstep s first next hs halong.1 hfirst
      refine ⟨hcond, fun next' hnext' => ?_⟩
      cases hfirst.symm.trans hnext'
      exact ih hnext (halong.2 next hfirst) hrest

end Along

/-! ## While the others go on -/

section Others

variable [DecidableEq Agent] {m : System Agent Call Answer World Choice Event}
  {d : Discipline m} {s s' : State Agent Call Answer World} {a : Agent}
  {step : Step Agent Choice Event} {steps : List (Step Agent Choice Event)}

/-- A step of somebody else leaves an agent its program. -/
theorem program_of_others (hothers : ¬ step.IsBy a) (h : m.step s step = some s') :
    s'.program a = s.program a := by
  cases step with
  | event e => rw [(System.step_event h).2]
  | act b choice =>
      obtain ⟨_, c, next, reply, _, _, _, hreply⟩ := System.step_act h
      cases reply with
      | done answer w => exact hreply ▸ Function.update_of_ne (Ne.symm hothers) _ _
      | more w => exact hreply ▸ rfl

/-- Nobody comes back to life. -/
theorem alive_of_step (d : Discipline m) (h : m.step s step = some s')
    (halive : m.alive s'.world a = true) : m.alive s.world a = true := by
  cases step with
  | event e => exact d.alive_event a e _ _ (System.step_event h).1 halive
  | act b choice =>
      obtain ⟨_, c, next, reply, _, hrespond, hworld, _⟩ := System.step_act h
      exact d.alive_act a b c choice _ _ hrespond (hworld ▸ halive)

theorem alive_of_run (d : Discipline m) (h : m.run s steps = some s')
    (halive : m.alive s'.world a = true) : m.alive s.world a = true := by
  induction steps generalizing s with
  | nil => exact Option.some.inj h ▸ halive
  | cons first rest ih =>
      obtain ⟨next, hfirst, hrest⟩ := Option.bind_eq_some_iff.mp h
      exact alive_of_step d hfirst (ih hrest)

/-- What a step of somebody else leaves an agent. -/
theorem Discipline.Good.rely_step (h : d.Good s) (hothers : ¬ step.IsBy a)
    (hstep : m.step s step = some s') (halive : m.alive s'.world a = true) :
    d.rely a s.world s'.world := by
  cases step with
  | event e => exact d.rely_event a e _ _ h.1 (System.step_event hstep).1 halive
  | act b choice =>
      have halive' := alive_of_step d hstep halive
      obtain ⟨hb, c, next, reply, hprogram, hrespond, hworld, _⟩ := System.step_act hstep
      have hguard := h.guarded hstep hprogram
      rw [hworld]
      exact d.rely_act a b c choice _ _ (Ne.symm hothers) h.1 halive' hb hguard hrespond

/-- What a living agent may rely on holds over every run in which it makes no step. -/
theorem Discipline.Good.rely_run (h : d.Good s) (hothers : ∀ step ∈ steps, ¬ step.IsBy a)
    (hrun : m.run s steps = some s') (halive : m.alive s'.world a = true) :
    d.rely a s.world s'.world ∧ s'.program a = s.program a := by
  induction steps generalizing s with
  | nil =>
      cases hrun
      exact ⟨d.refl a _, rfl⟩
  | cons first rest ih =>
      obtain ⟨next, hfirst, hrest⟩ := Option.bind_eq_some_iff.mp hrun
      have hnot := hothers first List.mem_cons_self
      obtain ⟨hrely, hprogram⟩ := ih (h.step hfirst)
        (fun step hstep => hothers step (List.mem_cons_of_mem _ hstep)) hrest
      refine ⟨d.trans a _ _ _ (h.rely_step hnot hfirst (alive_of_run d hrest halive)) hrely, ?_⟩
      rw [hprogram, program_of_others hnot hfirst]

end Others

/-! ## While the others wait -/

/-- An agent brings a program to its end, by choices of `calm` and with nobody else doing
anything: from one world, with what it returns, to another. -/
inductive Alone (m : System Agent Call Answer World Choice Event) (calm : Choice → Prop)
    (a : Agent) {α : Type} : Program Call Answer α → World → α → World → Prop
  | ret (x : α) (w : World) : Alone m calm a (.ret x) w x w
  | done {c : Call} {next : Answer c → Program Call Answer α} {choice : Choice}
      {answer : Answer c} {w w' u : World} {x : α} (halive : m.alive w a = true)
      (hcalm : calm choice) (hrespond : m.respond a c choice w = some (.done answer w'))
      (hrest : Alone m calm a (next answer) w' x u) : Alone m calm a (.call c next) w x u
  | more {c : Call} {next : Answer c → Program Call Answer α} {choice : Choice}
      {w w' u : World} {x : α} (halive : m.alive w a = true) (hcalm : calm choice)
      (hrespond : m.respond a c choice w = some (.more w'))
      (hrest : Alone m calm a (.call c next) w' x u) : Alone m calm a (.call c next) w x u

namespace Alone

variable {m : System Agent Call Answer World Choice Event} {calm : Choice → Prop} {a : Agent}
  {α β ε : Type} {w v u : World} {x : α} {y : β}

/-- A call that is answered at once. -/
theorem of_done {c : Call} {choice : Choice} {answer : Answer c} (halive : m.alive w a = true)
    (hcalm : calm choice) (hrespond : m.respond a c choice w = some (.done answer v)) :
    Alone m calm a (Program.perform c) w answer v :=
  .done halive hcalm hrespond (.ret answer v)

/-- One program after another. -/
theorem bind {p : Program Call Answer α} {f : α → Program Call Answer β}
    (h : Alone m calm a p w x v) (hf : Alone m calm a (f x) v y u) :
    Alone m calm a (p >>= f) w y u := by
  induction h with
  | ret x w => exact hf
  | done halive hcalm hrespond _ ih => exact .done halive hcalm hrespond (ih hf)
  | more halive hcalm hrespond _ ih => exact .more halive hcalm hrespond (ih hf)

/-- One program after another, the first without an error. -/
theorem bindE {p : ExceptT ε (Program Call Answer) α} {f : α → ExceptT ε (Program Call Answer) β}
    {result : Except ε β} (h : Alone m calm a p.run w (.ok x) v)
    (hf : Alone m calm a (f x).run v result u) : Alone m calm a (p >>= f).run w result u :=
  bind h hf

/-- A program whose calls can all be answered comes to its end, and keeps what the answers
keep. -/
theorem exists_of_only {p : Program Call Answer α} {ok : Call → Prop} {I : World → Prop}
    (hp : p.Only ok)
    (hanswer : ∀ c w, ok c → I w → ∃ answer v,
      Alone m calm a (Program.perform c) w answer v ∧ I v) (hw : I w) :
    ∃ x v, Alone m calm a p w x v ∧ I v := by
  induction p generalizing w with
  | ret x => exact ⟨x, w, .ret x w, hw⟩
  | call c next ih =>
      obtain ⟨answer, v, hcall, hv⟩ := hanswer c w hp.1 hw
      obtain ⟨x, u, hrest, hu⟩ := ih answer (hp.2 answer) hv
      exact ⟨x, u, hcall.bind hrest, hu⟩

variable [DecidableEq Agent]

/-- The steps of the agent that bring its program to its end. -/
theorem exists_run {p : Program Call Answer Unit} {x : Unit} (h : Alone m calm a p w x u)
    {program : Agent → Program Call Answer Unit} (hprogram : program a = p) :
    ∃ steps : List (Step Agent Choice Event),
      (∀ step ∈ steps, ∃ choice, step = .act a choice ∧ calm choice) ∧
        m.run ⟨w, program⟩ steps = some ⟨u, Function.update program a (.ret x)⟩ := by
  induction h generalizing program with
  | ret x w =>
      refine ⟨[], fun step hstep => absurd hstep List.not_mem_nil, ?_⟩
      rw [← hprogram, Function.update_eq_self]
      rfl
  | @done c next choice answer w w' u x halive hcalm hrespond _ ih =>
      obtain ⟨steps, hsteps, hrun⟩ := @ih (Function.update program a (next answer))
        (Function.update_self ..)
      refine ⟨.act a choice :: steps, List.forall_mem_cons.mpr ⟨⟨choice, rfl, hcalm⟩, hsteps⟩, ?_⟩
      rw [Function.update_idem] at hrun
      rw [System.run, System.step]
      simp only [halive, if_true, hprogram, hrespond, Option.bind_some, hrun]
  | @more c next choice w w' u x halive hcalm hrespond _ ih =>
      obtain ⟨steps, hsteps, hrun⟩ := ih hprogram
      refine ⟨.act a choice :: steps, List.forall_mem_cons.mpr ⟨⟨choice, rfl, hcalm⟩, hsteps⟩, ?_⟩
      rw [System.run, System.step]
      simp only [halive, if_true, hprogram, hrespond, Option.bind_some, hrun]

end Alone

end Prep.Machine
