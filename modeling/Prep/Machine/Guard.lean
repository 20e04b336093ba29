/-
  Machine/Guard.lean --- reasoning about one agent at a time.

  A discipline says which calls an agent may make in which worlds (`guard`), what the
  other agents leave alone as long as they keep to it (`rely`), and what holds of every
  world (`inv`).  `Safe` is a weakest precondition under a discipline: it is checked
  for the program of each agent alone, and holds of all of them in every run.
-/
import Prep.Machine.Program

set_option autoImplicit false

namespace Prep.Machine

variable {Agent Call : Type} {Answer : Call → Type} {World Choice Event : Type}

/-- What agents may do, and what each may rely on when the others keep to it. -/
structure Discipline (m : System Agent Call Answer World Choice Event) where
  inv : World → Prop
  guard : Agent → Call → World → Prop
  rely : Agent → World → World → Prop
  refl : ∀ a w, rely a w w
  trans : ∀ a u v w, rely a u v → rely a v w → rely a u w
  alive_act : ∀ a b c choice w reply, m.respond b c choice w = some reply →
    m.alive reply.world a = true → m.alive w a = true
  alive_event : ∀ a e w w', m.happen e w = some w' → m.alive w' a = true → m.alive w a = true
  inv_act : ∀ b c choice w reply, inv w → m.alive w b = true → guard b c w →
    m.respond b c choice w = some reply → inv reply.world
  inv_event : ∀ e w w', inv w → m.happen e w = some w' → inv w'
  rely_act : ∀ a b c choice w reply, a ≠ b → inv w → m.alive w a = true → m.alive w b = true →
    guard b c w → m.respond b c choice w = some reply → rely a w reply.world
  rely_event : ∀ a e w w', inv w → m.happen e w = some w' → m.alive w' a = true → rely a w w'

namespace Discipline

variable {m : System Agent Call Answer World Choice Event} (d : Discipline m)
  {α β : Type}

/-- From `v` on, whatever the others do, the agent makes only calls it may make, and
`post` holds when its program has returned.  A call that works in several steps needs
an assertion that all of them keep. -/
def Safe (a : Agent) (post : α → World → Prop) : Program Call Answer α → World → Prop
  | .ret x, v => ∀ w, d.inv w → d.rely a v w → post x w
  | .call c next, v => ∃ P : World → Prop, P v ∧
      (∀ w w', P w → d.inv w' → d.rely a w w' → P w') ∧
      ∀ w, P w → d.inv w → m.alive w a = true → d.guard a c w ∧
        ∀ choice reply, m.respond a c choice w = some reply →
          match reply with
          | .done answer w' => Safe a post (next answer) w'
          | .more w' => P w'

variable {d} {a : Agent} {v : World} {post : α → World → Prop}

/-! ## Rules -/

/-- What holds in every world the others may bring about already holds here. -/
theorem safe_of_rely {p : Program Call Answer α}
    (h : ∀ w, d.inv w → d.rely a v w → d.Safe a post p w) : d.Safe a post p v := by
  cases p with
  | ret x => exact fun w hinv hrely => h w hinv hrely w hinv (d.refl a w)
  | call c next =>
      refine ⟨fun u => ∀ w, d.inv w → d.rely a u w → d.Safe a post (.call c next) w, h, ?_, ?_⟩
      · intro w w' hw _ hrely u hinv hrely'
        exact hw u hinv (d.trans a w w' u hrely hrely')
      · intro w hw hinv halive
        obtain ⟨P, hP, hstable, hstep⟩ := hw w hinv (d.refl a w)
        obtain ⟨hguard, hreply⟩ := hstep w hP hinv halive
        refine ⟨hguard, fun choice reply hrespond => ?_⟩
        have hnext := hreply choice reply hrespond
        cases reply with
        | done answer w' => exact hnext
        | more w' =>
            intro u hinv' hrely
            exact ⟨P, hstable w' u hnext hinv' hrely, hstable, hstep⟩

theorem Safe.rely {p : Program Call Answer α} (h : d.Safe a post p v) {w : World}
    (hinv : d.inv w) (hrely : d.rely a v w) : d.Safe a post p w := by
  cases p with
  | ret x => exact fun u hinv' hrely' => h u hinv' (d.trans a v w u hrely hrely')
  | call c next =>
      obtain ⟨P, hP, hstable, hstep⟩ := h
      exact ⟨P, hstable v w hP hinv hrely, hstable, hstep⟩

theorem Safe.mono {post' : α → World → Prop} {p : Program Call Answer α} :
    ∀ {v : World}, d.Safe a post p v → (∀ x w, d.inv w → post x w → post' x w) →
      d.Safe a post' p v := by
  induction p with
  | ret x => exact fun h hpost w hinv hrely => hpost x w hinv (h w hinv hrely)
  | call c next ih =>
      rintro v ⟨P, hP, hstable, hstep⟩ hpost
      refine ⟨P, hP, hstable, fun w hw hinv halive => ?_⟩
      obtain ⟨hguard, hreply⟩ := hstep w hw hinv halive
      refine ⟨hguard, fun choice reply hrespond => ?_⟩
      have hnext := hreply choice reply hrespond
      cases reply with
      | done answer w' => exact ih answer hnext hpost
      | more w' => exact hnext

/-- One program after another. -/
theorem Safe.bind {mid : α → World → Prop} {post : β → World → Prop}
    {f : α → Program Call Answer β} {p : Program Call Answer α} :
    ∀ {v : World}, d.Safe a mid p v →
      (∀ x w, d.inv w → mid x w → d.Safe a post (f x) w) → d.Safe a post (p >>= f) v := by
  induction p with
  | ret x =>
      intro v h hf
      exact safe_of_rely fun w hinv hrely => hf x w hinv (h w hinv hrely)
  | call c next ih =>
      rintro v ⟨P, hP, hstable, hstep⟩ hf
      refine ⟨P, hP, hstable, fun w hw hinv halive => ?_⟩
      obtain ⟨hguard, hreply⟩ := hstep w hw hinv halive
      refine ⟨hguard, fun choice reply hrespond => ?_⟩
      have hnext := hreply choice reply hrespond
      cases reply with
      | done answer w' => exact ih answer hnext hf
      | more w' => exact hnext

/-! ## Programs with errors -/

section Errors

variable {ε : Type}

/-- One program after another, when the first may end with an error. -/
theorem Safe.bindE {mid : Except ε α → World → Prop} {post : Except ε β → World → Prop}
    {f : α → ExceptT ε (Program Call Answer) β} {p : Program Call Answer (Except ε α)} :
    ∀ {v : World}, d.Safe a mid p v →
      (∀ x w, d.inv w → mid (.ok x) w → d.Safe a post (f x).run w) →
      (∀ e w, d.inv w → mid (.error e) w → post (.error e) w) →
      d.Safe a post (ExceptT.mk p >>= f).run v := by
  induction p with
  | ret result =>
      intro v h hok herror
      cases result with
      | ok x => exact safe_of_rely fun w hinv hrely => hok x w hinv (h w hinv hrely)
      | error e => exact fun w hinv hrely => herror e w hinv (h w hinv hrely)
  | call c next ih =>
      rintro v ⟨P, hP, hstable, hstep⟩ hok herror
      refine ⟨P, hP, hstable, fun w hw hinv halive => ?_⟩
      obtain ⟨hguard, hreply⟩ := hstep w hw hinv halive
      refine ⟨hguard, fun choice reply hrespond => ?_⟩
      have hnext := hreply choice reply hrespond
      cases reply with
      | done answer w' => exact ih answer hnext hok herror
      | more w' => exact hnext

end Errors

/-! ## Runs -/

variable [DecidableEq Agent] {s s' : State Agent Call Answer World}

variable (d) in
/-- Every living agent is safe from here on. -/
def Good (s : State Agent Call Answer World) : Prop :=
  d.inv s.world ∧ ∀ a, m.alive s.world a = true →
    d.Safe a (fun _ _ => True) (s.program a) s.world

/-- A step is made by a living agent that may make it. -/
theorem Good.guarded (h : d.Good s) {choice : Choice}
    (hstep : m.step s (.act a choice) = some s') {c : Call}
    {next : Answer c → Program Call Answer Unit} (hprogram : s.program a = .call c next) :
    d.guard a c s.world := by
  obtain ⟨halive, _⟩ := System.step_act hstep
  have hsafe := h.2 a halive
  rw [hprogram] at hsafe
  obtain ⟨P, hP, _, hguarded⟩ := hsafe
  exact (hguarded s.world hP h.1 halive).1

/-- Agents that keep to the discipline stay safe. -/
theorem Good.step (h : d.Good s) {step : Step Agent Choice Event}
    (hstep : m.step s step = some s') : d.Good s' := by
  cases step with
  | event e =>
      obtain ⟨hhappen, hprogram⟩ := System.step_event hstep
      have hinv := d.inv_event e _ _ h.1 hhappen
      refine ⟨hinv, fun a halive => ?_⟩
      rw [hprogram]
      exact (h.2 a (d.alive_event a e _ _ hhappen halive)).rely hinv
        (d.rely_event a e _ _ h.1 hhappen halive)
  | act b choice =>
      obtain ⟨halive, c, next, reply, hprogram, hrespond, hworld, hreply⟩ :=
        System.step_act hstep
      have hguard := h.guarded hstep hprogram
      have hinv := d.inv_act b c choice _ _ h.1 halive hguard hrespond
      rw [← hworld] at hinv
      refine ⟨hinv, fun a ha => ?_⟩
      rw [hworld] at ha
      have ha' := d.alive_act a b c choice _ _ hrespond ha
      by_cases hab : a = b
      · subst hab
        have hsafe := h.2 a halive
        rw [hprogram] at hsafe
        obtain ⟨P, hP, hstable, hguarded⟩ := hsafe
        have hnext := (hguarded s.world hP h.1 halive).2 choice reply hrespond
        cases reply with
        | done answer w' =>
            rw [hreply, Function.update_self, hworld]
            exact hnext
        | more w' =>
            rw [hreply, hprogram, hworld]
            exact ⟨P, hnext, hstable, hguarded⟩
      · have hsame : s'.program a = s.program a := by
          cases reply with
          | done answer w' => rw [hreply, Function.update_of_ne hab]
          | more w' => rw [hreply]
        rw [hsame]
        refine (h.2 a ha').rely hinv ?_
        rw [hworld]
        exact d.rely_act a b c choice _ _ hab h.1 ha' halive hguard hrespond

/-- In every run from a good state, every state is good. -/
theorem Good.run (h : d.Good s) {steps : List (Step Agent Choice Event)}
    (hrun : m.run s steps = some s') : d.Good s' := by
  induction steps generalizing s with
  | nil => exact Option.some.inj hrun ▸ h
  | cons first rest ih =>
      obtain ⟨next, hfirst, hrest⟩ := Option.bind_eq_some_iff.mp hrun
      exact ih (h.step hfirst) hrest

end Discipline

end Prep.Machine
