/-
  Machine/Program.lean --- programs that make calls, and systems of agents that run
  them.

  A program is a tree: it has returned, or it makes a call and goes on with the
  answer.  A system says how a call is answered in a world.  Everything that is not
  decided by the program is a choice: whether a call fails, what a clock shows, how
  far a call that works in several steps has got.  Agents take turns in any order.
-/
import Mathlib.Logic.Function.Basic

set_option autoImplicit false

namespace Prep.Machine

/-- A program that makes calls and returns a value. -/
inductive Program (Call : Type) (Answer : Call → Type) (α : Type) : Type where
  | ret (a : α)
  | call (c : Call) (next : Answer c → Program Call Answer α)

namespace Program

variable {Call : Type} {Answer : Call → Type} {α β γ : Type}

/-- One program after another. -/
def bind : Program Call Answer α → (α → Program Call Answer β) → Program Call Answer β
  | .ret a, f => f a
  | .call c next, f => .call c fun answer => (next answer).bind f

instance : Monad (Program Call Answer) where
  pure := .ret
  bind := bind

/-- The program that makes one call. -/
def perform (c : Call) : Program Call Answer (Answer c) := .call c .ret

@[simp] theorem ret_bind (a : α) (f : α → Program Call Answer β) :
    (Program.ret a : Program Call Answer α) >>= f = f a := rfl

@[simp] theorem pure_eq_ret (a : α) : (pure a : Program Call Answer α) = .ret a := rfl

/-- The program run at once, by nobody disturbed: what it returns, and the world after it. -/
def eval {World : Type} (respond : (c : Call) → World → Answer c × World) :
    Program Call Answer α → World → α × World
  | .ret a, w => (a, w)
  | .call c next, w => (next (respond c w).1).eval respond (respond c w).2

section Eval

variable {World : Type} {respond : (c : Call) → World → Answer c × World} {w : World}

@[simp] theorem eval_ret (a : α) : (Program.ret a).eval respond w = (a, w) := rfl

@[simp] theorem eval_perform (c : Call) : (perform c).eval respond w = respond c w := rfl

@[simp] theorem eval_bind (p : Program Call Answer α) (f : α → Program Call Answer β) :
    (p >>= f).eval respond w =
      (f (p.eval respond w).1).eval respond (p.eval respond w).2 := by
  induction p generalizing w with
  | ret a => rfl
  | call c next ih => exact ih _

/-- Whatever it is answered, the program makes only calls of `ok`. -/
def Only (ok : Call → Prop) : Program Call Answer α → Prop
  | .ret _ => True
  | .call c next => ok c ∧ ∀ answer, (next answer).Only ok

variable {ok : Call → Prop}

theorem only_ret (a : α) : (Program.ret a : Program Call Answer α).Only ok := trivial

theorem only_perform {c : Call} (h : ok c) :
    (perform c : Program Call Answer (Answer c)).Only ok := ⟨h, fun _ => trivial⟩

theorem Only.bind {p : Program Call Answer α} {f : α → Program Call Answer β} (h : p.Only ok)
    (hf : ∀ a, (f a).Only ok) : (p >>= f).Only ok := by
  induction p with
  | ret a => exact hf a
  | call c next ih => exact ⟨h.1, fun answer => ih answer (h.2 answer)⟩

/-- One program after another, when the first may end with an error. -/
theorem Only.bindE {ε : Type} {p : ExceptT ε (Program Call Answer) α}
    {f : α → ExceptT ε (Program Call Answer) β} (h : Only ok p.run)
    (hf : ∀ a, Only ok (f a).run) : Only ok (p >>= f).run := by
  refine Only.bind h fun result => ?_
  cases result with
  | ok a => exact hf a
  | error e => exact only_ret _

theorem Only.mono {ok' : Call → Prop} {p : Program Call Answer α} (h : p.Only ok)
    (himp : ∀ c, ok c → ok' c) : p.Only ok' := by
  induction p with
  | ret a => trivial
  | call c next ih => exact ⟨himp c h.1, fun answer => ih answer (h.2 answer)⟩

/-- What every call of `ok` keeps, the program keeps. -/
theorem Only.eval {p : Program Call Answer α} (h : p.Only ok) {inv : World → Prop}
    (hinv : ∀ c w, ok c → inv w → inv (respond c w).2) (hw : inv w) :
    inv (p.eval respond w).2 := by
  induction p generalizing w with
  | ret a => exact hw
  | call c next ih => exact ih _ (h.2 _) (hinv c w h.1 hw)

end Eval

end Program

/-- How a call goes on: it returns, or it has done part of its work. -/
inductive Reply (α World : Type) where
  | done (answer : α) (world : World)
  | more (world : World)

namespace Reply

variable {α World : Type}

/-- The world after a reply. -/
def world : Reply α World → World
  | .done _ w => w
  | .more w => w

@[simp] theorem world_done (a : α) (w : World) : (Reply.done a w).world = w := rfl

@[simp] theorem world_more (w : World) : (Reply.more w : Reply α World).world = w := rfl

end Reply

/-- How calls are answered, and what happens without a call. -/
structure System (Agent Call : Type) (Answer : Call → Type) (World Choice Event : Type) where
  respond : Agent → (c : Call) → Choice → World → Option (Reply (Answer c) World)
  happen : Event → World → Option World
  alive : World → Agent → Bool

/-- A world and what every agent has still to do in it. -/
structure State (Agent Call : Type) (Answer : Call → Type) (World : Type) where
  world : World
  program : Agent → Program Call Answer Unit

/-- An agent makes its next call, or something happens to the world. -/
inductive Step (Agent Choice Event : Type) where
  | act (agent : Agent) (choice : Choice)
  | event (event : Event)

namespace System

variable {Agent Call : Type} {Answer : Call → Type} {World Choice Event : Type}
  [DecidableEq Agent]

/-- One step of one agent, or one event. -/
def step (m : System Agent Call Answer World Choice Event) (s : State Agent Call Answer World) :
    Step Agent Choice Event → Option (State Agent Call Answer World)
  | .act a choice =>
      if m.alive s.world a then
        match s.program a with
        | .ret _ => none
        | .call c next =>
            match m.respond a c choice s.world with
            | none => none
            | some (.done answer w) => some ⟨w, Function.update s.program a (next answer)⟩
            | some (.more w) => some ⟨w, s.program⟩
      else none
  | .event e => (m.happen e s.world).map fun w => ⟨w, s.program⟩

/-- The steps of a run, one after another. -/
def run (m : System Agent Call Answer World Choice Event) (s : State Agent Call Answer World) :
    List (Step Agent Choice Event) → Option (State Agent Call Answer World)
  | [] => some s
  | first :: rest => (m.step s first).bind fun next => m.run next rest

/-- Every step of a run is made where `cond` allows it. -/
def along (m : System Agent Call Answer World Choice Event)
    (cond : State Agent Call Answer World → Step Agent Choice Event → Prop) :
    State Agent Call Answer World → List (Step Agent Choice Event) → Prop
  | _, [] => True
  | s, first :: rest => cond s first ∧ ∀ next, m.step s first = some next → m.along cond next rest

variable {m : System Agent Call Answer World Choice Event}
  {s s' : State Agent Call Answer World}

theorem run_append (front back : List (Step Agent Choice Event)) :
    m.run s (front ++ back) = (m.run s front).bind fun mid => m.run mid back := by
  induction front generalizing s with
  | nil => rfl
  | cons first front ih =>
      rw [List.cons_append, run, run, Option.bind_assoc]
      exact congrArg _ (funext fun next => ih)

theorem along_true (s : State Agent Call Answer World) (steps : List (Step Agent Choice Event)) :
    m.along (fun _ _ => True) s steps := by
  induction steps generalizing s with
  | nil => trivial
  | cons first rest ih => exact ⟨trivial, fun next _ => ih next⟩

theorem along_of_mem {cond : Step Agent Choice Event → Prop}
    {steps : List (Step Agent Choice Event)} (h : ∀ step ∈ steps, cond step)
    (s : State Agent Call Answer World) : m.along (fun _ step => cond step) s steps := by
  induction steps generalizing s with
  | nil => trivial
  | cons first rest ih =>
      exact ⟨h first List.mem_cons_self, fun next _ =>
        ih (fun step hstep => h step (List.mem_cons_of_mem _ hstep)) next⟩

theorem along_mono {cond cond' : State Agent Call Answer World → Step Agent Choice Event → Prop}
    (hcond : ∀ s step, cond s step → cond' s step) {s : State Agent Call Answer World}
    {steps : List (Step Agent Choice Event)} (h : m.along cond s steps) : m.along cond' s steps := by
  induction steps generalizing s with
  | nil => trivial
  | cons first rest ih => exact ⟨hcond s first h.1, fun next hnext => ih (h.2 next hnext)⟩

theorem along_append {cond : State Agent Call Answer World → Step Agent Choice Event → Prop}
    {front back : List (Step Agent Choice Event)} (hfront : m.along cond s front)
    (hback : ∀ mid, m.run s front = some mid → m.along cond mid back) :
    m.along cond s (front ++ back) := by
  induction front generalizing s with
  | nil => exact hback s rfl
  | cons first front ih =>
      refine ⟨hfront.1, fun next hnext => ih (hfront.2 next hnext) fun mid hmid => hback mid ?_⟩
      rw [run, hnext]
      exact hmid

/-- What every step keeps that is made where `cond` allows it, every such run keeps. -/
theorem run_induction {cond : State Agent Call Answer World → Step Agent Choice Event → Prop}
    {I : State Agent Call Answer World → Prop} {steps : List (Step Agent Choice Event)}
    (hstep : ∀ s step s', I s → cond s step → m.step s step = some s' → I s') (hs : I s)
    (halong : m.along cond s steps) (hrun : m.run s steps = some s') : I s' := by
  induction steps generalizing s with
  | nil => exact Option.some.inj hrun ▸ hs
  | cons first rest ih =>
      obtain ⟨next, hfirst, hrest⟩ := Option.bind_eq_some_iff.mp hrun
      exact ih (hstep s first next hs halong.1 hfirst) (halong.2 next hfirst) hrest

/-- What an agent does in a step: its next call, and the reply to it. -/
theorem step_act {a : Agent} {choice : Choice} (h : m.step s (.act a choice) = some s') :
    m.alive s.world a = true ∧ ∃ c next reply, s.program a = .call c next ∧
      m.respond a c choice s.world = some reply ∧ s'.world = reply.world ∧
      match reply with
      | .done answer _ => s'.program = Function.update s.program a (next answer)
      | .more _ => s'.program = s.program := by
  rw [step] at h
  split at h
  · rename_i halive
    refine ⟨halive, ?_⟩
    split at h
    · cases h
    · rename_i c next hprogram
      split at h
      · cases h
      · rename_i answer w hreply
        cases h
        exact ⟨c, next, .done answer w, hprogram, hreply, rfl, rfl⟩
      · rename_i w hreply
        cases h
        exact ⟨c, next, .more w, hprogram, hreply, rfl, rfl⟩
  · cases h

theorem step_event {e : Event} (h : m.step s (.event e) = some s') :
    m.happen e s.world = some s'.world ∧ s'.program = s.program := by
  rw [step] at h
  obtain ⟨w, hw, rfl⟩ := Option.map_eq_some_iff.mp h
  exact ⟨hw, rfl⟩

end System

end Prep.Machine
