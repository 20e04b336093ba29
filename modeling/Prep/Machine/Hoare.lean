/-
  Machine/Hoare.lean --- pre- and postconditions under a discipline.

  An assertion that the others keep is stable.  Between stable assertions the programs of
  one agent are reasoned about as if it were alone: a triple says that from every world of
  the precondition the agent makes only calls it may make, and ends in the postcondition.
-/
import Prep.Machine.Guard

set_option autoImplicit false

namespace Prep.Machine

variable {Agent Call : Type} {Answer : Call → Type} {World Choice Event : Type}
  {m : System Agent Call Answer World Choice Event}

namespace Discipline

variable (d : Discipline m) {ε α β ι : Type}

/-- The others keep the assertion. -/
def Stable (a : Agent) (P : World → Prop) : Prop :=
  ∀ v w, d.inv w → d.rely a v w → P v → P w

/-- From every world of `P` the agent makes only calls it may make, and ends in `Q`. -/
def Triple (a : Agent) (P : World → Prop) (p : Program Call Answer α)
    (Q : α → World → Prop) : Prop :=
  ∀ v, d.inv v → P v → d.Safe a Q p v

variable {d} {a : Agent} {P P' : World → Prop} {Q Q' : α → World → Prop}

/-! ## Stable assertions -/

theorem stable_const (φ : Prop) : d.Stable a fun _ => φ := fun _ _ _ _ h => h

theorem Stable.and (h : d.Stable a P) (h' : d.Stable a P') : d.Stable a fun w => P w ∧ P' w :=
  fun v w hinv hrely hv => ⟨h v w hinv hrely hv.1, h' v w hinv hrely hv.2⟩

theorem Stable.or (h : d.Stable a P) (h' : d.Stable a P') : d.Stable a fun w => P w ∨ P' w :=
  fun v w hinv hrely hv => hv.imp (h v w hinv hrely) (h' v w hinv hrely)

theorem Stable.imp (φ : Prop) (h : d.Stable a P) : d.Stable a fun w => φ → P w :=
  fun v w hinv hrely hv hφ => h v w hinv hrely (hv hφ)

theorem stable_exists {P : ι → World → Prop} (h : ∀ i, d.Stable a (P i)) :
    d.Stable a fun w => ∃ i, P i w := by
  rintro v w hinv hrely ⟨i, hi⟩
  exact ⟨i, h i v w hinv hrely hi⟩

theorem stable_forall {P : ι → World → Prop} (h : ∀ i, d.Stable a (P i)) :
    d.Stable a fun w => ∀ i, P i w :=
  fun v w hinv hrely hv i => h i v w hinv hrely (hv i)

/-! ## Rules -/

theorem triple_ret {x : α} (hP : d.Stable a P) (h : ∀ w, d.inv w → P w → Q x w) :
    d.Triple a P (.ret x) Q :=
  fun v _ hpre w hinv hrely => h w hinv (hP v w hinv hrely hpre)

/-- A call whose single steps keep the precondition, up to the one that ends it. -/
theorem triple_perform {c : Call} {Q : Answer c → World → Prop} (hP : d.Stable a P)
    (hQ : ∀ x, d.Stable a (Q x))
    (hguard : ∀ w, d.inv w → m.alive w a = true → P w → d.guard a c w)
    (hmore : ∀ w choice w', d.inv w → P w → m.respond a c choice w = some (.more w') → P w')
    (hdone : ∀ w choice x w', d.inv w → m.alive w a = true → P w →
      m.respond a c choice w = some (.done x w') → Q x w') :
    d.Triple a P (Program.perform c) Q := by
  intro v hv hpre
  refine ⟨P, hpre, fun w w' hw hinv hrely => hP w w' hinv hrely hw, ?_⟩
  intro w hw hinv halive
  refine ⟨hguard w hinv halive hw, fun choice reply hrespond => ?_⟩
  cases reply with
  | done x w' =>
      exact fun u hinv' hrely => hQ x w' u hinv' hrely (hdone w choice x w' hinv halive hw hrespond)
  | more w' => exact hmore w choice w' hinv hw hrespond

/-- A call that is answered at once. -/
theorem triple_call {c : Call} {Q : Answer c → World → Prop} (hP : d.Stable a P)
    (hQ : ∀ x, d.Stable a (Q x))
    (h : ∀ w, d.inv w → m.alive w a = true → P w → d.guard a c w ∧
      ∀ choice reply, m.respond a c choice w = some reply →
        ∃ x w', reply = .done x w' ∧ Q x w') :
    d.Triple a P (Program.perform c) Q := by
  intro v hv hpre
  refine ⟨P, hpre, fun w w' hw hinv hrely => hP w w' hinv hrely hw, fun w hw hinv halive => ?_⟩
  obtain ⟨hguard, hreply⟩ := h w hinv halive hw
  refine ⟨hguard, fun choice reply hrespond => ?_⟩
  obtain ⟨x, w', rfl, hx⟩ := hreply choice reply hrespond
  exact fun u hinv' hrely => hQ x w' u hinv' hrely hx

/-- What holds at the end of a program holds whatever the others do next. -/
theorem Safe.settled {post : α → World → Prop} {p : Program Call Answer α} :
    ∀ {v : World}, d.Safe a post p v →
      d.Safe a (fun x w => ∀ w', d.inv w' → d.rely a w w' → post x w') p v := by
  induction p with
  | ret x =>
      intro v h w _ hrely w' hinv' hrely'
      exact h w' hinv' (d.trans a v w w' hrely hrely')
  | call c next ih =>
      rintro v ⟨P, hP, hstable, hstep⟩
      refine ⟨P, hP, hstable, fun w hw hinv halive => ?_⟩
      obtain ⟨hguard, hreply⟩ := hstep w hw hinv halive
      refine ⟨hguard, fun choice reply hrespond => ?_⟩
      have hnext := hreply choice reply hrespond
      cases reply with
      | done answer w' => exact ih answer hnext
      | more w' => exact hnext

/-- What the program returns is handed on as another value. -/
theorem Triple.map {Q : β → World → Prop} {p : Program Call Answer α} {g : α → β}
    (h : d.Triple a P p fun x => Q (g x)) : d.Triple a P (p >>= fun x => .ret (g x)) Q :=
  fun v hv hpre => Safe.bind (h v hv hpre).settled fun _ _ _ hx => hx

theorem Triple.bind {mid : α → World → Prop} {Q : β → World → Prop} {p : Program Call Answer α}
    {f : α → Program Call Answer β} (h : d.Triple a P p mid)
    (hf : ∀ x, d.Triple a (mid x) (f x) Q) : d.Triple a P (p >>= f) Q :=
  fun v hv hpre => Safe.bind (h v hv hpre) fun x w hinv hmid => hf x w hinv hmid

/-- One program after another, when the first may end with an error. -/
theorem Triple.bindE {mid : Except ε α → World → Prop} {Q : Except ε β → World → Prop}
    {op : ExceptT ε (Program Call Answer) α} {f : α → ExceptT ε (Program Call Answer) β}
    (h : d.Triple a P op.run mid) (hf : ∀ x, d.Triple a (mid (.ok x)) (f x).run Q)
    (herror : ∀ e w, d.inv w → mid (.error e) w → Q (.error e) w) :
    d.Triple a P (op >>= f).run Q :=
  fun v hv hpre => Safe.bindE (h v hv hpre) (fun x w hinv hmid => hf x w hinv hmid) herror

theorem Triple.conseq {p : Program Call Answer α} (h : d.Triple a P p Q)
    (hpre : ∀ w, d.inv w → P' w → P w) (hpost : ∀ x w, d.inv w → Q x w → Q' x w) :
    d.Triple a P' p Q' :=
  fun v hv hv' => (h v hv (hpre v hv hv')).mono fun x w hinv hx => hpost x w hinv hx

theorem Triple.pre {p : Program Call Answer α} (h : d.Triple a P p Q)
    (hpre : ∀ w, d.inv w → P' w → P w) : d.Triple a P' p Q :=
  h.conseq hpre fun _ _ _ hx => hx

theorem Triple.post {p : Program Call Answer α} (h : d.Triple a P p Q)
    (hpost : ∀ x w, d.inv w → Q x w → Q' x w) : d.Triple a P p Q' :=
  h.conseq (fun _ _ hw => hw) hpost

/-- What does not depend on the world may be assumed. -/
theorem triple_of {φ : Prop} {p : Program Call Answer α} (h : φ → d.Triple a P p Q) :
    d.Triple a (fun w => φ ∧ P w) p Q := fun v hv hpre => h hpre.1 v hv hpre.2

theorem triple_split (φ : World → Prop) {p : Program Call Answer α}
    (h : d.Triple a (fun w => P w ∧ φ w) p Q) (h' : d.Triple a (fun w => P w ∧ ¬ φ w) p Q) :
    d.Triple a P p Q := by
  intro v hv hpre
  by_cases hφ : φ v
  · exact h v hv ⟨hpre, hφ⟩
  · exact h' v hv ⟨hpre, hφ⟩

theorem triple_exists {P : ι → World → Prop} {p : Program Call Answer α}
    (h : ∀ i, d.Triple a (P i) p Q) : d.Triple a (fun w => ∃ i, P i w) p Q := by
  rintro v hv ⟨i, hi⟩
  exact h i v hv hi

end Discipline

end Prep.Machine
