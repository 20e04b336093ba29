/-
  Machine/Trace.lean --- a program against an environment that answers as it likes.

  A run of a program is the list of its calls with their answers.  `Keeps` is a weakest
  precondition over the calls made so far: it is checked along the program, and says
  what holds at each call and at the end of every run.

  A call may have no answers at all.  A run that comes to such a call goes no further, and is
  not among those that end: `Calls` says where it stands, and `Before` is to it what `Keeps`
  is to runs that end.
-/
import Prep.Machine.Program

set_option autoImplicit false

namespace Prep.Machine

/-- A call that was made, and its answer. -/
structure Answered (Call : Type) (Answer : Call → Type) where
  call : Call
  answer : Answer call

/-- The calls of a run, one after another. -/
abbrev Trace (Call : Type) (Answer : Call → Type) : Type := List (Answered Call Answer)

namespace Program

variable {Call : Type} {Answer : Call → Type} {α β : Type}

/-- The program ends with `a` when its calls are answered as in the trace. -/
inductive Ends : Program Call Answer α → Trace Call Answer → α → Prop
  | ret (a : α) : Ends (.ret a) [] a
  | call (c : Call) (next : Answer c → Program Call Answer α) (answer : Answer c)
      {trace : Trace Call Answer} {a : α} :
      Ends (next answer) trace a → Ends (.call c next) (⟨c, answer⟩ :: trace) a

/-- The program makes the call `c` when the calls before it are answered as in the trace. -/
inductive Calls : Program Call Answer α → Trace Call Answer → Call → Prop
  | here (c : Call) (next : Answer c → Program Call Answer α) : Calls (.call c next) [] c
  | later (c : Call) (next : Answer c → Program Call Answer α) (answer : Answer c)
      {trace : Trace Call Answer} {last : Call} :
      Calls (next answer) trace last → Calls (.call c next) (⟨c, answer⟩ :: trace) last

/-- One run after another. -/
theorem Ends.bind {p : Program Call Answer α} {f : α → Program Call Answer β}
    {front back : Trace Call Answer} {a : α} {b : β} (h : Ends p front a)
    (hf : Ends (f a) back b) : Ends (p >>= f) (front ++ back) b := by
  induction h with
  | ret a => exact hf
  | call c next answer _ ih => exact .call c _ answer (ih hf)

/-- After the calls of `past`, every call the program makes is allowed where it is made,
however the calls are answered, and `post` holds when it has returned. -/
def Keeps (allowed : Trace Call Answer → Answered Call Answer → Prop) :
    Program Call Answer α → Trace Call Answer → (Trace Call Answer → α → Prop) → Prop
  | .ret a, past, post => post past a
  | .call c next, past, post => ∀ answer, allowed past ⟨c, answer⟩ ∧
      Keeps allowed (next answer) (past ++ [⟨c, answer⟩]) post

variable {allowed : Trace Call Answer → Answered Call Answer → Prop}
  {p : Program Call Answer α} {past : Trace Call Answer} {post : Trace Call Answer → α → Prop}

theorem Keeps.mono {post' : Trace Call Answer → α → Prop} (h : p.Keeps allowed past post)
    (hpost : ∀ trace a, post trace a → post' trace a) : p.Keeps allowed past post' := by
  induction p generalizing past with
  | ret a => exact hpost past a h
  | call c next ih => exact fun answer => ⟨(h answer).1, ih answer (h answer).2⟩

theorem Keeps.bind {f : α → Program Call Answer β} {mid : Trace Call Answer → α → Prop}
    {post : Trace Call Answer → β → Prop} (h : p.Keeps allowed past mid)
    (hf : ∀ trace a, mid trace a → (f a).Keeps allowed trace post) :
    (p >>= f).Keeps allowed past post := by
  induction p generalizing past with
  | ret a => exact hf past a h
  | call c next ih => exact fun answer => ⟨(h answer).1, ih answer (h answer).2⟩

/-- Nothing is asked of the calls. -/
theorem keeps_anything (p : Program Call Answer α) (past : Trace Call Answer) :
    p.Keeps (fun _ _ => True) past fun _ _ => True := by
  induction p generalizing past with
  | ret a => trivial
  | call c next ih => exact fun answer => ⟨trivial, ih answer _⟩

/-- What is kept holds at the end of every run. -/
theorem Keeps.ends (h : p.Keeps allowed past post) {trace : Trace Call Answer} {a : α}
    (hends : p.Ends trace a) : post (past ++ trace) a := by
  induction hends generalizing past with
  | ret a =>
      rw [List.append_nil]
      exact h
  | call c next answer _ ih =>
      have hnext := ih (h answer).2
      rwa [List.append_assoc, List.singleton_append] at hnext

/-- Each call of a run is allowed where it is made. -/
theorem Keeps.allowed_at (h : p.Keeps allowed past post) {trace : Trace Call Answer} {a : α}
    (hends : p.Ends trace a) {front back : Trace Call Answer} {made : Answered Call Answer}
    (htrace : trace = front ++ made :: back) : allowed (past ++ front) made := by
  induction hends generalizing past front with
  | ret a => exact absurd htrace.symm (List.append_ne_nil_of_right_ne_nil _ (List.cons_ne_nil _ _))
  | call c next answer _ ih =>
      cases front with
      | nil =>
          obtain ⟨rfl, _⟩ := List.cons.inj htrace
          rw [List.append_nil]
          exact (h answer).1
      | cons first front =>
          obtain ⟨rfl, hrest⟩ := List.cons.inj htrace
          have hmade := ih (h answer).2 hrest
          rwa [List.append_assoc, List.singleton_append] at hmade

theorem Keeps.weaken {allowed' : Trace Call Answer → Answered Call Answer → Prop}
    (h : p.Keeps allowed past post) (himp : ∀ trace made, allowed trace made → allowed' trace made) :
    p.Keeps allowed' past post := by
  induction p generalizing past with
  | ret a => exact h
  | call c next ih => exact fun answer => ⟨himp _ _ (h answer).1, ih answer (h answer).2⟩

/-- A program that is kept to something ends with a run of its own. -/
theorem Keeps.self (h : p.Keeps allowed past post) :
    p.Keeps allowed past fun trace a =>
      post trace a ∧ ∃ own, trace = past ++ own ∧ p.Ends own a := by
  induction p generalizing past with
  | ret a => exact ⟨h, [], (List.append_nil _).symm, .ret a⟩
  | call c next ih =>
      intro answer
      refine ⟨(h answer).1, (ih answer (h answer).2).mono fun trace a ⟨hpost, own, htrace, hown⟩ => ?_⟩
      refine ⟨hpost, ⟨c, answer⟩ :: own, ?_, .call c next answer hown⟩
      rw [htrace, List.append_assoc, List.singleton_append]

/-! ## Calls that are not answered -/

/-- After the calls of `past`: where the program makes a call of `bad`, `holds` of the calls
before it. -/
def Before (bad : Call → Prop) (holds : Trace Call Answer → Prop) :
    Program Call Answer α → Trace Call Answer → Prop
  | .ret _, _ => True
  | .call c next, past => (bad c → holds past) ∧
      ∀ answer, Before bad holds (next answer) (past ++ [⟨c, answer⟩])

variable {bad : Call → Prop} {holds : Trace Call Answer → Prop}

theorem Before.calls (h : p.Before bad holds past) {trace : Trace Call Answer} {last : Call}
    (hcalls : p.Calls trace last) (hbad : bad last) : holds (past ++ trace) := by
  induction hcalls generalizing past with
  | here c next =>
      rw [List.append_nil]
      exact h.1 hbad
  | later c next answer _ ih =>
      have hnext := ih (h.2 answer) hbad
      rwa [List.append_assoc, List.singleton_append] at hnext

theorem Before.bind {f : α → Program Call Answer β} {mid : Trace Call Answer → α → Prop}
    (h : p.Before bad holds past) (hmid : p.Keeps allowed past mid)
    (hf : ∀ trace a, mid trace a → (f a).Before bad holds trace) :
    (p >>= f).Before bad holds past := by
  induction p generalizing past with
  | ret a => exact hf past a hmid
  | call c next ih => exact ⟨h.1, fun answer => ih answer (h.2 answer) (hmid answer).2⟩

theorem Before.mono {holds' : Trace Call Answer → Prop} (h : p.Before bad holds past)
    (himp : ∀ trace, holds trace → holds' trace) : p.Before bad holds' past := by
  induction p generalizing past with
  | ret a => trivial
  | call c next ih => exact ⟨fun hbad => himp past (h.1 hbad), fun answer => ih answer (h.2 answer)⟩

end Program

/-! ## Programs with a state and errors -/

section Ensures

variable {Call : Type} {Answer : Call → Type} {σ ε α β : Type}

/-- From any state, after calls of which `pre` holds: every call of the program is
allowed, and `post` holds of the calls and the result when it has returned. -/
def Ensures (allowed : Trace Call Answer → Answered Call Answer → Prop)
    (pre : Trace Call Answer → Prop) (act : StateT σ (Program Call Answer) α)
    (post : Trace Call Answer → α → Prop) : Prop :=
  ∀ s past, pre past → (act.run s).Keeps allowed past fun trace result => post trace result.1

variable {allowed : Trace Call Answer → Answered Call Answer → Prop}
  {pre : Trace Call Answer → Prop} {act : StateT σ (Program Call Answer) α}
  {post : Trace Call Answer → α → Prop}

theorem ensures_pure {a : α} (h : ∀ trace, pre trace → post trace a) :
    Ensures allowed pre (pure a : StateT σ (Program Call Answer) α) post :=
  fun _ past hpre => h past hpre

theorem Ensures.mono {pre' : Trace Call Answer → Prop} {post' : Trace Call Answer → α → Prop}
    (h : Ensures allowed pre act post) (hpre : ∀ trace, pre' trace → pre trace)
    (hpost : ∀ trace a, post trace a → post' trace a) : Ensures allowed pre' act post' :=
  fun s past hpast => (h s past (hpre past hpast)).mono fun trace _ => hpost trace _

theorem Ensures.bind {f : α → StateT σ (Program Call Answer) β}
    {mid : Trace Call Answer → α → Prop} {post : Trace Call Answer → β → Prop}
    (h : Ensures allowed pre act mid)
    (hf : ∀ a, Ensures allowed (fun trace => mid trace a) (f a) post) :
    Ensures allowed pre (act >>= f) post :=
  fun s past hpre => (h s past hpre).bind fun trace (a, next) hmid => hf a next trace hmid

theorem Ensures.map {f : α → β} {post : Trace Call Answer → β → Prop}
    (h : Ensures allowed pre act fun trace a => post trace (f a)) :
    Ensures allowed pre (f <$> act) post :=
  fun s past hpre => (h s past hpre).bind fun _ _ hmid => hmid

/-- From less than is known. -/
theorem Ensures.from {pre' : Trace Call Answer → Prop} (mid : Trace Call Answer → Prop)
    (h : Ensures allowed mid act post) (hpre : ∀ trace, pre' trace → mid trace) :
    Ensures allowed pre' act post :=
  h.mono hpre fun _ _ => id

/-- A fact that is not about the trace. -/
theorem Ensures.given {fact : Prop} (h : fact → Ensures allowed pre act post) :
    Ensures allowed (fun trace => pre trace ∧ fact) act post :=
  fun s past hpre => h hpre.2 s past hpre.1

/-- One program after another, when the first may end with an error. -/
theorem Ensures.bindE {act : ExceptT ε (StateT σ (Program Call Answer)) α}
    {f : α → ExceptT ε (StateT σ (Program Call Answer)) β}
    {mid : Trace Call Answer → Except ε α → Prop} {post : Trace Call Answer → Except ε β → Prop}
    (h : Ensures allowed pre act.run mid)
    (hok : ∀ a, Ensures allowed (fun trace => mid trace (.ok a)) (f a).run post)
    (herror : ∀ trace e, mid trace (.error e) → post trace (.error e)) :
    Ensures allowed pre (act >>= f).run post := by
  refine Ensures.bind h fun result => ?_
  cases result with
  | ok a => exact hok a
  | error e => exact ensures_pure fun trace hmid => herror trace e hmid

/-- The single call that `c` is. -/
theorem ensures_call {c : Call} {post : Trace Call Answer → Answer c → Prop}
    (hallowed : ∀ trace answer, pre trace → allowed trace ⟨c, answer⟩)
    (hpost : ∀ trace answer, pre trace → post (trace ++ [⟨c, answer⟩]) answer) :
    Ensures allowed pre (liftM (Program.perform c) : StateT σ (Program Call Answer) (Answer c))
      post :=
  fun _ past hpre answer => ⟨hallowed past answer hpre, hpost past answer hpre⟩

theorem ends_map {f : α → β} {s s' : σ} {trace : Trace Call Answer} {a : α}
    (h : (act.run s).Ends trace (a, s')) : ((f <$> act).run s).Ends trace (f a, s') := by
  have hret : (Program.ret (f a, s') : Program Call Answer (β × σ)).Ends [] (f a, s') := .ret _
  have hbind := h.bind (f := fun p => Program.ret (f p.1, p.2)) hret
  rwa [List.append_nil] at hbind

/-- What more calls do not undo stays. -/
theorem Ensures.stays (h : Ensures allowed pre act post) {P : Trace Call Answer → Prop}
    (hP : ∀ trace more, P trace → P (trace ++ more)) :
    Ensures allowed (fun trace => pre trace ∧ P trace) act fun trace a => post trace a ∧ P trace := by
  intro s past ⟨hpre, hpast⟩
  refine (h s past hpre).self.mono fun trace result hself => ?_
  obtain ⟨hpost, own, rfl, _⟩ := hself
  exact ⟨hpost, hP past own hpast⟩

/-- Runs of a program keep to what it ensures. -/
theorem Ensures.ends (h : Ensures allowed pre act post) {s s' : σ} {trace : Trace Call Answer}
    {a : α} (hpre : pre []) (hends : (act.run s).Ends trace (a, s')) : post trace a :=
  (h s [] hpre).ends hends

theorem Ensures.bindLift {act : StateT σ (Program Call Answer) α}
    {f : α → ExceptT ε (StateT σ (Program Call Answer)) β}
    {mid : Trace Call Answer → α → Prop} {post : Trace Call Answer → Except ε β → Prop}
    (h : Ensures allowed pre act mid)
    (hf : ∀ a, Ensures allowed (fun trace => mid trace a) (f a).run post) :
    Ensures allowed pre (ExceptT.lift act >>= f).run post := by
  have hlift : Ensures allowed pre (ExceptT.lift act : ExceptT ε _ α).run fun trace result =>
      ∃ a, result = .ok a ∧ mid trace a :=
    Ensures.map (h.mono (fun _ => id) fun trace a hmid => ⟨a, rfl, hmid⟩)
  refine Ensures.bindE hlift (fun a => ?_) fun trace e ⟨a, hfalse, _⟩ => (by cases hfalse)
  refine (hf a).mono (fun trace ⟨a', ha, hmid⟩ => ?_) fun _ _ => id
  obtain rfl := Except.ok.inj ha
  exact hmid

theorem ensures_liftM {p : Program Call Answer α}
    (h : ∀ past, pre past → p.Keeps allowed past post) :
    Ensures allowed pre (liftM p : StateT σ (Program Call Answer) α) post :=
  fun _ past hpre => (h past hpre).bind fun _ _ hmid => hmid

/-! ### Calls that are not answered -/

/-- From any state, after calls of which `pre` holds: where the program makes a call of `bad`,
`holds` of the calls before it. -/
def Breaks (bad : Call → Prop) (pre : Trace Call Answer → Prop)
    (act : StateT σ (Program Call Answer) α) (holds : Trace Call Answer → Prop) : Prop :=
  ∀ s past, pre past → (act.run s).Before bad holds past

/-- The program makes no call of `bad`. -/
abbrev Unbroken (bad : Call → Prop) (act : StateT σ (Program Call Answer) α) : Prop :=
  Breaks bad (fun _ => True) act fun _ => False

variable {bad : Call → Prop} {holds : Trace Call Answer → Prop}

theorem Breaks.mono {pre' holds' : Trace Call Answer → Prop} (h : Breaks bad pre act holds)
    (hpre : ∀ trace, pre' trace → pre trace) (himp : ∀ trace, holds trace → holds' trace) :
    Breaks bad pre' act holds' :=
  fun s past hpast => (h s past (hpre past hpast)).mono himp

theorem Breaks.bind {f : α → StateT σ (Program Call Answer) β}
    {mid : Trace Call Answer → α → Prop} (h : Breaks bad pre act holds)
    (hmid : Ensures allowed pre act mid) (hf : ∀ a, Breaks bad (fun trace => mid trace a) (f a) holds) :
    Breaks bad pre (act >>= f) holds :=
  fun s past hpre => (h s past hpre).bind (hmid s past hpre) fun trace (a, next) hpast =>
    hf a next trace hpast

theorem Breaks.bindE {act : ExceptT ε (StateT σ (Program Call Answer)) α}
    {f : α → ExceptT ε (StateT σ (Program Call Answer)) β}
    {mid : Trace Call Answer → Except ε α → Prop} (h : Breaks bad pre act.run holds)
    (hmid : Ensures allowed pre act.run mid)
    (hf : ∀ a, Breaks bad (fun trace => mid trace (.ok a)) (f a).run holds) :
    Breaks bad pre (act >>= f).run holds := by
  refine Breaks.bind h hmid fun result => ?_
  cases result with
  | ok a => exact hf a
  | error e => exact fun _ _ _ => trivial

theorem Breaks.bindLift {f : α → ExceptT ε (StateT σ (Program Call Answer)) β}
    {mid : Trace Call Answer → α → Prop} (h : Breaks bad pre act holds)
    (hmid : Ensures allowed pre act mid)
    (hf : ∀ a, Breaks bad (fun trace => mid trace a) (f a).run holds) :
    Breaks bad pre (ExceptT.lift act >>= f).run holds := by
  have hlift : Ensures allowed pre (ExceptT.lift act : ExceptT ε _ α).run fun trace result =>
      ∃ a, result = .ok a ∧ mid trace a :=
    Ensures.map (hmid.mono (fun _ => id) fun trace a hpast => ⟨a, rfl, hpast⟩)
  have hbreaks : Breaks bad pre (ExceptT.lift act : ExceptT ε _ α).run holds := fun s past hpre =>
    (h s past hpre).bind (hmid s past hpre) fun _ _ _ => trivial
  refine Breaks.bindE hbreaks hlift fun a => ?_
  refine (hf a).mono (fun trace ⟨a', ha, hpast⟩ => ?_) fun _ => id
  obtain rfl := Except.ok.inj ha
  exact hpast

theorem ensures_anything (act : StateT σ (Program Call Answer) α) :
    Ensures (fun _ _ => True) pre act fun _ _ => True :=
  fun s past _ => Program.keeps_anything (act.run s) past

theorem unbroken_pure (a : α) : Unbroken bad (pure a : StateT σ (Program Call Answer) α) :=
  fun _ _ _ => trivial

theorem unbroken_call {c : Call} (h : ¬ bad c) :
    Unbroken bad (liftM (Program.perform c) : StateT σ (Program Call Answer) (Answer c)) :=
  fun _ _ _ => ⟨h, fun _ => trivial⟩

theorem Unbroken.bind {f : α → StateT σ (Program Call Answer) β} (h : Unbroken bad act)
    (hf : ∀ a, Unbroken bad (f a)) : Unbroken bad (act >>= f) :=
  Breaks.bind h (ensures_anything act) hf

theorem Unbroken.bindE {act : ExceptT ε (StateT σ (Program Call Answer)) α}
    {f : α → ExceptT ε (StateT σ (Program Call Answer)) β} (h : Unbroken bad act.run)
    (hf : ∀ a, Unbroken bad (f a).run) : Unbroken bad (act >>= f).run :=
  Breaks.bindE h (ensures_anything act.run) hf

theorem Unbroken.bindLift {f : α → ExceptT ε (StateT σ (Program Call Answer)) β}
    (h : Unbroken bad act) (hf : ∀ a, Unbroken bad (f a).run) :
    Unbroken bad (ExceptT.lift act >>= f).run :=
  Breaks.bindLift h (ensures_anything act) hf

end Ensures

/-! ## Which calls a program makes -/

section Makes

variable {Call : Type} {Answer : Call → Type} {σ ε α β : Type}

/-- Whatever it is answered, the program makes only calls of `ok`. -/
def Makes (ok : Call → Prop) (act : StateT σ (Program Call Answer) α) : Prop :=
  Ensures (fun _ made => ok made.call) (fun _ => True) act fun _ _ => True

variable {ok : Call → Prop} {act : StateT σ (Program Call Answer) α}

theorem makes_pure (a : α) : Makes ok (pure a : StateT σ (Program Call Answer) α) :=
  ensures_pure fun _ _ => trivial

theorem Makes.bind {f : α → StateT σ (Program Call Answer) β} (h : Makes ok act)
    (hf : ∀ a, Makes ok (f a)) : Makes ok (act >>= f) :=
  Ensures.bind h hf

theorem Makes.bindE {act : ExceptT ε (StateT σ (Program Call Answer)) α}
    {f : α → ExceptT ε (StateT σ (Program Call Answer)) β} (h : Makes ok act.run)
    (hf : ∀ a, Makes ok (f a).run) : Makes ok (act >>= f).run :=
  Ensures.bindE h hf fun _ _ _ => trivial

theorem Makes.bindLift {f : α → ExceptT ε (StateT σ (Program Call Answer)) β} (h : Makes ok act)
    (hf : ∀ a, Makes ok (f a).run) : Makes ok (ExceptT.lift act >>= f).run :=
  Ensures.bindLift h hf

theorem makes_call {c : Call} (h : ok c) :
    Makes ok (liftM (Program.perform c) : StateT σ (Program Call Answer) (Answer c)) :=
  ensures_call (fun _ _ _ => h) fun _ _ _ => trivial

/-- The trace holds a whole run of the program, with the result `a`. -/
def Ran (act : StateT σ (Program Call Answer) α) (a : α) (trace : Trace Call Answer) : Prop :=
  ∃ front own back s s', trace = front ++ own ++ back ∧ (act.run s).Ends own (a, s')

theorem Ran.append {a : α} {trace : Trace Call Answer} (h : Ran act a trace)
    (more : Trace Call Answer) : Ran act a (trace ++ more) := by
  obtain ⟨front, own, back, s, s', rfl, hown⟩ := h
  exact ⟨front, own, back ++ more, s, s', by rw [List.append_assoc, List.append_assoc], hown⟩

/-- A program that makes only calls of `ok` adds a whole run of its own to the trace. -/
theorem Makes.ensuresRun (h : Makes ok act)
    {allowed : Trace Call Answer → Answered Call Answer → Prop} {pre : Trace Call Answer → Prop}
    (hallowed : ∀ trace made, ok made.call → allowed trace made) :
    Ensures allowed pre act fun trace a => ∃ front own s s', trace = front ++ own ∧ pre front ∧
      (act.run s).Ends own (a, s') ∧ ∀ made ∈ own, ok made.call := by
  intro s past hpre
  refine ((h s past trivial).self.weaken hallowed).mono fun trace (a, s') hself => ?_
  obtain ⟨_, own, rfl, hown⟩ := hself
  refine ⟨past, own, s, s', rfl, hpre, hown, fun made hmade => ?_⟩
  obtain ⟨front, back, hsplit⟩ := List.append_of_mem hmade
  exact (h s past trivial).allowed_at hown hsplit

/-- A program that makes only calls of `ok` adds such calls to the trace, and leaves a
whole run of its own there. -/
theorem Makes.ensures (h : Makes ok act)
    {allowed : Trace Call Answer → Answered Call Answer → Prop} {pre : Trace Call Answer → Prop}
    (hallowed : ∀ trace made, ok made.call → allowed trace made) :
    Ensures allowed pre act fun trace a => Ran act a trace ∧
      ∃ front own, trace = front ++ own ∧ pre front ∧ ∀ made ∈ own, ok made.call := by
  refine (h.ensuresRun hallowed).mono (fun _ => id) fun trace a hrun => ?_
  obtain ⟨front, own, s, s', rfl, hpre, hown, hcalls⟩ := hrun
  exact ⟨⟨front, own, [], s, s', (List.append_nil _).symm, hown⟩, front, own, rfl, hpre, hcalls⟩

end Makes

end Prep.Machine
