/-
  Data/Effect.lean --- computations that change a state and may stop with an error.

  `Yields` is a weakest precondition: from one state the computation ends with a value
  and a state that the postcondition holds of, or stops with one of the errors it is
  allowed to stop with.
-/
import Mathlib.Data.List.Basic

set_option autoImplicit false

namespace Prep.Data

universe u

variable {ε σ α β : Type u}

/-- From a state, a computation ends as `post` says or stops as `stop` says. -/
def Yields (stop : ε → Prop) (s : σ) (act : ExceptT ε (StateM σ) α) (post : α → σ → Prop) :
    Prop :=
  match act.run s with
  | (.ok a, s') => post a s'
  | (.error e, _) => stop e

variable {stop : ε → Prop} {s : σ}

theorem yields_pure {a : α} {post : α → σ → Prop} (h : post a s) :
    Yields stop s (pure a) post := h

theorem Yields.of_ok {act : ExceptT ε (StateM σ) α} {post : α → σ → Prop}
    (h : Yields stop s act post) {a : α} {s' : σ} (hrun : act.run s = (.ok a, s')) : post a s' := by
  unfold Yields at h
  rw [hrun] at h
  exact h

theorem Yields.of_error {act : ExceptT ε (StateM σ) α} {post : α → σ → Prop}
    (h : Yields stop s act post) {e : ε} {s' : σ} (hrun : act.run s = (.error e, s')) :
    stop e := by
  unfold Yields at h
  rw [hrun] at h
  exact h

theorem run_bind_eq (act : ExceptT ε (StateM σ) α) (next : α → ExceptT ε (StateM σ) β) (s : σ) :
    (act >>= next).run s =
      match act.run s with
      | (.ok a, s') => (next a).run s'
      | (.error e, s') => (.error e, s') := by
  show (ExceptT.bindCont next (act.run s).1).run (act.run s).2 = _
  rcases act.run s with ⟨_ | _, _⟩ <;> rfl

theorem Yields.bind {act : ExceptT ε (StateM σ) α} {next : α → ExceptT ε (StateM σ) β}
    {mid : α → σ → Prop} {post : β → σ → Prop} (h : Yields stop s act mid)
    (hnext : ∀ a s', mid a s' → Yields stop s' (next a) post) :
    Yields stop s (act >>= next) post := by
  unfold Yields at h ⊢
  rw [run_bind_eq]
  split at h
  · rename_i a s' _
    exact hnext a s' h
  · exact h

theorem Yields.mono {act : ExceptT ε (StateM σ) α} {post post' : α → σ → Prop}
    (h : Yields stop s act post) (hpost : ∀ a s', post a s' → post' a s') :
    Yields stop s act post' := by
  unfold Yields at h ⊢
  split at h
  · rename_i a s' _
    exact hpost a s' h
  · exact h

theorem run_lift_bind_eq (act : StateM σ α) (next : α → ExceptT ε (StateM σ) β) (s : σ) :
    ((liftM act : ExceptT ε (StateM σ) α) >>= next).run s = (next (act s).1).run (act s).2 :=
  rfl

/-- A computation that cannot stop goes on with what it returns. -/
theorem yields_lift_bind {act : StateM σ α} {next : α → ExceptT ε (StateM σ) β}
    {post : β → σ → Prop} (h : Yields stop (act s).2 (next (act s).1) post) :
    Yields stop s ((liftM act : ExceptT ε (StateM σ) α) >>= next) post := h

/-- A loop over a list: what holds after each of its passes. -/
theorem yields_foldlM {pass : β → α → ExceptT ε (StateM σ) β} {items : List α}
    {inv : List α → β → σ → Prop}
    (hpass : ∀ done item left b s, items = done ++ item :: left → inv done b s →
      Yields stop s (pass b item) (inv (done ++ [item]))) {b : β} (h : inv [] b s) :
    Yields stop s (items.foldlM pass b) (inv items) := by
  have hrun : ∀ (done left : List α) (b : β) (s : σ), items = done ++ left → inv done b s →
      Yields stop s (left.foldlM pass b) (inv items) := by
    intro done left
    induction left generalizing done with
    | nil =>
        intro b s hitems hinv
        rw [List.append_nil] at hitems
        exact hitems ▸ hinv
    | cons item left ih =>
        intro b s hitems hinv
        rw [List.foldlM_cons]
        refine (hpass done item left b s hitems hinv).bind fun b' s' hinv' => ?_
        exact ih (done ++ [item]) b' s' (by rw [hitems, List.append_cons]) hinv'
  exact hrun [] items b s rfl h

end Prep.Data
