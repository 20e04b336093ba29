/-
  Serde/Bounded.lean --- no string of a tree is longer than the compact text the tree is
  read from.
-/
import Prep.Serde.Compact

set_option autoImplicit false

namespace Prep.Serde.Compact

open Prep.Text

/-! ## Strings and digits -/

theorem length_readString {raw s rest : Bytes} (h : readString raw = some (s, rest)) :
    s.length + rest.length < raw.length := by
  fun_induction readString raw generalizing s with
  | case1 => cases h
  | case2 =>
      cases h
      exact Nat.lt_of_le_of_lt (Nat.zero_add _).le (Nat.lt_succ_self _)
  | case3 high low tail _ ih =>
      obtain ⟨p, hp, heq⟩ := Option.map_eq_some_iff.mp h
      cases heq
      have hlt := ih hp
      simp only [List.length_cons]
      omega
  | case4 c tail _ _ ih =>
      obtain ⟨_, _, hrest⟩ := Option.bind_eq_some_iff.mp h
      obtain ⟨p, hp, heq⟩ := Option.map_eq_some_iff.mp hrest
      cases heq
      have hlt := ih hp
      simp only [List.length_cons]
      omega
  | case5 => cases h
  | case6 b tail hquote hslash ih =>
      obtain ⟨p, hp, heq⟩ := Option.map_eq_some_iff.mp h
      cases heq
      have hlt := ih hp
      simp only [List.length_cons]
      omega

theorem length_readDigits {raw rest : Bytes} {n : Nat} (h : readDigits raw = some (n, rest)) :
    rest.length ≤ raw.length := by
  rw [readDigits] at h
  split at h
  · cases h
  · cases h
    exact (List.dropWhile_suffix _).length_le

theorem length_stripPrefix {word raw rest : Bytes} (h : stripPrefix word raw = some rest) :
    rest.length ≤ raw.length := by
  rw [stripPrefix_eq_some.mp h, List.length_append]
  exact Nat.le_add_left _ _

/-! ## Items and trees -/

/-- What a reader takes from a text of at most `bound` bytes: a value of `Q`, and a rest
that is no longer. -/
def Within {α : Type} (bound : Nat) (Q : α → Prop) (item : Bytes → Option (α × Bytes)) : Prop :=
  ∀ raw a rest, raw.length ≤ bound → item raw = some (a, rest) → rest.length ≤ bound ∧ Q a

section Bounded

variable {α : Type} {bound : Nat} {Q : α → Prop} {item : Bytes → Option (α × Bytes)}

theorem within_readMore (hitem : Within bound Q item) (close : UInt8) :
    ∀ fuel, Within bound (fun items => ∀ a ∈ items, Q a) (readMore item close fuel) := by
  intro fuel
  induction fuel with
  | zero =>
      intro raw items rest hraw h
      rw [readMore] at h
      cases h
  | succ fuel ih =>
      intro raw items rest hraw h
      cases raw with
      | nil => cases h
      | cons b tail =>
          have htail : tail.length ≤ bound := Nat.le_of_succ_le hraw
          rw [readMore] at h
          split at h
          · cases h
            exact ⟨htail, fun a ha => absurd ha List.not_mem_nil⟩
          · split at h
            · obtain ⟨first, hfirst, hmore⟩ := Option.bind_eq_some_iff.mp h
              obtain ⟨p, hp, heq⟩ := Option.map_eq_some_iff.mp hmore
              cases heq
              obtain ⟨hlength, hQ⟩ := hitem _ _ _ htail hfirst
              obtain ⟨hrest, hall⟩ := ih _ _ _ hlength hp
              exact ⟨hrest, List.forall_mem_cons.mpr ⟨hQ, hall⟩⟩
            · cases h

theorem within_readItems (hitem : Within bound Q item) (close : UInt8) :
    Within bound (fun items => ∀ a ∈ items, Q a) (readItems item close) := by
  intro raw items rest hraw h
  rw [readItems] at h
  split at h
  · cases h
    exact ⟨raw.length_tail.trans_le ((Nat.sub_le _ _).trans hraw),
      fun a ha => absurd ha List.not_mem_nil⟩
  · obtain ⟨first, hfirst, hmore⟩ := Option.bind_eq_some_iff.mp h
    obtain ⟨p, hp, heq⟩ := Option.map_eq_some_iff.mp hmore
    cases heq
    obtain ⟨hlength, hQ⟩ := hitem _ _ _ hraw hfirst
    obtain ⟨hrest, hall⟩ := within_readMore hitem close _ _ _ _ hlength hp
    exact ⟨hrest, List.forall_mem_cons.mpr ⟨hQ, hall⟩⟩

end Bounded

section Trees

variable {bound depth : Nat}

theorem within_readScalar {b : UInt8} {tail rest : Bytes} {t : Tree}
    (hraw : (b :: tail).length ≤ bound) (h : readScalar b tail = some (t, rest)) :
    rest.length ≤ bound ∧ t.AllStrings (fun s => s.length ≤ bound) depth := by
  have htail : tail.length ≤ bound := Nat.le_of_succ_le hraw
  rw [readScalar] at h
  split at h
  · obtain ⟨p, hp, heq⟩ := Option.map_eq_some_iff.mp h
    cases heq
    have hlt := length_readString hp
    refine ⟨by omega, ?_⟩
    cases depth <;> exact show p.1.length ≤ bound by omega
  · split at h
    · obtain ⟨p, hp, heq⟩ := Option.map_eq_some_iff.mp h
      cases heq
      exact ⟨(length_readDigits hp).trans htail, by cases depth <;> trivial⟩
    · split at h
      · obtain ⟨p, hp, heq⟩ := Option.map_eq_some_iff.mp h
        cases heq
        exact ⟨(length_stripPrefix hp).trans htail, by cases depth <;> trivial⟩
      · split at h
        · obtain ⟨p, hp, heq⟩ := Option.map_eq_some_iff.mp h
          cases heq
          exact ⟨(length_stripPrefix hp).trans htail, by cases depth <;> trivial⟩
        · split at h
          · obtain ⟨p, hp, heq⟩ := Option.map_eq_some_iff.mp h
            cases heq
            exact ⟨(length_stripPrefix hp).trans htail, by cases depth <;> trivial⟩
          · obtain ⟨p, hp, heq⟩ := Option.map_eq_some_iff.mp h
            cases heq
            exact ⟨(length_readDigits hp).trans hraw, by cases depth <;> trivial⟩

theorem within_readEntry {item : Bytes → Option (Tree × Bytes)}
    (hitem : Within bound (Tree.AllStrings (fun s => s.length ≤ bound) depth) item) :
    Within bound (fun entry => entry.1.length ≤ bound ∧
      entry.2.AllStrings (fun s => s.length ≤ bound) depth) (readEntry item) := by
  intro raw entry rest hraw h
  unfold readEntry at h
  split at h
  · obtain ⟨key, hkey, h⟩ := Option.bind_eq_some_iff.mp h
    obtain ⟨tail, htail, h⟩ := Option.bind_eq_some_iff.mp h
    obtain ⟨p, hp, heq⟩ := Option.map_eq_some_iff.mp h
    cases heq
    rw [List.length_cons] at hraw
    have hlt := length_readString hkey
    have hle := length_stripPrefix htail
    obtain ⟨hrest, hvalue⟩ := hitem _ _ _ (by omega) hp
    exact ⟨hrest, show key.1.length ≤ bound by omega, hvalue⟩
  · cases h

/-- A string of a tree that is read from a text is no longer than the text. -/
theorem within_readAt : ∀ depth : Nat,
    Within bound (Tree.AllStrings (fun s => s.length ≤ bound) depth) (readAt depth) := by
  intro depth
  induction depth with
  | zero =>
      intro raw t rest hraw h
      cases raw with
      | nil => cases h
      | cons b tail => exact within_readScalar hraw h
  | succ depth ih =>
      intro raw t rest hraw h
      cases raw with
      | nil => cases h
      | cons b tail =>
          have htail : tail.length ≤ bound := Nat.le_of_succ_le hraw
          rw [readAt] at h
          split at h
          · obtain ⟨p, hp, heq⟩ := Option.map_eq_some_iff.mp h
            cases heq
            exact within_readItems ih 93 _ _ _ htail hp
          · split at h
            · obtain ⟨p, hp, heq⟩ := Option.map_eq_some_iff.mp h
              cases heq
              exact within_readItems (within_readEntry ih) 125 _ _ _ htail hp
            · exact within_readScalar hraw h

end Trees

end Prep.Serde.Compact
