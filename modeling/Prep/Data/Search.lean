/-
  Data/Search.lean --- depth-first search with two marks, a stack and an output.

  A node is visited once.  Its mark is temporary while the nodes after it are visited
  and permanent from then on, when it also goes to the output.  A node that is met
  under a temporary mark closes a cycle, which is read off the stack.  The search
  takes fuel for its depth; more fuel than there are nodes is enough.
-/
import Prep.Data.Except

set_option autoImplicit false

namespace Prep.Data.Search

variable {α : Type}

/-- The marks, the current path and the output. -/
structure Marks (α : Type) where
  permanent : List α
  temporary : List α
  stack : List α
  order : List α

/-- Why a search stops early. -/
inductive Stop (α : Type) where
  | exhausted
  | cycle (path : List α)

section Definitions

variable [DecidableEq α]

/-- One node.  `fallback` is where a cycle would start whose first node is not on the
stack. -/
def visit (next : α → List α) (fallback : Nat) :
    Nat → α → Marks α → Except (Stop α) (Marks α)
  | 0, _, _ => .error .exhausted
  | fuel + 1, a, m =>
      if a ∈ m.permanent then .ok m
      else if a ∈ m.temporary then
        .error (.cycle (m.stack.drop ((m.stack.idxOf? a).getD fallback) ++ [a]))
      else do
        let m ← (next a).foldlM (fun m b => visit next fallback fuel b m)
          { m with temporary := a :: m.temporary, stack := m.stack ++ [a] }
        return { permanent := a :: m.permanent, temporary := m.temporary.filter (· ≠ a),
                 stack := m.stack.dropLast, order := m.order ++ [a] }

/-- The nodes from `roots` on, each visited in turn. -/
def visitAll (next : α → List α) (fallback fuel : Nat) (roots : List α) (m : Marks α) :
    Except (Stop α) (Marks α) :=
  roots.foldlM (fun m b => visit next fallback fuel b m) m

end Definitions

/-! ## Paths and orders -/

section Paths

variable (next : α → List α)

/-- An edge of the graph. -/
def Edge (a b : α) : Prop := b ∈ next a

/-- The nodes that a path leads to. -/
def Reached (roots : List α) (a : α) : Prop :=
  ∃ root ∈ roots, Relation.ReflTransGen (Edge next) root a

/-- Every node comes after all that it leads to. -/
def Sorted (order : List α) : Prop :=
  ∀ front a back, order = front ++ a :: back → ∀ b ∈ next a, b ∈ front

/-- A path that ends where it starts, and meets no other node twice. -/
def IsCycle (path : List α) : Prop :=
  ∃ a middle, path = a :: middle ++ [a] ∧ (a :: middle).Nodup ∧ path.IsChain (Edge next)

variable {next}

theorem reached_edge {roots : List α} :
    ∀ a b, Reached next roots a → Edge next a b → Reached next roots b := by
  rintro a b ⟨root, hroot, hpath⟩ hedge
  exact ⟨root, hroot, hpath.tail hedge⟩

theorem reached_root {roots : List α} : ∀ a ∈ roots, Reached next roots a :=
  fun a ha => ⟨a, ha, .refl⟩

theorem sorted_concat {order : List α} {a : α} (h : Sorted next order)
    (ha : ∀ b ∈ next a, b ∈ order) : Sorted next (order ++ [a]) := by
  intro front c back heq b hb
  rcases List.eq_nil_or_concat back with rfl | ⟨back, last, rfl⟩
  · obtain ⟨rfl, hc⟩ := List.append_inj' heq rfl
    cases hc
    exact ha b hb
  · have hsplit : order ++ [a] = (front ++ c :: back) ++ [last] := by
      rw [heq, List.concat_eq_append, List.append_assoc, List.cons_append]
    obtain ⟨rfl, _⟩ := List.append_inj' hsplit rfl
    exact h front c back rfl b hb

/-- What a sorted order holds it holds with all that it leads to. -/
theorem Sorted.mem_of_path {order : List α} (h : Sorted next order) {a b : α} (ha : a ∈ order)
    (hpath : Relation.ReflTransGen (Edge next) a b) : b ∈ order := by
  induction hpath with
  | refl => exact ha
  | tail _ hedge ih =>
      obtain ⟨front, back, heq⟩ := List.append_of_mem ih
      rw [heq]
      exact List.mem_append_left _ (h front _ back heq _ hedge)

/-- Along a path a sorted order goes backwards. -/
theorem Sorted.idxOf_lt [DecidableEq α] {order : List α} (h : Sorted next order) (hnodup : order.Nodup)
    {a b : α} (ha : a ∈ order) (hpath : Relation.TransGen (Edge next) a b) :
    order.idxOf b < order.idxOf a := by
  have hedge : ∀ c d, c ∈ order → Edge next c d → order.idxOf d < order.idxOf c := by
    intro c d hc hcd
    obtain ⟨front, back, heq⟩ := List.append_of_mem hc
    have hd := h front c back heq d hcd
    have hfront : c ∉ front := by
      rw [heq] at hnodup
      exact fun hmem => (List.disjoint_of_nodup_append hnodup) hmem List.mem_cons_self
    rw [heq, List.idxOf_append_of_mem hd, List.idxOf_append_of_notMem hfront,
      List.idxOf_cons_self, Nat.add_zero]
    exact List.idxOf_lt_length_of_mem hd
  induction hpath with
  | single hab => exact hedge a _ ha hab
  | tail hpath hab ih =>
      exact (hedge _ _ (h.mem_of_path ha hpath.to_reflTransGen) hab).trans ih

/-- No cycle goes through a sorted order. -/
theorem Sorted.acyclic [DecidableEq α] {order : List α} (h : Sorted next order) (hnodup : order.Nodup)
    {a : α} (ha : a ∈ order) : ¬ Relation.TransGen (Edge next) a a :=
  fun hpath => (h.idxOf_lt hnodup ha hpath).false

/-- A chain of edges is a path. -/
theorem path_of_isChain {a b : α} {middle : List α}
    (h : (a :: middle ++ [b]).IsChain (Edge next)) : Relation.TransGen (Edge next) a b := by
  induction middle generalizing a with
  | nil =>
      rw [List.cons_append, List.nil_append, List.isChain_pair] at h
      exact .single h
  | cons c middle ih =>
      rw [List.cons_append, List.cons_append, List.isChain_cons_cons] at h
      exact .head h.1 (ih h.2)

theorem IsCycle.path {path : List α} (h : IsCycle next path) :
    ∃ a ∈ path, Relation.TransGen (Edge next) a a := by
  obtain ⟨a, middle, rfl, _, hchain⟩ := h
  exact ⟨a, List.mem_cons_self, path_of_isChain hchain⟩

end Paths

/-! ## What a visit keeps -/

/-- The marks agree with the stack and the output, the stack is a path, and the output
is sorted. -/
structure Good (next : α → List α) (reached : α → Prop) (m : Marks α) : Prop where
  finished : ∀ a, a ∈ m.permanent ↔ a ∈ m.order
  open_ : ∀ a, a ∈ m.temporary ↔ a ∈ m.stack
  order_nodup : m.order.Nodup
  stack_nodup : m.stack.Nodup
  sorted : Sorted next m.order
  path : m.stack.IsChain (Edge next)
  apart : ∀ a ∈ m.stack, a ∉ m.order
  order_reached : ∀ a ∈ m.order, reached a
  stack_reached : ∀ a ∈ m.stack, reached a

/-- What a visit leaves as it was: the stack, and what is already in the output. -/
def Extends (m t : Marks α) : Prop := t.stack = m.stack ∧ m.order <+: t.order

section Visit

variable {next : α → List α} {fallback : Nat} {reached : α → Prop}

theorem Extends.refl (m : Marks α) : Extends m m := ⟨rfl, List.prefix_refl _⟩

theorem Extends.trans {m t u : Marks α} (h : Extends m t) (h' : Extends t u) : Extends m u :=
  ⟨h'.1.trans h.1, h.2.trans h'.2⟩

theorem good_empty : Good next reached ⟨[], [], [], []⟩ where
  finished _ := Iff.rfl
  open_ _ := Iff.rfl
  order_nodup := List.nodup_nil
  stack_nodup := List.nodup_nil
  sorted front a back h := by
    rw [eq_comm, List.append_eq_nil_iff] at h
    cases h.2
  path := List.isChain_nil
  apart _ h := absurd h List.not_mem_nil
  order_reached _ h := absurd h List.not_mem_nil
  stack_reached _ h := absurd h List.not_mem_nil

/-- The marks when a node has been put on the stack. -/
theorem Good.push {m : Marks α} (h : Good next reached m) {a : α} (ha : reached a)
    (hpermanent : a ∉ m.permanent) (htemporary : a ∉ m.temporary)
    (hedge : ∀ last ∈ m.stack.getLast?, Edge next last a) :
    Good next reached { m with temporary := a :: m.temporary, stack := m.stack ++ [a] } where
  finished := h.finished
  open_ b := by
    rw [List.mem_cons, List.mem_append, List.mem_singleton, h.open_ b, or_comm]
  order_nodup := h.order_nodup
  stack_nodup := by
    refine List.nodup_append.mpr ⟨h.stack_nodup, List.nodup_singleton a, ?_⟩
    rintro b hb c hc rfl
    rw [List.mem_singleton] at hc
    exact htemporary ((h.open_ a).mpr (hc ▸ hb))
  sorted := h.sorted
  path := by
    refine h.path.append (List.isChain_singleton a) ?_
    rintro last hlast first hfirst
    rw [List.head?_cons, Option.mem_some_iff] at hfirst
    exact hfirst ▸ hedge last hlast
  apart b hb := by
    rcases List.mem_append.mp hb with hb | hb
    · exact h.apart b hb
    · rw [List.mem_singleton.mp hb]
      exact fun hmem => hpermanent ((h.finished a).mpr hmem)
  order_reached := h.order_reached
  stack_reached b hb := by
    rcases List.mem_append.mp hb with hb | hb
    · exact h.stack_reached b hb
    · exact List.mem_singleton.mp hb ▸ ha

variable [DecidableEq α]

/-- The marks when a node has been taken off the stack again. -/
theorem Good.pop {t : Marks α} {stack : List α} {a : α} (h : Good next reached t)
    (hstack : t.stack = stack ++ [a]) (hnext : ∀ b ∈ next a, b ∈ t.order) :
    Good next reached { permanent := a :: t.permanent, temporary := t.temporary.filter (· ≠ a),
                        stack := t.stack.dropLast, order := t.order ++ [a] } where
  finished b := by
    rw [List.mem_cons, List.mem_append, List.mem_singleton, h.finished b, or_comm]
  open_ b := by
    have hnodup := h.stack_nodup
    rw [hstack] at hnodup
    have hnot : a ∉ stack := fun hmem =>
      (List.disjoint_of_nodup_append hnodup) hmem (List.mem_singleton_self a)
    rw [List.mem_filter, h.open_ b, hstack, List.dropLast_concat, List.mem_append,
      List.mem_singleton, decide_eq_true_eq]
    constructor
    · rintro ⟨hb | hb, hne⟩
      · exact hb
      · exact absurd hb hne
    · intro hb
      exact ⟨Or.inl hb, fun heq => hnot (heq ▸ hb)⟩
  order_nodup := by
    refine List.nodup_append.mpr ⟨h.order_nodup, List.nodup_singleton a, ?_⟩
    rintro b hb c hc rfl
    rw [List.mem_singleton] at hc
    exact h.apart a (by rw [hstack]; exact List.mem_append_right _ (List.mem_singleton_self a))
      (hc ▸ hb)
  stack_nodup := by
    rw [hstack, List.dropLast_concat]
    exact (List.nodup_append.mp (hstack ▸ h.stack_nodup)).1
  sorted := sorted_concat h.sorted hnext
  path := h.path.dropLast
  apart b hb hmem := by
    have hnodup := h.stack_nodup
    rw [hstack] at hnodup
    rw [hstack, List.dropLast_concat] at hb
    rcases List.mem_append.mp hmem with hmem | hmem
    · exact h.apart b (by rw [hstack]; exact List.mem_append_left _ hb) hmem
    · exact (List.disjoint_of_nodup_append hnodup) hb hmem
  order_reached b hb := by
    rcases List.mem_append.mp hb with hb | hb
    · exact h.order_reached b hb
    · refine h.stack_reached b ?_
      rw [hstack]
      exact List.mem_append_right _ hb
  stack_reached b hb := h.stack_reached b (List.dropLast_subset _ hb)

/-- The end of the stack from a node of it on, with that node again, is a cycle. -/
theorem Good.cycle {m : Marks α} (h : Good next reached m) {a : α} (ha : a ∈ m.stack)
    (hedge : ∀ last ∈ m.stack.getLast?, Edge next last a) :
    IsCycle next (m.stack.drop ((m.stack.idxOf? a).getD fallback) ++ [a]) ∧
      ∀ b ∈ m.stack.drop ((m.stack.idxOf? a).getD fallback) ++ [a], reached b := by
  obtain ⟨index, hindex⟩ := Option.isSome_iff_exists.mp (List.isSome_idxOf?.mpr ha)
  obtain ⟨hlt, hget, _⟩ := List.idxOf?_eq_some_iff.mp hindex
  have hdrop : m.stack.drop index = a :: m.stack.drop (index + 1) := by
    rw [List.drop_eq_getElem_cons hlt, hget]
  rw [hindex, Option.getD_some]
  refine ⟨⟨a, m.stack.drop (index + 1), by rw [hdrop], ?_, ?_⟩, ?_⟩
  · rw [← hdrop]
    exact h.stack_nodup.sublist (List.drop_sublist _ _)
  · refine (h.path.drop index).append (List.isChain_singleton a) ?_
    intro last hlast first hfirst
    rw [List.head?_cons, Option.mem_some_iff] at hfirst
    refine hfirst ▸ hedge last ?_
    rw [List.getLast?_drop] at hlast
    split at hlast
    · cases hlast
    · exact hlast
  · intro b hb
    rcases List.mem_append.mp hb with hb | hb
    · exact h.stack_reached b (List.drop_subset _ _ hb)
    · exact List.mem_singleton.mp hb ▸ h.stack_reached a ha

/-- What comes of a visit that does not run out of fuel. -/
def Outcome (next : α → List α) (reached : α → Prop) (m : Marks α) (nodes : List α) :
    Except (Stop α) (Marks α) → Prop
  | .ok t => Good next reached t ∧ Extends m t ∧ ∀ a ∈ nodes, a ∈ t.order
  | .error (.cycle path) => IsCycle next path ∧ ∀ a ∈ path, reached a
  | .error .exhausted => True

/-- The visits of several nodes, when each of them alone does what it should. -/
theorem outcome_foldlM {fuel : Nat}
    (hvisit : ∀ a m, Good next reached m → reached a →
      (∀ last ∈ m.stack.getLast?, Edge next last a) →
      Outcome next reached m [a] (visit next fallback fuel a m))
    (nodes : List α) : ∀ {m : Marks α}, Good next reached m → (∀ a ∈ nodes, reached a) →
      (∀ last ∈ m.stack.getLast?, ∀ a ∈ nodes, Edge next last a) →
      Outcome next reached m nodes (visitAll next fallback fuel nodes m) := by
  induction nodes with
  | nil => exact fun hm _ _ => ⟨hm, Extends.refl _, fun a ha => absurd ha List.not_mem_nil⟩
  | cons a nodes ih =>
      intro m hm hreached hedge
      have hfirst := hvisit a m hm (hreached a List.mem_cons_self)
        fun last hlast => hedge last hlast a List.mem_cons_self
      unfold visitAll
      rw [List.foldlM_cons]
      cases hresult : visit next fallback fuel a m with
      | error stop =>
          rw [hresult] at hfirst
          cases stop with
          | exhausted => trivial
          | cycle path => exact hfirst
      | ok t =>
          rw [hresult] at hfirst
          obtain ⟨ht, hextends, hmem⟩ := hfirst
          have hrest := @ih t ht (fun b hb => hreached b (List.mem_cons_of_mem _ hb))
            (fun last hlast b hb => hedge last (hextends.1 ▸ hlast) b (List.mem_cons_of_mem _ hb))
          show Outcome next reached m (a :: nodes) (visitAll next fallback fuel nodes t)
          cases hlast : visitAll next fallback fuel nodes t with
          | error stop =>
              rw [hlast] at hrest
              cases stop with
              | exhausted => trivial
              | cycle path => exact hrest
          | ok u =>
              rw [hlast] at hrest
              obtain ⟨hu, hextends', hmem'⟩ := hrest
              refine ⟨hu, hextends.trans hextends', fun b hb => ?_⟩
              rcases List.mem_cons.mp hb with rfl | hb
              · exact hextends'.2.subset (hmem b (List.mem_singleton_self b))
              · exact hmem' b hb

/-- A visit sorts what its node leads to, or finds a cycle there. -/
theorem outcome_visit (hreached : ∀ a b, reached a → Edge next a b → reached b) (fuel : Nat) :
    ∀ a m, Good next reached m → reached a → (∀ last ∈ m.stack.getLast?, Edge next last a) →
      Outcome next reached m [a] (visit next fallback fuel a m) := by
  induction fuel with
  | zero => exact fun a m _ _ _ => trivial
  | succ fuel ih =>
      intro a m hm ha hedge
      rw [visit]
      split
      · rename_i hpermanent
        refine ⟨hm, Extends.refl m, fun b hb => ?_⟩
        rw [List.mem_singleton.mp hb]
        exact (hm.finished a).mp hpermanent
      · rename_i hpermanent
        split
        · rename_i htemporary
          exact hm.cycle ((hm.open_ a).mp htemporary) hedge
        · rename_i htemporary
          have hpush := hm.push ha hpermanent htemporary hedge
          have hnext := outcome_foldlM ih (next a) hpush
            (fun b hb => hreached a b ha hb) (fun last hlast b hb => by
              rw [List.getLast?_concat, Option.mem_some_iff] at hlast
              exact hlast ▸ hb)
          unfold visitAll at hnext
          cases hresult : (next a).foldlM (fun m b => visit next fallback fuel b m)
              { m with temporary := a :: m.temporary, stack := m.stack ++ [a] } with
          | error stop =>
              rw [hresult] at hnext
              cases stop with
              | exhausted => trivial
              | cycle path => exact hnext
          | ok t =>
              rw [hresult] at hnext
              obtain ⟨ht, hextends, hmem⟩ := hnext
              refine ⟨ht.pop hextends.1 hmem, ⟨?_, ?_⟩, fun b hb => ?_⟩
              · show t.stack.dropLast = m.stack
                rw [hextends.1, List.dropLast_concat]
              · exact hextends.2.trans (List.prefix_append _ _)
              · exact List.mem_append_right _ hb

/-! ## Fuel -/

/-- The nodes that are not on the stack. -/
def unvisited (nodes : List α) (m : Marks α) : Nat := (nodes.filter (· ∉ m.stack)).length

theorem unvisited_push {nodes : List α} {m : Marks α} {a : α} (ha : a ∈ nodes)
    (hstack : a ∉ m.stack) :
    unvisited nodes { m with temporary := a :: m.temporary, stack := m.stack ++ [a] } <
      unvisited nodes m := by
  unfold unvisited
  have hfilter : nodes.filter (· ∉ m.stack ++ [a]) =
      (nodes.filter (· ∉ m.stack)).filter (· ≠ a) := by
    rw [List.filter_filter]
    refine List.filter_congr fun b _ => ?_
    rw [← Bool.decide_and]
    refine decide_eq_decide.mpr ?_
    rw [List.mem_append, List.mem_singleton, not_or, and_comm]
  rw [hfilter]
  refine List.length_filter_lt_length_iff_exists.mpr ⟨a, ?_, ?_⟩
  · exact List.mem_filter.mpr ⟨ha, decide_eq_true hstack⟩
  · simp

theorem unvisited_of_extends {nodes : List α} {m t : Marks α} (h : Extends m t) :
    unvisited nodes t = unvisited nodes m := by
  unfold unvisited
  rw [h.1]

/-- The visits of several nodes have enough fuel when each of them has. -/
theorem visitAll_ne_exhausted {nodes : List α}
    (hreached : ∀ a b, reached a → Edge next a b → reached b) {fuel : Nat}
    (hvisit : ∀ a m, Good next reached m → reached a →
      (∀ last ∈ m.stack.getLast?, Edge next last a) → unvisited nodes m < fuel →
      visit next fallback fuel a m ≠ .error .exhausted)
    (targets : List α) : ∀ {m : Marks α}, Good next reached m → (∀ a ∈ targets, reached a) →
      (∀ last ∈ m.stack.getLast?, ∀ a ∈ targets, Edge next last a) → unvisited nodes m < fuel →
      visitAll next fallback fuel targets m ≠ .error .exhausted := by
  induction targets with
  | nil => exact fun _ _ _ _ h => (by cases h)
  | cons a targets ih =>
      intro m hm htargets hedge hfuel
      have ha := htargets a List.mem_cons_self
      have hlast : ∀ last ∈ m.stack.getLast?, Edge next last a :=
        fun last hlast => hedge last hlast a List.mem_cons_self
      have hfirst := hvisit a m hm ha hlast hfuel
      have houtcome : Outcome next reached m [a] (visit next fallback fuel a m) :=
        outcome_visit hreached fuel a m hm ha hlast
      unfold visitAll
      rw [List.foldlM_cons]
      cases hresult : visit next fallback fuel a m with
      | error stop =>
          rw [hresult] at hfirst
          intro h
          cases h
          exact hfirst rfl
      | ok t =>
          rw [hresult] at houtcome
          obtain ⟨ht, hextends, _⟩ := houtcome
          refine @ih t ht (fun b hb => htargets b (List.mem_cons_of_mem _ hb))
            (fun last hlast b hb => hedge last (hextends.1 ▸ hlast) b (List.mem_cons_of_mem _ hb)) ?_
          rw [unvisited_of_extends hextends]
          exact hfuel

/-- More fuel than there are nodes off the stack is enough. -/
theorem visit_ne_exhausted {nodes : List α} (hnodes : ∀ a, a ∉ nodes → next a = [])
    (hreached : ∀ a b, reached a → Edge next a b → reached b) (fuel : Nat) :
    ∀ a m, Good next reached m → reached a → (∀ last ∈ m.stack.getLast?, Edge next last a) →
      unvisited nodes m < fuel → visit next fallback fuel a m ≠ .error .exhausted := by
  induction fuel with
  | zero => exact fun a m _ _ _ hfuel => absurd hfuel (Nat.not_lt_zero _)
  | succ fuel ih =>
      intro a m hm ha hedge hfuel
      rw [visit]
      split
      · exact fun h => (by cases h)
      · rename_i hpermanent
        split
        · exact fun h => (by cases h)
        · rename_i htemporary
          have hpush := hm.push ha hpermanent htemporary hedge
          by_cases hmem : a ∈ nodes
          · have hless : unvisited nodes
                { m with temporary := a :: m.temporary, stack := m.stack ++ [a] } < fuel := by
              have hpushed := @unvisited_push α _ nodes m a hmem
                (fun hstack => htemporary ((hm.open_ a).mpr hstack))
              omega
            have hall := visitAll_ne_exhausted hreached ih (next a) hpush
              (fun b hb => hreached a b ha hb) (fun last hlast b hb => by
                rw [List.getLast?_concat, Option.mem_some_iff] at hlast
                exact hlast ▸ hb) hless
            unfold visitAll at hall
            cases hresult : (next a).foldlM (fun m b => visit next fallback fuel b m)
                { m with temporary := a :: m.temporary, stack := m.stack ++ [a] } with
            | error stop =>
                rw [hresult] at hall
                intro h
                cases h
                exact hall rfl
            | ok t => exact fun h => (by cases h)
          · rw [hnodes a hmem]
            exact fun h => (by cases h)

/-! ## The fallback -/

/-- Several visits take no fallback when none of them does. -/
theorem visitAll_fallback (hreached : ∀ a b, reached a → Edge next a b → reached b)
    {other fuel : Nat}
    (hvisit : ∀ a m, Good next reached m → reached a →
      (∀ last ∈ m.stack.getLast?, Edge next last a) →
      visit next fallback fuel a m = visit next other fuel a m)
    (targets : List α) : ∀ {m : Marks α}, Good next reached m → (∀ a ∈ targets, reached a) →
      (∀ last ∈ m.stack.getLast?, ∀ a ∈ targets, Edge next last a) →
      visitAll next fallback fuel targets m = visitAll next other fuel targets m := by
  induction targets with
  | nil => exact fun _ _ _ => rfl
  | cons a targets ih =>
      intro m hm htargets hedge
      have ha := htargets a List.mem_cons_self
      have hlast : ∀ last ∈ m.stack.getLast?, Edge next last a :=
        fun last hlast => hedge last hlast a List.mem_cons_self
      have houtcome : Outcome next reached m [a] (visit next fallback fuel a m) :=
        outcome_visit hreached fuel a m hm ha hlast
      unfold visitAll
      rw [List.foldlM_cons, List.foldlM_cons, ← hvisit a m hm ha hlast]
      cases hresult : visit next fallback fuel a m with
      | error stop => rfl
      | ok t =>
          rw [hresult] at houtcome
          obtain ⟨ht, hextends, _⟩ := houtcome
          exact @ih t ht (fun b hb => htargets b (List.mem_cons_of_mem _ hb))
            (fun last hlast b hb => hedge last (hextends.1 ▸ hlast) b (List.mem_cons_of_mem _ hb))

/-- The fallback is never taken: a node under a temporary mark is on the stack. -/
theorem visit_fallback (hreached : ∀ a b, reached a → Edge next a b → reached b)
    (other fuel : Nat) :
    ∀ a m, Good next reached m → reached a → (∀ last ∈ m.stack.getLast?, Edge next last a) →
      visit next fallback fuel a m = visit next other fuel a m := by
  induction fuel with
  | zero => exact fun a m _ _ _ => rfl
  | succ fuel ih =>
      intro a m hm ha hedge
      rw [visit, visit]
      split
      · rfl
      · rename_i hpermanent
        split
        · rename_i htemporary
          have hsome := List.isSome_idxOf?.mpr ((hm.open_ a).mp htemporary)
          obtain ⟨index, hindex⟩ := Option.isSome_iff_exists.mp hsome
          rw [hindex]
          rfl
        · rename_i htemporary
          have hpush := hm.push ha hpermanent htemporary hedge
          have hall := visitAll_fallback hreached ih (next a) hpush
            (fun b hb => hreached a b ha hb) (fun last hlast b hb => by
              rw [List.getLast?_concat, Option.mem_some_iff] at hlast
              exact hlast ▸ hb)
          unfold visitAll at hall
          rw [hall]

end Visit

/-! ## The whole search -/

section Search

variable [DecidableEq α] (next : α → List α) (fallback : Nat) (nodes roots : List α)

/-- The search from `roots` in a graph with edges from `nodes` only. -/
def searched : Except (Stop α) (Marks α) :=
  visitAll next fallback (nodes.length + 1) roots ⟨[], [], [], []⟩

variable {next fallback nodes roots}

/-- The search does not run out of fuel. -/
theorem searched_ne_exhausted (hnodes : ∀ a, a ∉ nodes → next a = []) :
    searched next fallback nodes roots ≠ .error .exhausted := by
  refine visitAll_ne_exhausted reached_edge
    (fun a m => visit_ne_exhausted hnodes reached_edge (nodes.length + 1) a m) roots
    good_empty reached_root (fun last hlast => by cases hlast) ?_
  exact Nat.lt_succ_of_le (List.length_filter_le _ _)

theorem outcome_searched :
    Outcome next (Reached next roots) ⟨[], [], [], []⟩ roots
      (searched next fallback nodes roots) :=
  outcome_foldlM (fun a m => outcome_visit reached_edge (nodes.length + 1) a m)
    roots good_empty reached_root (fun last hlast => by cases hlast)

theorem searched_fallback (other : Nat) :
    searched next fallback nodes roots = searched next other nodes roots :=
  visitAll_fallback reached_edge
    (fun a m => visit_fallback reached_edge other (nodes.length + 1) a m) roots good_empty
    reached_root (fun last hlast => by cases hlast)

variable (next fallback nodes roots) in
/-- The output of the search, or the cycle it has met. -/
def depthFirst (hnodes : ∀ a, a ∉ nodes → next a = []) : Except (List α) (List α) :=
  match h : searched next fallback nodes roots with
  | .ok m => .ok m.order
  | .error (.cycle path) => .error path
  | .error .exhausted => absurd h (searched_ne_exhausted hnodes)

variable {hnodes : ∀ a, a ∉ nodes → next a = []}

theorem depthFirst_fallback (other : Nat) :
    depthFirst next fallback nodes roots hnodes = depthFirst next other nodes roots hnodes := by
  unfold depthFirst
  have h : searched next fallback nodes roots = searched next other nodes roots :=
    searched_fallback other
  split <;> split <;> simp_all

/-- The output is the nodes reached, each once and after all that it leads to. -/
theorem depthFirst_ok {order : List α}
    (h : depthFirst next fallback nodes roots hnodes = .ok order) :
    order.Nodup ∧ (∀ a, a ∈ order ↔ Reached next roots a) ∧ Sorted next order := by
  have houtcome := @outcome_searched α _ next fallback nodes roots
  unfold depthFirst at h
  split at h
  · rename_i m hm
    cases h
    rw [hm] at houtcome
    obtain ⟨hgood, _, hroots⟩ := houtcome
    refine ⟨hgood.order_nodup, fun a => ⟨hgood.order_reached a, ?_⟩, hgood.sorted⟩
    rintro ⟨root, hroot, hpath⟩
    exact hgood.sorted.mem_of_path (hroots root hroot) hpath
  · cases h
  · rename_i hexhausted
    exact absurd hexhausted (searched_ne_exhausted hnodes)

/-- What is met is a cycle of nodes reached. -/
theorem depthFirst_error {path : List α}
    (h : depthFirst next fallback nodes roots hnodes = .error path) :
    IsCycle next path ∧ ∀ a ∈ path, Reached next roots a := by
  have houtcome := @outcome_searched α _ next fallback nodes roots
  unfold depthFirst at h
  split at h
  · cases h
  · rename_i hm
    cases h
    rw [hm] at houtcome
    exact houtcome
  · rename_i hexhausted
    exact absurd hexhausted (searched_ne_exhausted hnodes)

/-- The search meets a cycle exactly when one can be reached. -/
theorem depthFirst_error_iff :
    (∃ path, depthFirst next fallback nodes roots hnodes = .error path) ↔
      ∃ a, Reached next roots a ∧ Relation.TransGen (Edge next) a a := by
  constructor
  · rintro ⟨path, h⟩
    obtain ⟨hcycle, hall⟩ := depthFirst_error h
    obtain ⟨a, ha, hpath⟩ := hcycle.path
    exact ⟨a, hall a ha, hpath⟩
  · rintro ⟨a, ha, hpath⟩
    cases h : depthFirst next fallback nodes roots hnodes with
    | error path => exact ⟨path, rfl⟩
    | ok order =>
        obtain ⟨hnodup, hmem, hsorted⟩ := depthFirst_ok h
        exact absurd hpath (hsorted.acyclic hnodup ((hmem a).mpr ha))

end Search

end Prep.Data.Search
