import NeuralGraph.Proofs.Graph.Made
import NeuralGraph.Proofs.Lowering.Steps
import NeuralGraph.Proofs.Program.Mirrors

/-!
# Two lowerings of one graph

The first lowering gives every node an activation of its own, the second works in place: an activation
function takes the place of its input if no other node uses the input.  `Lowering.Twins` is what they
have in common after `k` nodes: their programs mirror each other, and every value that is still used
has been computed by both.
-/

namespace NeuralGraph
set_option autoImplicit false
variable {α : Type}

namespace Graph
variable {g : Graph α} {k : Nat} {r : Ref}

/-- Variables, and the nodes that are used by node `k` or a later one. -/
def Live (g : Graph α) (k : Nat) : Ref → Prop
  | .var _ => True
  | .node i => ∃ j n, k ≤ j ∧ g.node? ⟨j⟩ = some n ∧ .node i ∈ n.inputs

theorem Live.of_succ (h : g.Live (k + 1) r) : g.Live k r := by
  cases r with
  | var v => trivial
  | node i =>
    obtain ⟨j, n, later, hn, uses⟩ := h
    exact ⟨j, n, Nat.le_of_succ_le later, hn, uses⟩

theorem live_of_mem {n : Node α} (hn : g.node? ⟨k⟩ = some n) (hr : r ∈ n.inputs) : g.Live k r := by
  cases r with
  | var v => trivial
  | node i => exact ⟨k, n, Nat.le_refl k, hn, hr⟩

/-- A node that one node uses, and only once, is used by no other. -/
theorem not_live_of_fanOut {n : Node α} {i : NodeId} (hn : g.node? ⟨k⟩ = some n)
    (uses : .node i ∈ n.inputs) (once : g.fanOut i = 1) : ¬g.Live (k + 1) (.node i) := by
  rintro ⟨j, m, later, hm, uses'⟩
  have counted : ∀ (ns : List (Node α)) (n : Node α), n ∈ ns → .node i ∈ n.inputs →
      0 < (ns.flatMap fun (n : Node α) => nodeInputs n.inputs).count i := by
    intro ns n hn hi
    rw [List.count_pos_iff, List.mem_flatMap]
    exact ⟨n, hn, mem_nodeInputs.mpr hi⟩
  have hn : g.nodes.toList[k]? = some n := by simpa [node?] using hn
  have hm : g.nodes.toList[j]? = some m := by simpa [node?] using hm
  have first := counted (g.nodes.toList.take (k + 1)) n
    (List.mem_of_getElem? (by rw [List.getElem?_take_of_lt (Nat.lt_succ_self k)]; exact hn)) uses
  have second := counted (g.nodes.toList.drop (k + 1)) m
    (List.mem_of_getElem? (i := j - (k + 1))
      (by rw [List.getElem?_drop, Nat.add_sub_cancel' later]; exact hm)) uses'
  rw [fanOut, Graph.uses, ← List.take_append_drop (k + 1) g.nodes.toList, List.flatMap_append,
    List.count_append] at once
  omega

end Graph

namespace Lowering

variable [Scalar α]

/-- The value is placed in neither lowering, or in both, and then both have computed it. -/
def Shares (s t : Lowering α) (r : Ref) : Prop :=
  (s.place r = none ∧ t.place r = none) ∨
    ∃ x y, s.place r = some x ∧ t.place r = some y ∧ s.program.Carried t.program x y

/-- Two values lie together in one lowering if they do in the other. -/
def Agrees (s t : Lowering α) (r r' : Ref) : Prop :=
  ∀ x y x' y', s.place r = some x → t.place r = some y → s.place r' = some x' →
    t.place r' = some y' → (x = x' ↔ y = y')

/-- Two lowerings after `k` nodes: of the first every node has an activation of its own, and the
values in `P` have been computed by both. -/
structure Twins (g : Graph α) (k : Nat) (P : Ref → Prop) (s t : Lowering α) : Prop where
  store : s.store = t.store
  mirrors : s.program.Mirrors t.program
  shares : ∀ r, P r → Shares s t r
  agrees : ∀ r r', P r → P r' → Agrees s t r r'
  unplaced : ∀ i, k ≤ i.index → s.place (.node i) = none ∧ t.place (.node i) = none
  apart : ∀ i r x, s.place (.node i) = some x → s.place r = some x → r = .node i
  typed : ∀ i x, s.place (.node i) = some x → ∃ n a l, g.node? i = some n ∧ x = .activation a ∧
    s.program.activations.get? a = some l ∧ n.type = some l.type
  left : s.NamedBelow g k
  right : t.NamedBelow g k

variable {g : Graph α} {k : Nat} {P Q : Ref → Prop} {s t s' t' : Lowering α} {x y : Value}

omit [Scalar α] in
theorem NamedBelow.mono {j : Nat} (h : s.NamedBelow g k) (le : k ≤ j) : s.NamedBelow g j := by
  intro a l hl
  obtain ⟨i, n, hi, rest⟩ := h a l hl
  exact ⟨i, n, Nat.lt_of_lt_of_le hi le, rest⟩

theorem Twins.mono {j : Nat} (twins : Twins g k P s t) (le : k ≤ j) (sub : ∀ r, Q r → P r) :
    Twins g j Q s t where
  store := twins.store
  mirrors := twins.mirrors
  shares r hr := twins.shares r (sub r hr)
  agrees r r' hr hr' := twins.agrees r r' (sub r hr) (sub r' hr')
  unplaced i hi := twins.unplaced i (Nat.le_trans le hi)
  apart := twins.apart
  typed := twins.typed
  left := twins.left.mono le
  right := twins.right.mono le

theorem Twins.start (store : WeightStorage α) (name name' : String) :
    Twins g 0 P ⟨.empty name, store, []⟩ ⟨.empty name', store, []⟩ where
  store := rfl
  mirrors := .empty name name'
  shares _ _ := .inl ⟨rfl, rfl⟩
  agrees _ _ _ _ _ _ _ _ h := by simp [place] at h
  unplaced _ _ := ⟨rfl, rfl⟩
  apart _ _ _ h := by simp [place] at h
  typed _ _ h := by simp [place] at h
  left _ _ h := by simp [Program.empty, Arena.empty, Arena.get?] at h
  right _ _ h := by simp [Program.empty, Arena.empty, Arena.get?] at h

omit [Scalar α] in
theorem run_attempt_error {β : Type} {f : Lowering α → Except (Error α) (Lowering α × β)}
    {e : Error α} (h : f s = .error e) : (Lower.attempt f).run.run s = (.error e, s) := by
  simp only [Lower.attempt, ExceptT.run_mk, StateT.run, h]

omit [Scalar α] in
theorem coupled_attempt {β : Type} {f f' : Lowering α → Except (Error α) (Lowering α × β)}
    {R : β → Lowering α → β → Lowering α → Prop}
    (h : Together (fun p q => R p.2 p.1 q.2 q.1) (f s) (f' t)) :
    Coupled R (Lower.attempt f) s (Lower.attempt f') t := by
  cases hf : f s with
  | error e =>
    cases hf' : f' t with
    | error e' =>
      exact .error (run_attempt_error hf) (run_attempt_error hf')
    | ok q =>
      rw [hf, hf'] at h
      cases h
  | ok p =>
    rw [hf] at h
    cases hf' : f' t with
    | error e' =>
      rw [hf'] at h
      cases h
    | ok q =>
      rw [hf'] at h
      cases h with
      | ok h => exact .ok (yields_attempt.mpr hf) (yields_attempt.mpr hf') h

/-! ## Operands -/

/-- The programs are what they were, and what was placed still is. -/
structure Reads (s s' : Lowering α) : Prop where
  program : s'.program = s.program
  places : ∀ r x, s.place r = some x → s'.place r = some x

omit [Scalar α] in
theorem Reads.refl (s : Lowering α) : s.Reads s := ⟨rfl, fun _ _ h => h⟩

omit [Scalar α] in
theorem Reads.trans {s₁ s₂ s₃ : Lowering α} (h : s₁.Reads s₂) (h' : s₂.Reads s₃) : s₁.Reads s₃ :=
  ⟨h'.program.trans h.program, fun r x hr => h'.places r x (h.places r x hr)⟩

/-- Where both lowerings find the value of one reference. -/
structure Found (s t : Lowering α) (r : Ref) (x y : Value) : Prop where
  left : s.place r = some x
  right : t.place r = some y
  carried : s.program.Carried t.program x y

theorem Found.mono {r : Ref} (h : Found s t r x y) (left : s.Reads s') (right : t.Reads t') :
    Found s' t' r x y :=
  ⟨left.places r x h.left, right.places r y h.right, by
    rw [left.program, right.program]
    exact h.carried⟩

/-- A value lies at the home of a variable in both lowerings or in neither. -/
theorem Twins.weight_iff (twins : Twins g k P s t) {r : Ref} (hr : P r) (hx : s.place r = some x)
    (hy : t.place r = some y) (l : LocationId) : x = .weight l ↔ y = .weight l := by
  rcases twins.shares r hr with ⟨none, -⟩ | ⟨x', y', hx', hy', carried⟩
  · rw [none] at hx
    cases hx
  · obtain rfl := Option.some.inj (hx.symm.trans hx')
    obtain rfl := Option.some.inj (hy.symm.trans hy')
    cases carried.matched with
    | weight id => exact Iff.rfl
    | activation _ _ _ => simp

theorem Twins.homed (twins : Twins g k P s t) {id : VarId} {store : WeightStorage α}
    {l : LocationId} (left : s.place (.var id) = none) (right : t.place (.var id) = none) :
    Twins g k P (s.homed store id l) (t.homed store id l) := by
  refine ⟨rfl, twins.mirrors, fun r hr => ?_, fun r r' hr hr' => ?_, fun i hi => ?_,
    fun i r x hi hr => ?_, fun i x hx => ?_, twins.left, twins.right⟩
  · rw [Shares, place_homed left, place_homed right]
    split
    · exact .inr ⟨_, _, rfl, rfl, .weight l⟩
    · exact twins.shares r hr
  · intro x y x' y' hx hy hx' hy'
    rw [place_homed left] at hx hx'
    rw [place_homed right] at hy hy'
    by_cases own : r = .var id <;> by_cases own' : r' = .var id
    · rw [if_pos own] at hx hy
      rw [if_pos own'] at hx' hy'
      cases hx; cases hy; cases hx'; cases hy'
      exact Iff.rfl
    · rw [if_pos own] at hx hy
      rw [if_neg own'] at hx' hy'
      cases hx; cases hy
      have same := twins.weight_iff hr' hx' hy' l
      exact ⟨fun e => (same.mp e.symm).symm, fun e => (same.mpr e.symm).symm⟩
    · rw [if_neg own] at hx hy
      rw [if_pos own'] at hx' hy'
      cases hx'; cases hy'
      exact twins.weight_iff hr hx hy l
    · rw [if_neg own] at hx hy
      rw [if_neg own'] at hx' hy'
      exact twins.agrees r r' hr hr' x y x' y' hx hy hx' hy'
  · rw [place_homed_node, place_homed_node]
    exact twins.unplaced i hi
  · rw [place_homed_node] at hi
    rcases of_place_homed hr with hr | ⟨-, rfl⟩
    · exact twins.apart i r x hi hr
    · obtain ⟨_, _, _, -, e, -⟩ := twins.typed i _ hi
      cases e
  · rw [place_homed_node] at hx
    exact twins.typed i x hx

variable {c d : LoweringContext α}

/-- Both lowerings find the value of a reference, or neither does. -/
theorem Twins.operand (twins : Twins g k P s t) (module : c.module = d.module)
    (stored : c.stored = d.stored) {r : Ref} (live : P r) :
    Coupled (fun x s' y t' => Twins g k P s' t' ∧ Found s' t' r x y ∧ s.Reads s' ∧ t.Reads t')
      (Lower.operand c r) s (Lower.operand d r) t := by
  refine coupled_attempt ?_
  rcases twins.shares r live with ⟨left, right⟩ | ⟨x, y, hx, hy, carried⟩
  · have hs : s.values.lookup r = none := left
    have ht : t.values.lookup r = none := right
    rw [hs, ht]
    cases r with
    | node i => exact .error
    | var id =>
      simp only [module, stored, twins.store, bind, Except.bind]
      cases d.module.var id with
      | error e => exact .error
      | ok v =>
        dsimp only
        cases given : t.store.allocate id v
            (if v.isTrained || d.stored.contains id then .mutable else .constant) with
        | error e => exact .error
        | ok q =>
          obtain ⟨store, l⟩ := q
          have grows : ∀ u : Lowering α, u.Reads (u.homed store id l) :=
            fun u => ⟨rfl, fun r x => place_homed_of_some⟩
          exact .ok ⟨twins.homed left right, ⟨(place_homed left _).trans (if_pos rfl),
            (place_homed right _).trans (if_pos rfl), .weight l⟩, grows s, grows t⟩
  · have hs : s.values.lookup r = some x := hx
    have ht : t.values.lookup r = some y := hy
    rw [hs, ht]
    exact .ok ⟨twins, ⟨hx, hy, carried⟩, .refl s, .refl t⟩

/-- The values of several references, each with its reference. -/
structure FoundAll (P : Ref → Prop) (s t : Lowering α) (rs : List Ref) (xs ys : List Value) :
    Prop where
  length : xs.length = rs.length
  each : List.Forall₂ (fun x y => ∃ r, P r ∧ Found s t r x y) xs ys

theorem Twins.mapM_operand (twins : Twins g k P s t) (module : c.module = d.module)
    (stored : c.stored = d.stored) {rs : List Ref} (live : ∀ r ∈ rs, P r) :
    Coupled (fun xs s' ys t' => Twins g k P s' t' ∧ FoundAll P s' t' rs xs ys ∧
        s.Reads s' ∧ t.Reads t')
      (rs.mapM (Lower.operand c)) s (rs.mapM (Lower.operand d)) t := by
  induction rs generalizing s t with
  | nil => exact coupled_pure ⟨twins, ⟨rfl, .nil⟩, .refl s, .refl t⟩
  | cons r rs ih =>
    rw [List.mapM_cons, List.mapM_cons]
    have first := live r List.mem_cons_self
    refine coupled_bind (twins.operand module stored first) ?_
    rintro x s₁ y t₁ ⟨twins₁, found, left, right⟩
    refine coupled_bind (ih twins₁ fun r hr => live r (List.mem_cons_of_mem _ hr)) ?_
    rintro xs s₂ ys t₂ ⟨twins₂, all, left', right'⟩
    exact coupled_pure ⟨twins₂, ⟨by rw [List.length_cons, List.length_cons, all.length],
      .cons ⟨r, first, found.mono left' right'⟩ all.each⟩, left.trans left', right.trans right'⟩

/-! ## Results -/

/-- The value of node `k` lies at `x` in the first lowering and at `y` in the second, where no value
lies that is still used. -/
structure Targeted (g : Graph α) (k : Nat) (s t : Lowering α) (x y : Value) : Prop where
  twins : Twins g (k + 1) (fun (r : Ref) => g.Live (k + 1) r ∧ r ≠ .node ⟨k⟩) s t
  target : Matched Location.Mates s.program.activations t.program.activations x y
  left : s.place (.node ⟨k⟩) = some x
  right : t.place (.node ⟨k⟩) = some y
  free : ∀ r x' y', g.Live (k + 1) r → r ≠ .node ⟨k⟩ → s.place r = some x' → t.place r = some y' →
    x' ≠ x ∧ y' ≠ y

/-- Once both lowerings have computed the value of node `k`, it is like the others. -/
theorem Targeted.settle (targeted : Targeted g k s t x y) (carried : s.program.Carried t.program x y) :
    Twins g (k + 1) (g.Live (k + 1)) s t := by
  obtain ⟨twins, -, left, right, free⟩ := targeted
  refine ⟨twins.store, twins.mirrors, fun r hr => ?_, fun r r' hr hr' => ?_, twins.unplaced,
    twins.apart, twins.typed, twins.left, twins.right⟩
  · by_cases own : r = .node ⟨k⟩
    · subst own
      exact .inr ⟨x, y, left, right, carried⟩
    · exact twins.shares r ⟨hr, own⟩
  · by_cases own : r = .node ⟨k⟩ <;> by_cases own' : r' = .node ⟨k⟩
    · subst own own'
      intro x₁ y₁ x₂ y₂ h1 h2 h3 h4
      rw [h1] at h3
      rw [h2] at h4
      cases h3; cases h4
      exact ⟨fun _ => rfl, fun _ => rfl⟩
    · subst own
      intro x₁ y₁ x₂ y₂ h1 h2 h3 h4
      rw [left] at h1
      rw [right] at h2
      cases h1; cases h2
      obtain ⟨ne, ne'⟩ := free r' x₂ y₂ hr' own' h3 h4
      exact ⟨fun e => absurd e.symm ne, fun e => absurd e.symm ne'⟩
    · subst own'
      intro x₁ y₁ x₂ y₂ h1 h2 h3 h4
      rw [left] at h3
      rw [right] at h4
      cases h3; cases h4
      obtain ⟨ne, ne'⟩ := free r x₁ y₁ hr own h1 h2
      exact ⟨fun e => absurd e ne, fun e => absurd e ne'⟩
    · exact twins.agrees r r' ⟨hr, own⟩ ⟨hr', own'⟩

/-- No value lies at the next activation. -/
theorem Twins.vacant (twins : Twins g k (g.Live k) s t) (r : Ref) :
    s.place r ≠ some (.activation ⟨s.program.activations.size⟩) := by
  have fresh : s.program.activations.get? ⟨s.program.activations.size⟩ = none :=
    Array.getElem?_eq_none (Nat.le_refl _)
  intro hr
  cases r with
  | node i =>
    obtain ⟨_, a, l, -, e, hl, -⟩ := twins.typed i _ hr
    cases e
    rw [fresh] at hl
    cases hl
  | var v =>
    rcases twins.shares (.var v) trivial with ⟨none, -⟩ | ⟨x, y, hx, -, carried⟩
    · rw [none] at hr
      cases hr
    · rw [hr] at hx
      cases hx
      cases carried.matched with
      | activation hl _ _ =>
        rw [fresh] at hl
        cases hl

/-- Node `k` is placed in both lowerings, in the first in a new activation. -/
theorem Twins.target {n : Node α} {type : TensorType α} {q : Program α} {b : LocationId}
    (twins : Twins g k (g.Live k) s t) (hn : g.node? ⟨k⟩ = some n) (htype : n.type = some type)
    (covers : q.activations.Covers t.program.activations)
    (same : q.instructions = t.program.instructions)
    (located : ∃ l, q.activations.get? b = some l ∧ l.isConstant = false ∧ l.type = type)
    (named : ∀ a l, q.activations.get? a = some l → t.program.activations.get? a = some l ∨
      l.name = n.name)
    (free : ∀ r x y, g.Live (k + 1) r → s.place r = some x → t.place r = some y →
      y ≠ .activation b) :
    Targeted g k
      (s.placed k (s.program.widen n.name type) (.activation ⟨s.program.activations.size⟩))
      (t.placed k q (.activation b)) (.activation ⟨s.program.activations.size⟩) (.activation b) := by
  have left := Program.covers_widen s.program n.name type
  obtain ⟨l, hl, mutable', type_eq⟩ := located
  have target : Matched Location.Mates (s.program.widen n.name type).activations q.activations
      (.activation ⟨s.program.activations.size⟩) (.activation b) :=
    .activation (Program.widen_activation s.program n.name type) hl ⟨rfl, mutable', type_eq.symm⟩
  refine ⟨⟨twins.store, twins.mirrors.widen left covers rfl same, fun r ⟨live, other⟩ => ?_,
    fun r r' ⟨live, other⟩ ⟨live', other'⟩ => ?_, fun i hi => ?_, fun i r x hi hr => ?_,
    fun i x hx => ?_, twins.left.succ hn fun _ _ => Program.of_widen,
    twins.right.succ hn named⟩, target, (place_placed ..).trans (if_pos rfl),
    (place_placed ..).trans (if_pos rfl), fun r x y live other hx hy => ?_⟩
  · rw [Shares, place_placed, place_placed, if_neg other, if_neg other]
    rcases twins.shares r live.of_succ with none | ⟨x, y, hx, hy, carried⟩
    · exact .inl none
    · exact .inr ⟨x, y, hx, hy, carried.widen left covers rfl same⟩
  · intro x y x' y' hx hy hx' hy'
    rw [place_placed, if_neg other] at hx hy
    rw [place_placed, if_neg other'] at hx' hy'
    exact twins.agrees r r' live.of_succ live'.of_succ x y x' y' hx hy hx' hy'
  · have other : (.node i : Ref) ≠ .node ⟨k⟩ := by
      rintro e
      cases e
      exact absurd hi (Nat.not_succ_le_self k)
    rw [place_placed, place_placed, if_neg other, if_neg other]
    exact twins.unplaced i (Nat.le_of_succ_le hi)
  · rw [place_placed] at hi hr
    split at hi <;> split at hr
    · next own own' => exact own'.trans own.symm
    · cases hi
      exact absurd hr (twins.vacant r)
    · cases hr
      exact absurd hi (twins.vacant _)
    · exact twins.apart i r x hi hr
  · rw [place_placed] at hx
    split at hx
    · next own =>
      cases own
      cases hx
      exact ⟨n, _, _, hn, rfl, Program.widen_activation s.program n.name type, htype⟩
    · obtain ⟨m, a, l, hm, rfl, hl, type_m⟩ := twins.typed i x hx
      obtain ⟨l', hl', alike⟩ := left a l hl
      exact ⟨m, a, l', hm, rfl, hl', type_m.trans (congrArg some alike.type.symm)⟩
  · rw [place_placed, if_neg other] at hx hy
    exact ⟨fun e => twins.vacant r (e ▸ hx), free r x y live hx hy⟩

/-- What finding a place for node `k` leaves: its target, and all values that had been computed. -/
structure Aimed (g : Graph α) (k : Nat) (s t s' t' : Lowering α) (x y : Value) : Prop where
  targeted : Targeted g k s' t' x y
  carries : ∀ x' y', s.program.Carried t.program x' y' → s'.program.Carried t'.program x' y'

/-- A new activation for node `k` in both lowerings. -/
theorem Twins.result {n : Node α} (twins : Twins g k (g.Live k) s t) (distinct : g.DistinctNames)
    (hn : g.node? ⟨k⟩ = some n) :
    Coupled (fun x s' y t' => Aimed g k s t s' t' x y ∧
        ∀ x' y', s.program.Carried t.program x' y' → x' ≠ x ∧ y' ≠ y)
      (Lower.result ⟨k⟩ n) s (Lower.result ⟨k⟩ n) t := by
  cases htype : n.type with
  | none =>
    simp only [Lower.result, htype]
    exact coupled_throw
  | some type =>
    have absent : ∀ (a : Arena α), a.get? ⟨a.size⟩ = none := fun a =>
      Array.getElem?_eq_none (Nat.le_refl _)
    have other : ∀ x' y', s.program.Carried t.program x' y' →
        x' ≠ .activation ⟨s.program.activations.size⟩ ∧
          y' ≠ .activation ⟨t.program.activations.size⟩ := by
      intro x' y' carried
      cases carried.matched with
      | weight id => simp
      | activation hl hk _ =>
        refine ⟨?_, ?_⟩ <;> rintro e <;> cases e
        · rw [absent] at hl
          cases hl
        · rw [absent] at hk
          cases hk
    refine .ok (yields_result htype (twins.left.free distinct hn))
      (yields_result htype (twins.right.free distinct hn)) ⟨⟨?_, fun x' y' carried => ?_⟩, other⟩
    · refine twins.target hn htype (Program.covers_widen _ _ _) rfl
        ⟨_, Program.widen_activation _ _ _, rfl, rfl⟩ (fun _ _ => Program.of_widen)
        fun r x y live hx hy => ?_
      rcases twins.shares r live.of_succ with ⟨none, -⟩ | ⟨x', y', hx', hy', carried⟩
      · rw [none] at hx
        cases hx
      · rw [hy] at hy'
        cases hy'
        exact (other x' y carried).2
    · exact carried.widen (Program.covers_widen _ _ _) (Program.covers_widen _ _ _) rfl rfl

/-- A place for the result of an activation function.  In place, node `k` takes that of its input, if
no other node uses the input. -/
theorem Twins.activationTarget {n : Node α} {op : UnaryOp} {r : Ref}
    (twins : Twins g k (g.Live k) s t) (distinct : g.DistinctNames) (keeps : g.KeepsTypes)
    (hn : g.node? ⟨k⟩ = some n) (kind : n.kind = .compute (.unary op)) (inputs : n.inputs = [r])
    (plain : c.graph.inPlace = false) (same : d.graph.nodes = g.nodes) (found : Found s t r x y) :
    Coupled (fun x' s' y' t' => Aimed g k s t s' t' x' y')
      (Lower.activationTarget c ⟨k⟩ n x) s (Lower.activationTarget d ⟨k⟩ n y) t := by
  have fresh : Lower.activationTarget c ⟨k⟩ n x = Lower.result ⟨k⟩ n := by
    simp [Lower.activationTarget, Lower.mayReuse, plain]
  rw [fresh]
  cases reuse : Lower.mayReuse d n y with
  | false =>
    simp only [Lower.activationTarget, reuse, Bool.false_eq_true, if_false]
    exact (twins.result distinct hn).imp fun _ _ _ _ h => h.1
  | true =>
    have once := reuse
    simp only [Lower.mayReuse, inputs, Bool.and_eq_true] at once
    replace once := once.2
    cases r with
    | var v => cases once
    | node i =>
      have once : g.fanOut i = 1 := by
        simpa only [Graph.fanOut, Graph.uses, same, beq_iff_eq] using once
      obtain ⟨source, a, l, hi, rfl, hl, htype⟩ := twins.typed i x found.left
      have type := keeps n (Array.mem_of_getElem? hn) op i source l.type kind inputs hi htype
      have uses : (.node i : Ref) ∈ n.inputs := by rw [inputs]; exact List.mem_singleton_self _
      have last := Graph.not_live_of_fanOut hn uses once
      obtain ⟨b, p, rfl, hp, mates⟩ : ∃ b p, y = .activation b ∧
          t.program.activations.get? b = some p ∧ l.Mates p := by
        cases found.carried.matched with
        | activation hl' hk mates =>
          rw [hl] at hl'
          cases hl'
          exact ⟨_, _, rfl, hk, mates⟩
      simp only [Lower.activationTarget, reuse, if_true, type]
      refine .ok (yields_result type (twins.left.free distinct hn))
        (yields_bind.mpr ⟨(), t.placed k t.program (.activation b), yields_attempt.mpr rfl,
          yields_pure.mpr ⟨rfl, rfl⟩⟩) ⟨?_, fun x' y' carried => ?_⟩
      · refine twins.target hn type (.refl _) rfl ⟨p, hp, mates.right, mates.type.symm⟩
          (fun a l hl => .inl hl) fun r x' y' live hx' hy' e => ?_
        subst e
        -- what lies with the input here lies with it in the first lowering, and so is the input
        have same := (twins.agrees r (.node i) live.of_succ (Graph.live_of_mem hn uses)
          x' _ _ _ hx' hy' found.left found.right).mpr rfl
        subst same
        obtain rfl := twins.apart i r _ found.left hx'
        exact last live
      · exact carried.widen (Program.covers_widen _ _ _) (.refl _) rfl rfl

/-! ## Instructions -/

/-- The same state but for one more instruction. -/
def snoc (s : Lowering α) (i : Instruction α) : Lowering α :=
  { s with program := s.program.snoc i }

theorem Twins.snoc (twins : Twins g k P s t) {i j : Instruction α}
    (mirrors : (s.program.snoc i).Mirrors (t.program.snoc j))
    (carries : ∀ r x y, P r → s.place r = some x → t.place r = some y →
      s.program.Carried t.program x y → (s.program.snoc i).Carried (t.program.snoc j) x y) :
    Twins g k P (s.snoc i) (t.snoc j) where
  store := twins.store
  mirrors := mirrors
  shares r hr := by
    rcases twins.shares r hr with none | ⟨x, y, hx, hy, carried⟩
    · exact .inl none
    · exact .inr ⟨x, y, hx, hy, carries r x y hr hx hy carried⟩
  agrees := twins.agrees
  unplaced := twins.unplaced
  apart := twins.apart
  typed := twins.typed
  left := twins.left
  right := twins.right

theorem coupled_emit {n : Node α} {kind : Opcode α} {xs ys : List Value}
    {R : Program α → Program α → Prop} (store : s.store = t.store)
    (h : Together R (s.program.push s.store.arena (.ofValues n.name kind xs))
      (t.program.push s.store.arena (.ofValues n.name kind ys))) :
    Coupled (fun _ s' _ t' => s' = { s with program := s'.program } ∧
        t' = { t with program := t'.program } ∧ R s'.program t'.program)
      (Lower.emit n kind xs) s (Lower.emit n kind ys) t := by
  refine coupled_attempt ?_
  rw [← store]
  generalize s.program.push s.store.arena (.ofValues n.name kind xs) = r,
    t.program.push s.store.arena (.ofValues n.name kind ys) = r' at h
  cases h with
  | error => exact .error
  | ok h => exact .ok ⟨rfl, rfl, h⟩

theorem Targeted.emit {n : Node α} {kind : Opcode α} {xs ys : List Value}
    (targeted : Targeted g k s t x y) (other : ∀ rule, kind ≠ .update rule)
    (sources : List.Forall₂ (s.program.Carried t.program) xs ys) :
    Coupled (fun _ s' _ t' => Targeted g k s' t' x y ∧ s'.program.Carried t'.program x y ∧
        ∀ x' y', s.program.Carried t.program x' y' → (x' = x ↔ y' = y) →
          s'.program.Carried t'.program x' y')
      (Lower.emit n kind (x :: xs)) s (Lower.emit n kind (y :: ys)) t := by
  obtain ⟨twins, target, left, right, free⟩ := targeted
  refine (coupled_emit twins.store
    (twins.mirrors.push_first n.name n.name s.store.arena other target sources)).imp ?_
  rintro _ s' _ t' ⟨hs, ht, ⟨hp, hq, mirrors⟩, carried, others⟩
  rw [hp, hq] at mirrors carried others
  obtain rfl : s' = s.snoc _ := by rw [hs, hp]; rfl
  obtain rfl : t' = t.snoc _ := by rw [ht, hq]; rfl
  refine ⟨⟨twins.snoc mirrors fun r x' y' hr hx hy kept => ?_, target, left, right, free⟩, carried,
    others⟩
  obtain ⟨ne, ne'⟩ := free r x' y' hr.1 hr.2 hx hy
  exact others x' y' kept ⟨fun e => absurd e ne, fun e => absurd e ne'⟩

/-! ## Nodes -/

/-- A place for node `k`, and one instruction that computes its value. -/
theorem Aimed.emit {n : Node α} {kind : Opcode α} {xs ys : List Value}
    (aimed : Aimed g k s t s' t' x y) (other : ∀ rule, kind ≠ .update rule)
    (sources : List.Forall₂ (s.program.Carried t.program) xs ys) :
    Coupled (fun _ s₂ _ t₂ => Twins g (k + 1) (g.Live (k + 1)) s₂ t₂)
      (Lower.emit n kind (x :: xs)) s' (Lower.emit n kind (y :: ys)) t' :=
  (aimed.targeted.emit other (sources.imp aimed.carries)).imp fun _ _ _ _ h => h.1.settle h.2.1

omit [Scalar α] in
theorem FoundAll.carried [Scalar α] {rs : List Ref} {xs ys : List Value}
    (found : FoundAll P s t rs xs ys) : List.Forall₂ (s.program.Carried t.program) xs ys :=
  found.each.imp fun _ _ ⟨_, _, h⟩ => h.carried

/-- The nodes whose operator is computed into an activation of its own. -/
theorem Twins.compute {n : Node α} {kind : Opcode α}
    (twins : Twins g k (g.Live k) s t) (distinct : g.DistinctNames) (hn : g.node? ⟨k⟩ = some n)
    (module : c.module = d.module) (stored : c.stored = d.stored)
    (other : ∀ rule, kind ≠ .update rule) :
    Coupled (fun _ s' _ t' => Twins g (k + 1) (g.Live (k + 1)) s' t')
      (Lower.compute c ⟨k⟩ n kind) s (Lower.compute d ⟨k⟩ n kind) t := by
  refine coupled_bind (twins.mapM_operand module stored fun r hr => Graph.live_of_mem hn hr) ?_
  rintro xs s₁ ys t₁ ⟨twins₁, found, -, -⟩
  refine coupled_bind (twins₁.result distinct hn) ?_
  rintro x s₂ y t₂ ⟨aimed, -⟩
  exact aimed.emit other found.carried

theorem Targeted.sum {n : Node α} {xs ys : List Value} (targeted : Targeted g k s t x y)
    (carried : s.program.Carried t.program x y)
    (sources : List.Forall₂ (fun x' y' => s.program.Carried t.program x' y' ∧ x' ≠ x ∧ y' ≠ y) xs ys) :
    Coupled (fun _ s' _ t' => Twins g (k + 1) (g.Live (k + 1)) s' t')
      (forM xs fun (z : Value) => Lower.emit n (.compute (.binary .add)) [x, x, z]) s
      (forM ys fun (z : Value) => Lower.emit n (.compute (.binary .add)) [y, y, z]) t := by
  induction xs generalizing ys s t with
  | nil =>
    cases sources
    exact coupled_pure (targeted.settle carried)
  | cons x' xs ih =>
    rcases sources with _ | ⟨first, rest⟩
    rw [List.forM_cons, List.forM_cons]
    refine coupled_bind (targeted.emit (n := n) (by simp)
      (.cons carried (.cons first.1 .nil))) ?_
    rintro _ s₁ _ t₁ ⟨targeted₁, carried₁, others⟩
    refine ih targeted₁ carried₁ (rest.imp ?_)
    rintro x' y' ⟨kept, ne, ne'⟩
    exact ⟨others x' y' kept ⟨fun e => absurd e ne, fun e => absurd e ne'⟩, ne, ne'⟩

theorem Twins.overwrite {n : Node α} {kind : Opcode α} {xs ys : List Value}
    {R : Program α → Program α → Prop} (twins : Twins g k (g.Live k) s t)
    (pushed : Together R (s.program.push s.store.arena (.ofValues n.name kind xs))
      (t.program.push s.store.arena (.ofValues n.name kind ys)))
    (mirrors : ∀ p q, R p q → Program.Pushed s.program t.program (.ofValues n.name kind xs)
      (.ofValues n.name kind ys) p q)
    (others : ∀ p q, R p q → ∀ r x y, g.Live k r → s.place r = some x → t.place r = some y →
      s.program.Carried t.program x y → p.Carried q x y) :
    Coupled (fun _ s' _ t' => Twins g (k + 1) (g.Live (k + 1)) s' t')
      (Lower.emit n kind xs) s (Lower.emit n kind ys) t := by
  refine (coupled_emit twins.store pushed).imp ?_
  rintro _ s' _ t' ⟨hs, ht, related⟩
  obtain ⟨hp, hq, mirrored⟩ := mirrors _ _ related
  have others := others _ _ related
  rw [hp, hq] at mirrored others
  obtain rfl : s' = s.snoc _ := by rw [hs, hp]; rfl
  obtain rfl : t' = t.snoc _ := by rw [ht, hq]; rfl
  exact (twins.snoc mirrored others).mono (Nat.le_succ k) fun _ live => live.of_succ

theorem Twins.save {n : Node α} {x' y' : Value} {r r' : Ref} (twins : Twins g k (g.Live k) s t)
    (found : Found s t r x y) (live' : g.Live k r') (found' : Found s t r' x' y') :
    Coupled (fun _ s' _ t' => Twins g (k + 1) (g.Live (k + 1)) s' t')
      (Lower.emit n .copy [x', x]) s (Lower.emit n .copy [y', y]) t := by
  have copies : ∀ rule, (.copy : Opcode α) ≠ .update rule := by simp
  have pushed := twins.mirrors.push_first n.name n.name s.store.arena copies found'.carried.matched
    (.cons found.carried .nil)
  refine twins.overwrite pushed (fun _ _ h => h.1) fun _ _ h r₁ x₁ y₁ live hx hy carried => ?_
  exact h.2.2 x₁ y₁ carried
    (twins.agrees r₁ r' live live' x₁ y₁ x' y' hx hy found'.left found'.right)

theorem Twins.update {n : Node α} {rule : UpdateRule α} {rs : List Ref} {xs ys : List Value}
    (twins : Twins g k (g.Live k) s t) (count : rs.length = 3)
    (found : FoundAll (g.Live k) s t rs xs ys) :
    Coupled (fun _ s' _ t' => Twins g (k + 1) (g.Live (k + 1)) s' t')
      (Lower.emit n (.update rule) xs) s (Lower.emit n (.update rule) ys) t := by
  have carried := found.carried
  obtain ⟨length, each⟩ := found
  obtain ⟨w, d, v, rfl⟩ := List.length_eq_three.mp (length.trans count)
  obtain ⟨w', d', v', rfl⟩ : ∃ w' d' v', ys = [w', d', v'] :=
    List.length_eq_three.mp ((List.Forall₂.length_eq each).symm.trans (length.trans count))
  obtain ⟨⟨rw, live, found⟩, -, rv, live', found'⟩ :
      (∃ r, g.Live k r ∧ Found s t r w w') ∧ (∃ r, g.Live k r ∧ Found s t r d d') ∧
        ∃ r, g.Live k r ∧ Found s t r v v' := by
    simpa using each
  have pushed := twins.mirrors.push_update n.name n.name rule s.store.arena carried
  refine twins.overwrite pushed (fun _ _ h => h.1) fun _ _ h r x y live'' hx hy carried => ?_
  exact h.2 x y carried
    (twins.agrees r rw live'' live x y w w' hx hy found.left found.right)
    (twins.agrees r rv live'' live' x y v v' hx hy found'.left found'.right)

/-- One node: both lowerings add instructions that mirror each other, or both fail. -/
theorem Twins.node {n : Node α} (twins : Twins g k (g.Live k) s t) (distinct : g.DistinctNames)
    (keeps : g.KeepsTypes) (hn : g.node? ⟨k⟩ = some n)
    (arity : ∀ count, n.kind.arity = some count → n.inputs.length = count)
    (module : c.module = d.module) (stored : c.stored = d.stored)
    (plain : c.graph.inPlace = false) (same : d.graph.nodes = g.nodes) :
    Coupled (fun _ s' _ t' => Twins g (k + 1) (g.Live (k + 1)) s' t')
      (Lower.node c ⟨k⟩ n) s (Lower.node d ⟨k⟩ n) t := by
  have operands : Coupled (fun xs s' ys t' => Twins g k (g.Live k) s' t' ∧
      FoundAll (g.Live k) s' t' n.inputs xs ys ∧ s.Reads s' ∧ t.Reads t')
      (Lower.operands c n) s (Lower.operands d n) t :=
    twins.mapM_operand module stored fun r hr => Graph.live_of_mem hn hr
  unfold Lower.node
  split
  · next op kind =>
    split
    · next r inputs =>
      have live : g.Live k r := Graph.live_of_mem hn (by rw [inputs]; exact List.mem_singleton_self r)
      refine coupled_bind (twins.operand module stored live) ?_
      rintro x s₁ y t₁ ⟨twins₁, found, -, -⟩
      refine coupled_bind
        (twins₁.activationTarget distinct keeps hn kind inputs plain same found) ?_
      rintro x' s₂ y' t₂ aimed
      exact aimed.emit (by simp) (.cons found.carried .nil)
    · exact coupled_throw
  · exact twins.compute distinct hn module stored (by simp)
  · exact twins.compute distinct hn module stored (by simp)
  · refine coupled_bind operands ?_
    rintro xs s₁ ys t₁ ⟨twins₁, found, -, -⟩
    rcases found.each with _ | ⟨⟨r, -, first⟩, _ | ⟨-, _ | -⟩⟩
    · exact coupled_throw
    · exact coupled_throw
    · refine coupled_bind (twins₁.result distinct hn) ?_
      rintro x s₂ y t₂ ⟨aimed, -⟩
      exact aimed.emit (by simp) (.cons first.carried .nil)
    · exact coupled_throw
  · refine coupled_bind (twins.result distinct hn) ?_
    rintro x s₁ y t₁ ⟨aimed, -⟩
    exact aimed.emit (by simp) .nil
  · refine coupled_bind operands ?_
    rintro xs s₁ ys t₁ ⟨twins₁, found, -, -⟩
    rcases found.each with _ | ⟨⟨r, -, first⟩, _ | ⟨⟨r', live', second⟩, _ | -⟩⟩
    · exact coupled_throw
    · exact coupled_throw
    · exact twins₁.save first live' second
    · exact coupled_throw
  · refine coupled_bind operands ?_
    rintro xs s₁ ys t₁ ⟨twins₁, found, -, -⟩
    refine coupled_bind (twins₁.result distinct hn) ?_
    rintro x s₂ y t₂ ⟨aimed, apart⟩
    refine coupled_bind (aimed.targeted.emit (by simp) .nil) ?_
    rintro _ s₃ _ t₃ ⟨targeted, carried, others⟩
    refine targeted.sum carried (found.carried.imp fun x' y' h => ?_)
    obtain ⟨ne, ne'⟩ := apart x' y' h
    exact ⟨others x' y' (aimed.carries x' y' h) ⟨fun e => absurd e ne, fun e => absurd e ne'⟩,
      ne, ne'⟩
  · next rule kind =>
    refine coupled_bind operands ?_
    rintro xs s₁ ys t₁ ⟨twins₁, found, -, -⟩
    exact twins₁.update (arity 3 (by rw [kind]; rfl)) found
  · exact coupled_throw

theorem Twins.nodes_from (formed : g.WellFormed) (distinct : g.DistinctNames) (keeps : g.KeepsTypes)
    (module : c.module = d.module) (stored : c.stored = d.stored)
    (plain : c.graph.inPlace = false) (left : c.graph.nodes = g.nodes)
    (right : d.graph.nodes = g.nodes) {count : Nat} (twins : Twins g k (g.Live k) s t)
    (all : k + count = g.size) :
    Coupled (fun _ s' _ t' => Twins g g.size (g.Live g.size) s' t')
      (Lower.nodes c ((List.range' k count).map NodeId.mk)) s
      (Lower.nodes d ((List.range' k count).map NodeId.mk)) t := by
  induction count generalizing k s t with
  | zero =>
    obtain rfl : k = g.size := all
    exact coupled_pure twins
  | succ count ih =>
    have lt : k < g.size := by omega
    obtain ⟨n, hn⟩ : ∃ n, g.node? ⟨k⟩ = some n := ⟨_, Array.getElem?_eq_getElem lt⟩
    have known : ∀ c : LoweringContext α, c.graph.nodes = g.nodes → c.graph.node ⟨k⟩ = .ok n := by
      intro c same
      rw [Graph.node, Graph.node?, same]
      rw [Graph.node?] at hn
      rw [hn]
    rw [List.range'_succ, List.map_cons, Lower.nodes, Lower.nodes, List.forM_eq_forM,
      List.forM_cons, List.forM_cons]
    refine coupled_bind (Q := fun _ s' _ t' => Twins g (k + 1) (g.Live (k + 1)) s' t')
      (coupled_bind (Q := fun m s' m' t' => m = n ∧ m' = n ∧ Twins g k (g.Live k) s' t') ?_ ?_) ?_
    · refine coupled_attempt ?_
      rw [known c left, known d right]
      exact .ok ⟨rfl, rfl, twins⟩
    · rintro _ s₁ _ t₁ ⟨rfl, rfl, twins₁⟩
      exact twins₁.node distinct keeps hn (formed.arities _ (Array.mem_of_getElem? hn)) module stored
        plain right
    · rintro _ s₁ _ t₁ twins₁
      exact ih twins₁ (by omega)

end Lowering
end NeuralGraph
