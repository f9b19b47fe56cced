import NeuralGraph.Proofs.Graph.Order
import NeuralGraph.Proofs.Program.Acceptance
import NeuralGraph.Proofs.Storage.Homes
import NeuralGraph.Proofs.Yields

/-!
# What lowering emits

Every node becomes a block of instructions, `Node.block`, over the places of its inputs and its own.
A place, once given, is never taken back, so one placement describes the whole program: `Emitted`
says that instructions are the blocks of nodes.  `Lowering.Tidy` is the invariant of lowering and
`Lowering.Emits` what a part of it does; each step of `Lower` has one lemma that says both.
-/

namespace NeuralGraph
set_option autoImplicit false
variable {α : Type}

/-! ## Blocks -/

/-- The instructions of a node whose inputs lie at `values` and whose own value lies at `self`. -/
def Node.block [Scalar α] (n : Node α) (self : Value) (values : List Value) :
    Option (List (Instruction α)) :=
  match n.kind, values with
  | .compute op, values => some [.ofValues n.name (.compute op) (self :: values)]
  | .reshape _, values => some [.ofValues n.name .reshape (self :: values)]
  | .regression, [x, _] => some [.ofValues n.name .copy [self, x]]
  | .splat value, _ => some [.ofValues n.name (.splat value) [self]]
  | .save, [x, destination] => some [.ofValues n.name .copy [destination, x]]
  | .gradientSum, values =>
    some (.ofValues n.name (.splat 0) [self] :: values.map fun (x : Value) =>
      .ofValues n.name (.compute (.binary .add)) [self, self, x])
  | .update rule, values => some [.ofValues n.name (.update rule) values]
  | _, _ => none

/-- These are the instructions of node `i`, under a placement of values. -/
def Node.LowersTo [Scalar α] (place : Ref → Option Value) (i : Nat) (n : Node α)
    (is : List (Instruction α)) : Prop :=
  ∃ self values, n.inputs.map place = values.map some ∧
    (n.kind.hasValue = true → place (.node ⟨i⟩) = some self) ∧ n.block self values = some is

/-- These are the instructions of nodes, the first of which is node `i`. -/
inductive Emitted [Scalar α] (place : Ref → Option Value) :
    Nat → List (Node α) → List (Instruction α) → Prop
  | nil {i : Nat} : Emitted place i [] []
  | cons {i : Nat} {n : Node α} {ns : List (Node α)} {is js : List (Instruction α)} :
      n.LowersTo place i is → Emitted place (i + 1) ns js → Emitted place i (n :: ns) (is ++ js)

theorem Node.LowersTo.mono [Scalar α] {place place' : Ref → Option Value} {i : Nat} {n : Node α}
    {is : List (Instruction α)} (h : n.LowersTo place i is)
    (grows : ∀ r v, place r = some v → place' r = some v) : n.LowersTo place' i is := by
  obtain ⟨self, values, hv, hs, hb⟩ := h
  refine ⟨self, values, ?_, fun hk => grows _ _ (hs hk), hb⟩
  clear hb
  generalize n.inputs = rs at hv ⊢
  induction rs generalizing values with
  | nil => exact hv
  | cons r rs ih =>
    cases values with
    | nil => cases hv
    | cons v values =>
      simp only [List.map_cons, List.cons.injEq] at hv ⊢
      exact ⟨grows r v hv.1, ih values hv.2⟩

/-! ## The state of lowering -/

/-- No activation function of the graph writes over its input. -/
def Graph.KeepsInputs (g : Graph α) : Prop :=
  ∀ n ∈ g.nodes, ∀ op, n.kind = .compute (.unary op) → g.inPlace = false

namespace Lowering

def memory (s : Lowering α) : Memory α := s.program.memory s.store.arena

/-- Where a value lies. -/
def place (s : Lowering α) (r : Ref) : Option Value := s.values.lookup r

/-- Every node has an activation of its own, under its name and of its type. -/
structure Apart (g : Graph α) (s : Lowering α) : Prop where
  named : ∀ i id, s.place (.node i) = some (.activation id) → ∃ n l, g.node? i = some n ∧
    s.program.activations.get? id = some l ∧ l.name = n.name ∧ n.type = some l.type
  separate : ∀ i j value, s.place (.node i) = some value → s.place (.node j) = some value → i = j

/-- Variables lie at their homes, those of the first `k` nodes that have a value lie in activations,
and every instruction suits the storage. -/
structure Tidy [Scalar α] (g : Graph α) (k : Nat) (s : Lowering α) : Prop where
  store : s.store.Sound
  distinct : s.program.activations.Distinct
  vars : ∀ v value, s.place (.var v) = some value →
    ∃ l, value = .weight l ∧ s.store.home? v = some l
  nodes : ∀ i value, s.place (.node i) = some value → i.index < k ∧
    (∃ n, g.node? i = some n ∧ n.kind.hasValue = true) ∧
    ∃ id l, value = .activation id ∧ s.program.activations.get? id = some l
  suited : ∀ i ∈ s.program.instructions.toList, i.Suits s.memory
  apart : g.KeepsInputs → s.Apart g

/-- From `s` to `s'` the instructions `is` are added, and everything that was there stays. -/
structure Emits (s : Lowering α) (is : List (Instruction α)) (s' : Lowering α) : Prop where
  store : s.store.Grows s'.store
  activations : s'.program.activations.Covers s.program.activations
  places : ∀ r v, s.place r = some v → s'.place r = some v
  instructions : s'.program.instructions.toList = s.program.instructions.toList ++ is

theorem Emits.refl (s : Lowering α) : s.Emits [] s :=
  ⟨.refl _, .refl _, fun _ _ h => h, (List.append_nil _).symm⟩

theorem Emits.trans {s t u : Lowering α} {is js : List (Instruction α)} (h : s.Emits is t)
    (h' : t.Emits js u) : s.Emits (is ++ js) u where
  store := h.store.trans h'.store
  activations := h'.activations.trans h.activations
  places r v hv := h'.places r v (h.places r v hv)
  instructions := by rw [h'.instructions, h.instructions, List.append_assoc]

theorem Emits.after {s t u : Lowering α} {is : List (Instruction α)} (h : s.Emits [] t)
    (h' : t.Emits is u) : s.Emits is u := h.trans h'

theorem Emits.covers {s s' : Lowering α} {is : List (Instruction α)} (h : s.Emits is s') :
    s'.memory.Covers s.memory := Memory.covers_iff.mpr ⟨h.activations, h.store.arena⟩

end Lowering
end NeuralGraph
