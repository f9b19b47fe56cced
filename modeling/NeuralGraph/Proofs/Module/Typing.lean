import Mathlib.Data.List.Forall2
import NeuralGraph.Module.Basic
import NeuralGraph.Proofs.Graph.Evaluation
import NeuralGraph.Proofs.Graph.Names
import NeuralGraph.Proofs.Graph.Order
import NeuralGraph.Proofs.Program.Signatures

/-!
# Typed graphs

`NodeKind.Accepts` says which input types suit a kind of node and which type its value then has.  In
a proper graph every node is accepted.  Types last: neither new nodes nor new variables change the
type of a value, so a proper graph stays proper until a node is added that its inputs do not suit.
-/

namespace NeuralGraph
set_option autoImplicit false
variable {α : Type}

/-! ## Comparing types -/

section
variable [Scalar α] {s t : TensorType α}

theorem TensorType.beq_iff : (s == t) = true ↔
    s.dims = t.dims ∧ s.element = t.element ∧ (s.scale == t.scale) = true ∧ s.offset = t.offset := by
  have unfolded : (s == t) = (s.dims == t.dims && s.sameElements t) := rfl
  rw [unfolded, TensorType.sameElements]
  simp only [Bool.and_eq_true, beq_iff_eq, and_assoc]

instance [PartialEquivBEq α] : PartialEquivBEq (TensorType α) where
  symm h := by
    obtain ⟨dims, element, scale, offset⟩ := TensorType.beq_iff.mp h
    exact TensorType.beq_iff.mpr ⟨dims.symm, element.symm, PartialEquivBEq.symm scale, offset.symm⟩
  trans h h' := by
    obtain ⟨dims, element, scale, offset⟩ := TensorType.beq_iff.mp h
    obtain ⟨dims', element', scale', offset'⟩ := TensorType.beq_iff.mp h'
    exact TensorType.beq_iff.mpr ⟨dims.trans dims', element.trans element',
      PartialEquivBEq.trans scale scale', offset.trans offset'⟩

end

/-- A type that equals itself: its scale is not a scalar that differs from itself. -/
def TensorType.Comparable [Scalar α] (t : TensorType α) : Prop := (t == t) = true

theorem TensorType.comparable [Scalar α] [ReflBEq α] (t : TensorType α) : t.Comparable :=
  TensorType.beq_iff.mpr ⟨rfl, rfl, beq_self_eq_true t.scale, rfl⟩

theorem TensorType.Comparable.withDims [Scalar α] {t : TensorType α} (h : t.Comparable)
    (dims : List Nat) : (t.withDims dims).Comparable := by
  have unfolded : (t == t) = (t.dims == t.dims && t.sameElements t) := rfl
  rw [Comparable, unfolded, Bool.and_eq_true] at h
  have goal : (t.withDims dims == t.withDims dims) = (dims == dims && t.sameElements t) := rfl
  rw [Comparable, goal, h.2, beq_self_eq_true, Bool.and_true]

/-! ## What lasts -/

/-- Equal but for visibility and initial value. -/
structure Variable.Alike (v w : Variable α) : Prop where
  name : v.name = w.name
  type : v.type = w.type
  training : v.training = w.training

/-- Every variable of `n` is one of `m`. -/
def Module.Covers (m n : Module α) : Prop :=
  ∀ (id : VarId) (w : Variable α), n.var? id = some w → ∃ v, m.var? id = some v ∧ v.Alike w

/-- Every node of `h` is the same node of `g`. -/
def Graph.Extends (g h : Graph α) : Prop :=
  ∀ (i : Nat) (n : Node α), h.nodes[i]? = some n → g.nodes[i]? = some n

theorem Variable.Alike.refl (v : Variable α) : v.Alike v := ⟨rfl, rfl, rfl⟩

theorem Module.Covers.refl (m : Module α) : m.Covers m := fun _ w h => ⟨w, h, .refl w⟩

theorem Module.Covers.trans {m n o : Module α} (h : m.Covers n) (h' : n.Covers o) :
    m.Covers o := by
  intro id u hu
  obtain ⟨w, hw, wu⟩ := h' id u hu
  obtain ⟨v, hv, vw⟩ := h id w hw
  exact ⟨v, hv, vw.name.trans wu.name, vw.type.trans wu.type, vw.training.trans wu.training⟩

namespace Graph

theorem Extends.refl (g : Graph α) : g.Extends g := fun _ _ h => h

theorem Extends.trans {g h k : Graph α} (e : g.Extends h) (e' : h.Extends k) : g.Extends k :=
  fun i n hn => e i n (e' i n hn)

variable {g g' : Graph α} {name : String} {kind : NodeKind α} {inputs : List Ref}
  {type : Option (TensorType α)} {id : NodeId}

theorem push_extends (h : g.push name kind inputs type = .ok (g', id)) : g'.Extends g := by
  obtain ⟨rfl, -⟩ := push_eq h
  intro i n hn
  have bound : i < g.nodes.size := (Array.getElem?_eq_some_iff.mp hn).1
  rw [Array.getElem?_push, if_neg (Nat.ne_of_lt bound), hn]

theorem push_node (h : g.push name kind inputs type = .ok (g', id)) :
    g'.node? id = some ⟨g.freshName name, kind, inputs, type⟩ := by
  obtain ⟨rfl, rfl⟩ := push_eq h
  rw [node?, Graph.size, Array.getElem?_push_size]

theorem mem_push {n : Node α} (h : g.push name kind inputs type = .ok (g', id)) :
    n ∈ g'.nodes ↔ n ∈ g.nodes ∨ n = ⟨g.freshName name, kind, inputs, type⟩ := by
  obtain ⟨rfl, -⟩ := push_eq h
  exact Array.mem_push

end Graph

theorem Graph.node_eq_ok_iff {g : Graph α} {id : NodeId} {n : Node α} :
    g.node id = .ok n ↔ g.node? id = some n := by
  rw [node]
  cases g.node? id <;> simp

/-! ## Types of values -/

namespace Module
variable {m m' : Module α} {g g' : Graph α} {r : Ref} {t : TensorType α}

theorem var_eq_ok_iff {id : VarId} {v : Variable α} : m.var id = .ok v ↔ m.var? id = some v := by
  rw [var]
  cases m.var? id <;> simp

theorem typeOf_var_iff {id : VarId} :
    m.typeOf g (.var id) = .ok t ↔ ∃ v, m.var? id = some v ∧ v.type = t := by
  rw [typeOf, var]
  cases m.var? id <;> simp [Except.map]

theorem typeOf_node_iff {id : NodeId} :
    m.typeOf g (.node id) = .ok t ↔ ∃ n, g.node? id = some n ∧ n.type = some t := by
  rw [typeOf, Graph.node]
  cases g.node? id with
  | none => simp [bind, Except.bind]
  | some n => cases h : n.type <;> simp [bind, Except.bind, h]

theorem typeOf_mono (h : m.typeOf g r = .ok t) (covers : m'.Covers m) (extends' : g'.Extends g) :
    m'.typeOf g' r = .ok t := by
  cases r with
  | var id =>
    obtain ⟨v, hv, rfl⟩ := typeOf_var_iff.mp h
    obtain ⟨w, hw, alike⟩ := covers id v hv
    exact typeOf_var_iff.mpr ⟨w, hw, alike.type⟩
  | node id =>
    obtain ⟨n, hn, hnt⟩ := typeOf_node_iff.mp h
    exact typeOf_node_iff.mpr ⟨n, extends' id.index n hn, hnt⟩

/-- The references have these types, one by one. -/
def TypesOf (m : Module α) (g : Graph α) (rs : List Ref) (ts : List (TensorType α)) : Prop :=
  List.Forall₂ (fun (r : Ref) (t : TensorType α) => m.typeOf g r = .ok t) rs ts

theorem TypesOf.one {x : Ref} {ts : List (TensorType α)} (h : m.TypesOf g [x] ts) :
    ∃ t, ts = [t] ∧ m.typeOf g x = .ok t := by
  obtain ⟨t, rest, ht, hrest, rfl⟩ := List.forall₂_cons_left_iff.mp h
  cases hrest
  exact ⟨t, rfl, ht⟩

theorem TypesOf.two {x y : Ref} {ts : List (TensorType α)} (h : m.TypesOf g [x, y] ts) :
    ∃ t u, ts = [t, u] ∧ m.typeOf g x = .ok t ∧ m.typeOf g y = .ok u := by
  obtain ⟨t, rest, ht, hrest, rfl⟩ := List.forall₂_cons_left_iff.mp h
  obtain ⟨u, rfl, hu⟩ := TypesOf.one hrest
  exact ⟨t, u, rfl, ht, hu⟩

theorem TypesOf.three {x y z : Ref} {ts : List (TensorType α)} (h : m.TypesOf g [x, y, z] ts) :
    ∃ t u v, ts = [t, u, v] ∧ m.typeOf g x = .ok t ∧ m.typeOf g y = .ok u ∧
      m.typeOf g z = .ok v := by
  obtain ⟨t, rest, ht, hrest, rfl⟩ := List.forall₂_cons_left_iff.mp h
  obtain ⟨u, v, rfl, hu, hv⟩ := TypesOf.two hrest
  exact ⟨t, u, v, rfl, ht, hu, hv⟩

theorem TypesOf.mono {rs : List Ref} {ts : List (TensorType α)} (h : m.TypesOf g rs ts)
    (covers : m'.Covers m) (extends' : g'.Extends g) : m'.TypesOf g' rs ts :=
  h.imp fun _ _ ht => typeOf_mono ht covers extends'

end Module

/-! ## Accepted inputs -/

/-- Inputs of the types `ts` suit a node of this kind, and its value then has the type `out`. -/
inductive NodeKind.Accepts [Scalar α] :
    NodeKind α → List (TensorType α) → Option (TensorType α) → Prop
  | unary {op : UnaryOp} {d : TensorType α} : Accepts (.compute (.unary op)) [d] (some d)
  | compute {op : Operator α} {ts : List (TensorType α)} {d : TensorType α} :
      (∀ f, op ≠ .unary f) → Signature.operator op (d :: ts) = .ok () →
      Accepts (.compute op) ts (some d)
  | reshape {dims : List Nat} {x d : TensorType α} : volume d.dims = volume x.dims →
      Accepts (.reshape dims) [x] (some d)
  | regression {d e : TensorType α} : d.dims = e.dims → Accepts .regression [d, e] (some d)
  | splat {x : α} {d : TensorType α} : Accepts (.splat x) [] (some d)
  | gradientSum {ts : List (TensorType α)} {d : TensorType α} : (∀ t ∈ ts, t.dims = d.dims) →
      Accepts .gradientSum ts (some d)
  | save {x d : TensorType α} : (x == d) = true → Accepts .save [x, d] none
  | update {rule : UpdateRule α} {w g v : TensorType α} :
      Signature.instruction (.update rule) [w, g, v] = .ok () → Accepts (.update rule) [w, g, v] none

/-- The inputs of a node have types that its kind accepts, and it stores into variables only. -/
structure Node.Typed [Scalar α] (m : Module α) (g : Graph α) (n : Node α) : Prop where
  accepts : ∃ ts, m.TypesOf g n.inputs ts ∧ n.kind.Accepts ts n.type
  stores : n.StoresIntoVariables

theorem Node.Typed.mono [Scalar α] {m m' : Module α} {g g' : Graph α} {n : Node α}
    (typed : n.Typed m g) (covers : m'.Covers m) (extends' : g'.Extends g) : n.Typed m' g' := by
  obtain ⟨ts, hts, accepts⟩ := typed.accepts
  exact ⟨⟨ts, hts.mono covers extends', accepts⟩, typed.stores⟩

/-- What the checks of a builder establish: a node uses only nodes before it, has a name of its own,
and its inputs suit it. -/
structure Graph.Proper [Scalar α] (m : Module α) (g : Graph α) : Prop where
  formed : g.WellFormed
  distinct : g.DistinctNames
  typed : ∀ n ∈ g.nodes, n.Typed m g

namespace Graph.Proper
variable [Scalar α] {m m' : Module α} {g g' : Graph α}

theorem empty (m : Module α) (name : String) : (Graph.empty name).Proper m :=
  ⟨.empty name, .empty name, by simp⟩

theorem mono (proper : g.Proper m) (covers : m'.Covers m) : g.Proper m' :=
  ⟨proper.formed, proper.distinct, fun n hn => (proper.typed n hn).mono covers (.refl g)⟩

/-- Names and the mark for in-place activations do not matter. -/
theorem congr (proper : g.Proper m) (same : g'.nodes = g.nodes) : g'.Proper m := by
  have extends' : g'.Extends g := fun i n hn => by rw [same]; exact hn
  refine ⟨⟨?_, ?_⟩, ?_, ?_⟩
  · intro i n hn
    rw [same] at hn
    exact proper.formed.ordered i n hn
  · intro n hn
    rw [same] at hn
    exact proper.formed.arities n hn
  · intro i j a b hi hj
    rw [same] at hi hj
    exact proper.distinct i j a b hi hj
  · intro n hn
    rw [same] at hn
    exact (proper.typed n hn).mono (.refl m) extends'

/-- A node that its inputs suit can be added. -/
theorem push (proper : g.Proper m) {name : String} {kind : NodeKind α} {inputs : List Ref}
    {type : Option (TensorType α)} {id : NodeId}
    (h : g.push name kind inputs type = .ok (g', id))
    {ts : List (TensorType α)} (hts : m.TypesOf g inputs ts) (accepts : kind.Accepts ts type)
    (stores : (⟨name, kind, inputs, type⟩ : Node α).StoresIntoVariables) : g'.Proper m := by
  have extends' := push_extends h
  refine ⟨proper.formed.push h, proper.distinct.push h, fun n hn => ?_⟩
  rcases (mem_push h).mp hn with hn | rfl
  · exact (proper.typed n hn).mono (.refl m) extends'
  · exact ⟨⟨ts, hts.mono (.refl m) extends', accepts⟩, stores⟩

end Graph.Proper
end NeuralGraph
