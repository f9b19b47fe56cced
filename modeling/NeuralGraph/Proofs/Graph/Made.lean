import NeuralGraph.Proofs.Graph.Names
import NeuralGraph.Proofs.Graph.Order
import NeuralGraph.Proofs.Module.Typing

/-!
# Graphs made by adding nodes

Nodes of any kind, with any inputs that stand before them and any types.  Such graphs are well formed
and their names are distinct.  `Graph.Pushes` is a part of the making that adds nodes of some kinds only.
-/

namespace NeuralGraph
set_option autoImplicit false
variable {α : Type}

namespace Graph

/-- Graphs that adding nodes has made, under any name and in place or not. -/
inductive Made : Graph α → Prop
  | empty (name : String) : Made (.empty name)
  | push {g g' : Graph α} {name : String} {kind : NodeKind α} {inputs : List Ref}
      {type : Option (TensorType α)} {id : NodeId} : Made g →
      g.push name kind inputs type = .ok (g', id) → Made g'
  | relabel {g g' : Graph α} : Made g → g'.nodes = g.nodes → Made g'

theorem WellFormed.congr {g g' : Graph α} (formed : g.WellFormed) (same : g'.nodes = g.nodes) :
    g'.WellFormed :=
  ⟨by rw [Ordered, same]; exact formed.ordered, by rw [same]; exact formed.arities⟩

theorem Made.formed {g : Graph α} (made : g.Made) : g.WellFormed := by
  induction made with
  | empty name => exact .empty name
  | push _ pushed formed => exact formed.push pushed
  | relabel _ same formed => exact formed.congr same

theorem Made.distinct {g : Graph α} (made : g.Made) : g.DistinctNames := by
  induction made with
  | empty name => exact .empty name
  | push _ pushed distinct => exact distinct.push pushed
  | relabel _ same distinct =>
    intro i j a b
    rw [same]
    exact distinct i j a b

/-- The graph that is made by adding the nodes of `g` one after the other. -/
def rebuild (g : Graph α) : Except (Error α) (Graph α) :=
  g.nodes.toList.foldlM
    (fun (h : Graph α) (n : Node α) => (h.push n.name n.kind n.inputs n.type).map Prod.fst)
    (.empty g.name)

theorem Made.of_rebuild {g g' : Graph α} (h : g.rebuild = .ok g') : g'.Made := by
  have from_nodes : ∀ (ns : List (Node α)) (h : Graph α), h.Made →
      ns.foldlM (fun (h : Graph α) (n : Node α) =>
        (h.push n.name n.kind n.inputs n.type).map Prod.fst) h = .ok g' → g'.Made := by
    intro ns
    induction ns with
    | nil =>
      intro h made same
      cases same
      exact made
    | cons n ns ih =>
      intro h made added
      rw [List.foldlM_cons] at added
      cases pushed : h.push n.name n.kind n.inputs n.type with
      | error e => simp [pushed, Except.map, bind, Except.bind] at added
      | ok r =>
        rw [pushed] at added
        exact ih r.1 (made.push pushed) added
  exact from_nodes _ _ (.empty g.name) h

/-- An activation function of a node has the type of that node. -/
def KeepsTypes (g : Graph α) : Prop :=
  ∀ n ∈ g.nodes, ∀ op i source type, n.kind = .compute (.unary op) → n.inputs = [.node i] →
    g.node? i = some source → source.type = some type → n.type = some type

theorem Proper.keepsTypes [Scalar α] {m : Module α} {g : Graph α} (proper : g.Proper m) :
    g.KeepsTypes := by
  intro n hn op i source type kind inputs hi ht
  obtain ⟨ts, types, accepts⟩ := (proper.typed n hn).accepts
  rw [kind] at accepts
  rw [inputs] at types
  rcases types with _ | ⟨typed, _ | -⟩
  obtain ⟨source', hi', ht'⟩ := Module.typeOf_node_iff.mp typed
  obtain rfl := Option.some.inj (hi.symm.trans hi')
  rw [ht, Option.some.injEq] at ht'
  subst ht'
  generalize n.type = t at accepts
  cases accepts with
  | unary => rfl
  | compute other _ => exact absurd rfl (other op)

/-- Nodes are added, whose kinds have the property `P`. -/
inductive Pushes (P : NodeKind α → Prop) : Graph α → Graph α → Prop
  | refl (g : Graph α) : Pushes P g g
  | push {g g' g'' : Graph α} {name : String} {kind : NodeKind α} {inputs : List Ref}
      {type : Option (TensorType α)} {id : NodeId} : Pushes P g g' → P kind →
      g'.push name kind inputs type = .ok (g'', id) → Pushes P g g''

section
variable {P Q : NodeKind α → Prop} {g g' g'' : Graph α}

theorem Pushes.trans (h : g.Pushes P g') (h' : g'.Pushes P g'') : g.Pushes P g'' := by
  induction h' with
  | refl => exact h
  | push _ kind pushed ih => exact ih.push kind pushed

theorem Pushes.mono (h : g.Pushes P g') (imp : ∀ kind, P kind → Q kind) : g.Pushes Q g' := by
  induction h with
  | refl => exact .refl g
  | push _ kind pushed ih => exact ih.push (imp _ kind) pushed

theorem Pushes.extends' (h : g.Pushes P g') : g'.Extends g := by
  induction h with
  | refl => exact .refl g
  | push _ _ pushed ih => exact (push_extends pushed).trans ih

theorem Pushes.nodes (h : g.Pushes P g') :
    ∃ added, g'.nodes.toList = g.nodes.toList ++ added ∧ ∀ n ∈ added, P n.kind := by
  induction h with
  | refl => exact ⟨[], (List.append_nil _).symm, by simp⟩
  | push _ kind pushed ih =>
    obtain ⟨added, nodes, all⟩ := ih
    obtain ⟨rfl, -⟩ := push_eq pushed
    refine ⟨added ++ [_], by rw [Array.toList_push, nodes, List.append_assoc], fun n hn => ?_⟩
    rcases List.mem_append.mp hn with hn | hn
    · exact all n hn
    · rw [List.mem_singleton.mp hn]
      exact kind

/-- The nodes that were added. -/
theorem Pushes.kind (h : g.Pushes P g') {i : Nat} {n : Node α} (hn : g'.nodes[i]? = some n)
    (late : g.size ≤ i) : P n.kind := by
  induction h with
  | refl => exact absurd (Array.getElem?_eq_some_iff.mp hn).1 (Nat.not_lt.mpr late)
  | push _ kind pushed ih =>
    obtain ⟨rfl, -⟩ := push_eq pushed
    rw [Array.getElem?_push] at hn
    split at hn
    · cases hn
      exact kind
    · exact ih hn

theorem Pushes.mem (h : g.Pushes P g') {n : Node α} (hn : n ∈ g'.nodes) : n ∈ g.nodes ∨ P n.kind := by
  induction h with
  | refl => exact .inl hn
  | push _ kind pushed ih =>
    rcases (mem_push pushed).mp hn with hn | rfl
    · exact ih hn
    · exact .inr kind

theorem Made.pushes (made : g.Made) (h : g.Pushes P g') : g'.Made := by
  induction h with
  | refl => exact made
  | push _ _ pushed ih => exact ih.push pushed

end

theorem KeepsTypes.push {g g' : Graph α} {name : String} {kind : NodeKind α} {inputs : List Ref}
    {type : Option (TensorType α)} {id : NodeId} (keeps : g.KeepsTypes) (formed : g.WellFormed)
    (other : ∀ op, kind ≠ .compute (.unary op)) (h : g.push name kind inputs type = .ok (g', id)) :
    g'.KeepsTypes := by
  obtain ⟨rfl, -⟩ := push_eq h
  intro n hn op i source t unary single hi ht
  rcases Array.mem_push.mp hn with hn | rfl
  · obtain ⟨j, hj⟩ := Array.getElem?_of_mem hn
    have before : i.index < j := formed.ordered j n hj i (by
      rw [single]
      exact mem_nodeInputs.mpr (List.mem_singleton_self _))
    have bound := (Array.getElem?_eq_some_iff.mp hj).1
    rw [node?, Array.getElem?_push, if_neg (Nat.ne_of_lt (Nat.lt_trans before bound))] at hi
    exact keeps n hn op i source t unary single hi ht
  · exact absurd unary (other op)

theorem KeepsTypes.pushes {g g' : Graph α} (keeps : g.KeepsTypes) (made : g.Made)
    (h : g.Pushes (fun (kind : NodeKind α) => ∀ op, kind ≠ .compute (.unary op)) g') :
    g'.KeepsTypes := by
  induction h with
  | refl => exact keeps
  | push earlier other pushed ih => exact ih.push (made.pushes earlier).formed other pushed

end Graph
end NeuralGraph
