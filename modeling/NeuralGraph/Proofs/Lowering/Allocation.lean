import NeuralGraph.Proofs.Lowering.Steps
import NeuralGraph.Proofs.Module.Typing
import NeuralGraph.Proofs.Program.Growth

/-!
# What lowering does to the weight store

Lowering changes the weight store only by giving homes to variables of the module, whether it succeeds
or fails.  Its program grows by activations and accepted instructions.
-/

namespace NeuralGraph
set_option autoImplicit false
variable {α : Type} [Scalar α]

/-- Homes are given to variables of the module, those that are trained or stored into as mutable
locations. -/
inductive WeightStorage.Allocates (m : Module α) (stored : List VarId) :
    WeightStorage α → WeightStorage α → Prop
  | refl (s : WeightStorage α) : Allocates m stored s s
  | step {s t u : WeightStorage α} {id : VarId} {v : Variable α} {l : LocationId} :
      Allocates m stored s t → m.var? id = some v →
      t.allocate id v (if v.isTrained || stored.contains id then .mutable else .constant) =
        .ok (u, l) → Allocates m stored s u

namespace WeightStorage
variable {m : Module α} {stored : List VarId} {s t u : WeightStorage α}

theorem Allocates.trans (h : Allocates m stored s t) (h' : Allocates m stored t u) :
    Allocates m stored s u := by
  induction h' with
  | refl => exact h
  | step _ known given ih => exact .step ih known given

/-- What allocation keeps, it keeps however many homes are given. -/
theorem Allocates.keeps {P : WeightStorage α → Prop} (h : Allocates m stored s t) (hs : P s)
    (allocate : ∀ {s t : WeightStorage α} {id : VarId} {v : Variable α} {l : LocationId}, P s →
      m.var? id = some v →
      s.allocate id v (if v.isTrained || stored.contains id then .mutable else .constant) =
        .ok (t, l) → P t) : P t := by
  induction h with
  | refl => exact hs
  | step _ known given ih => exact allocate ih known given

/-- Homes are called like their variables and have their types. -/
def Labelled (s : WeightStorage α) (m : Module α) : Prop :=
  ∀ v l, s.home? v = some l → ∃ u p, m.var? v = some u ∧ s.arena.get? l = some p ∧
    p.name = u.name ∧ (p.type == u.type) = true

theorem Labelled.allocate {id : VarId} {v : Variable α} {mutability : Mutability} {l : LocationId}
    (labelled : s.Labelled m) (known : m.var? id = some v)
    (h : s.allocate id v mutability = .ok (t, l)) : t.Labelled m := by
  rcases allocate_eq_ok_iff.mp h with ⟨-, rfl⟩ | ⟨-, same, a, ha, rfl⟩
  · exact labelled
  · obtain ⟨-, rfl, rfl⟩ := Arena.insert_eq_ok_iff.mp ha
    intro w k hw
    rw [home?_append] at hw
    rcases Option.or_eq_some_iff.mp hw with hw | ⟨-, hw⟩
    · obtain ⟨u, p, hu, hp, rest⟩ := labelled w k hw
      exact ⟨u, p, hu, Arena.get?_push_of_some hp, rest⟩
    · split at hw
      · next own =>
        cases hw
        subst own
        exact ⟨v, _, known, Arena.get?_push_self s.arena _, rfl, same⟩
      · cases hw

theorem Labelled.mono {m' : Module α} (labelled : s.Labelled m) (covers : m'.Covers m) :
    s.Labelled m' := by
  intro v l home
  obtain ⟨u, p, hu, hp, name, type⟩ := labelled v l home
  obtain ⟨u', hu', alike⟩ := covers v u hu
  exact ⟨u', p, hu', hp, name.trans alike.name.symm, by rw [alike.type]; exact type⟩

theorem Allocates.labelled (h : Allocates m stored s t) (labelled : s.Labelled m) : t.Labelled m :=
  h.keeps (P := fun (s : WeightStorage α) => s.Labelled m) labelled
    fun labelled known given => labelled.allocate known given

theorem Allocates.sound (h : Allocates m stored s t) (sound : s.Sound) : t.Sound :=
  h.keeps sound fun sound _ given => sound.allocate given

theorem Allocates.grows (h : Allocates m stored s t) : s.Grows t :=
  h.keeps (.refl s) fun grows _ given => grows.trans (allocate_grows given)

end WeightStorage

/-! ## Lowering -/

namespace Lowering

/-- Homes are given to variables of the module, and the program grows. -/
structure Advances (c : LoweringContext α) (s t : Lowering α) : Prop where
  allocates : s.store.Allocates c.module c.stored t.store
  grown : s.program.Grown s.store.arena → t.program.Grown t.store.arena

theorem Advances.refl (c : LoweringContext α) (s : Lowering α) : Advances c s s := ⟨.refl _, id⟩

instance (c : LoweringContext α) : IsPreorder (Lowering α) (Advances c) where
  refl := .refl c
  trans _ _ _ h h' := ⟨h.allocates.trans h'.allocates, fun grown => h'.grown (h.grown grown)⟩

end Lowering

namespace Lower
open Lowering
variable {β : Type} {c : LoweringContext α}

/-! What the single steps keep, the lowering of all nodes keeps. -/

section
variable {R : Lowering α → Lowering α → Prop} [IsPreorder (Lowering α) R]

omit [Scalar α] in
theorem leads_attempt {f : Lowering α → Except (Error α) (Lowering α × β)}
    (h : ∀ s s' b, f s = .ok (s', b) → R s s') : Leads R (attempt f) := by
  intro s
  simp only [attempt, ExceptT.run_mk, StateT.run]
  cases hf : f s with
  | error e => exact refl_of R s
  | ok r => exact h s r.1 r.2 hf

theorem leads_node_of {id : NodeId} {n : Node α} (operand : ∀ r, Leads R (operand c r))
    (emit : ∀ kind values, Leads R (emit n kind values))
    (result : (∀ op, n.kind ≠ .compute (.unary op)) → Leads R (result id n))
    (unary : ∀ op r, n.kind = .compute (.unary op) → n.inputs = [r] → Leads R (do
      let source ← Lower.operand c r
      let target ← activationTarget c id n source
      Lower.emit n (.compute (.unary op)) [target, source])) : Leads R (node c id n) := by
  have operands : Leads R (operands c n) := leads_mapM operand
  have computed : ∀ kind : Opcode α, (∀ op, n.kind ≠ .compute (.unary op)) →
      Leads R (compute c id n kind) := fun kind other =>
    leads_bind operands fun values => leads_bind (result other) fun target =>
      emit kind (target :: values)
  unfold node
  split
  · next op kind =>
    split
    · next r inputs => exact unary op r kind inputs
    · exact leads_throw _
  · next op other kind =>
    refine computed _ fun op' => ?_
    rw [kind]
    rintro ⟨⟩
    exact other op' rfl
  · next kind => exact computed _ (by rw [kind]; nofun)
  · next kind =>
    refine leads_bind operands fun values => ?_
    split
    · exact leads_bind (result (by rw [kind]; nofun)) fun target => emit _ _
    · exact leads_throw _
  · next kind => exact leads_bind (result (by rw [kind]; nofun)) fun target => emit _ _
  · refine leads_bind operands fun values => ?_
    split
    · exact emit _ _
    · exact leads_throw _
  · next kind =>
    exact leads_bind operands fun contributions => leads_bind (result (by rw [kind]; nofun))
      fun total => leads_bind (emit _ _) fun _ => leads_forM fun x => emit _ _
  · exact leads_bind operands fun values => emit _ values
  · exact leads_throw _

omit [Scalar α] in
theorem leads_fetch (id : NodeId) : Leads R
    (attempt fun (s : Lowering α) => (c.graph.node id).map fun (n : Node α) => (s, n)) := by
  refine leads_attempt fun s s' n h => ?_
  obtain ⟨n', -, same⟩ := exists_of_map_eq_ok h
  cases same
  exact refl_of R s

theorem leads_nodes_of (h : ∀ id n, c.graph.node? id = some n → Leads R (node c id n))
    (ids : List NodeId) : Leads R (nodes c ids) := by
  refine leads_forM fun id s => ?_
  have fetched := leads_fetch (R := R) (c := c) id s
  rw [run_bind]
  cases hn : c.graph.node? id with
  | none =>
    simp only [Graph.node, hn, Except.map, attempt, ExceptT.run_mk, StateT.run] at fetched ⊢
    exact fetched
  | some n =>
    simp only [Graph.node, hn, Except.map, attempt, ExceptT.run_mk, StateT.run]
    exact h id n hn s

end

theorem leads_operand (r : Ref) : Leads (Advances c) (operand c r) := by
  refine leads_attempt fun s s' value h => ?_
  rcases operand_cases (yields_attempt.mpr h) with ⟨-, rfl⟩ | ⟨id, v, _, _, -, -, known, given, -, rfl⟩
  · exact .refl c s'
  · exact ⟨.step (.refl s.store) (Module.var_eq_ok_iff.mp known) given, fun grown =>
      grown.widen (WeightStorage.allocate_grows given).arena⟩

theorem leads_define (id : NodeId) (value : Value) : Leads (Advances c) (define id value) :=
  leads_attempt fun s s' _ h => by
    cases h
    exact ⟨.refl s.store, fun grown => grown⟩

theorem leads_newActivation (name : String) (type : TensorType α) :
    Leads (Advances c) (attempt fun (s : Lowering α) => do
      let (program, value) ← s.program.newActivation name type
      .ok ({ s with program := program }, value)) := by
  refine leads_attempt fun s s' value h => ?_
  simp only [bind, Except.bind] at h
  split at h
  · cases h
  · next r made =>
    cases h
    exact ⟨.refl s.store, fun grown => grown.newActivation made⟩

theorem leads_result (id : NodeId) (n : Node α) : Leads (Advances c) (result id n) := by
  rw [result]
  split
  · exact leads_throw _
  · exact leads_bind (leads_newActivation _ _) fun value => leads_bind (leads_define id value)
      fun _ => leads_pure _

theorem leads_activationTarget (id : NodeId) (n : Node α) (input : Value) :
    Leads (Advances c) (activationTarget c id n input) := by
  rw [activationTarget]
  split
  · split
    · exact leads_throw _
    · exact leads_bind (leads_define id input) fun _ => leads_pure _
  · exact leads_result id n

theorem leads_emit (n : Node α) (kind : Opcode α) (values : List Value) :
    Leads (Advances c) (emit n kind values) := by
  refine leads_attempt fun s s' _ h => ?_
  simp only [bind, Except.bind] at h
  split at h
  · cases h
  · next p pushed =>
    cases h
    exact ⟨.refl s.store, fun grown => grown.push pushed⟩

theorem leads_node (id : NodeId) (n : Node α) : Leads (Advances c) (node c id n) :=
  leads_node_of leads_operand (leads_emit n) (fun _ => leads_result id n) fun _ r _ _ =>
    leads_bind (leads_operand r) fun source =>
      leads_bind (leads_activationTarget id n source) fun _ => leads_emit n _ _

theorem leads_nodes (ids : List NodeId) : Leads (Advances c) (nodes c ids) :=
  leads_nodes_of (fun id n _ => leads_node id n) ids

end Lower

/-- Lowering gives homes to variables of the module and changes nothing else in the store. -/
theorem Graph.lower_allocates (g : Graph α) (m : Module α) (s : WeightStorage α) :
    s.Allocates m (m.storedWith g) (g.lower m s).2 := by
  rw [lower]
  split
  · exact .refl s
  · next order _ =>
    have leads := Lower.leads_nodes (c := ⟨m, g, m.storedWith g⟩) order ⟨.empty g.name, s, []⟩
    dsimp only
    split
    all_goals
      next t run =>
      rw [run] at leads
      exact leads.allocates

/-- The program of a graph has grown from nothing. -/
theorem Graph.lower_grown {g : Graph α} {m : Module α} {s s' : WeightStorage α} {p : Program α}
    (h : g.lower m s = (.ok p, s')) : p.Grown s'.arena := by
  rw [lower] at h
  split at h
  · cases h
  · next order _ =>
    have leads := Lower.leads_nodes (c := ⟨m, g, m.storedWith g⟩) order ⟨.empty g.name, s, []⟩
    dsimp only at h
    split at h
    · next t run =>
      cases h
      rw [run] at leads
      exact leads.grown (.empty s.arena g.name)
    · cases h

end NeuralGraph
