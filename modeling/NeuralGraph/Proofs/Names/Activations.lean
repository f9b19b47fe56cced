import NeuralGraph.Proofs.Gradient.Naming
import NeuralGraph.Proofs.Lowering.Order
import NeuralGraph.Proofs.Lowering.Twins
import NeuralGraph.Proofs.Module.Atomicity
import NeuralGraph.Proofs.Names.Catalogs

/-!
# Names of activations

Lowering calls the activation of a node like the node.  As the nodes of a graph have different names,
there is never an activation of that name yet.  So where a name is refused during lowering, it is that of
a variable which gets its home only now, although a location of the weight store is called like it.
-/

namespace NeuralGraph
set_option autoImplicit false
variable {ε σ α β γ : Type}

/-! ## Before and after -/

/-- From a state in `P` the computation leaves a state in `Q`, or it fails with an error that stands in
the relation `E` to the state it leaves. -/
def Brings (P Q : σ → Prop) (E : ε → σ → Prop) (x : ExceptT ε (StateM σ) β) : Prop :=
  ∀ s, P s → (∀ b s', Yields x s b s' → Q s') ∧ ∀ e s', x.run.run s = (.error e, s') → E e s'

section
variable {P Q R : σ → Prop} {E : ε → σ → Prop} {x : ExceptT ε (StateM σ) β}

theorem brings_pure (b : β) : Brings P P E (pure b : ExceptT ε (StateM σ) β) := by
  refine fun s hs => ⟨fun b' s' h => (yields_pure.mp h).2 ▸ hs, fun e s' h => ?_⟩
  cases h

theorem brings_throw {e : ε} (h : ∀ s, E e s) :
    Brings P Q E (throw e : ExceptT ε (StateM σ) β) := by
  refine fun s _ => ⟨fun b s' yields => absurd yields yields_throw, fun e' s' run => ?_⟩
  cases run
  exact h s

theorem brings_bind {f : β → ExceptT ε (StateM σ) γ} (h : Brings P Q E x)
    (h' : ∀ b, Brings Q R E (f b)) : Brings P R E (x >>= f) := by
  intro s hs
  obtain ⟨succeeds, fails⟩ := h s hs
  constructor
  · intro c s' yields
    obtain ⟨b, s₁, first, second⟩ := yields_bind.mp yields
    exact (h' b s₁ (succeeds b s₁ first)).1 c s' second
  · intro e s' run
    rw [run_bind] at run
    rcases first : x.run.run s with ⟨e' | b, s₁⟩
    · rw [first] at run
      cases run
      exact fails e s' first
    · rw [first] at run
      exact (h' b s₁ (succeeds b s₁ first)).2 e s' run

/-- A step that only finds something. -/
theorem brings_after {b : β} {f : β → ExceptT ε (StateM σ) γ} (found : ∀ s, Yields x s b s)
    (h : Brings P Q E (f b)) : Brings P Q E (x >>= f) := by
  intro s hs
  simp only [Yields, (found s).run_bind]
  exact h s hs

theorem Brings.mono {P' Q' : σ → Prop} (h : Brings P Q E x) (before : ∀ s, P' s → P s)
    (after : ∀ s, Q s → Q' s) : Brings P' Q' E x := fun s hs =>
  ⟨fun b s' yields => after s' ((h s (before s hs)).1 b s' yields), (h s (before s hs)).2⟩

theorem brings_mapM {f : β → ExceptT ε (StateM σ) γ} {bs : List β} (h : ∀ b, Brings P P E (f b)) :
    Brings P P E (bs.mapM f) := by
  induction bs with
  | nil => exact brings_pure []
  | cons b bs ih =>
    rw [List.mapM_cons]
    exact brings_bind (h b) fun _ => brings_bind ih fun _ => brings_pure _

theorem brings_forM {f : β → ExceptT ε (StateM σ) PUnit} {bs : List β}
    (h : ∀ b, Brings P P E (f b)) : Brings P P E (forM bs f) := by
  induction bs with
  | nil => exact brings_pure PUnit.unit
  | cons b bs ih =>
    rw [List.forM_cons]
    exact brings_bind (h b) fun _ => ih

end

variable [Scalar α]

/-! ## Refused names -/

/-- If a name is refused, then it is that of a variable without a home, and a location of the weight
store has it. -/
def Lowering.BlamesHome (m : Module α) (e : Error α) (s : Lowering α) : Prop :=
  ∀ name scope, e = .duplicateName name scope → scope = .storage ∧
    ∃ id v l, m.var? id = some v ∧ v.name = name ∧ s.store.home? id = none ∧
      s.store.arena.find? name = some l

/-- An error that is not about a name. -/
def Error.Nameless : Error α → Prop
  | .duplicateName _ _ => False
  | _ => True

omit [Scalar α] in
theorem Error.Nameless.blames {m : Module α} {e : Error α} {s : Lowering α} (h : e.Nameless) :
    Lowering.BlamesHome m e s := by
  rintro name scope rfl
  exact h.elim

namespace Instruction
variable {i : Instruction α} {m : Memory α} {defined : List LocationId} {e : Error α}

omit [Scalar α] in
theorem checkOperand_nameless {position : Nat} {o : Operand} {d : Direction}
    (h : i.checkOperand m defined position o d = .error e) : e.Nameless := by
  rw [checkOperand] at h
  split at h
  · cases h
    trivial
  · split at h
    · cases h
      trivial
    · split at h
      · cases h
        trivial
      · split at h
        · cases h
          trivial
        · cases h

omit [Scalar α] in
theorem checkOperands_nameless {position : Nat} {os : List Operand} {ds : List Direction}
    (h : i.checkOperands m defined position os ds = .error e) : e.Nameless := by
  induction os generalizing position ds with
  | nil => cases h
  | cons o os ih =>
    cases ds with
    | nil => cases h
    | cons d ds =>
      simp only [checkOperands, bind, Except.bind] at h
      split at h
      · next first =>
        cases h
        exact checkOperand_nameless first
      · split at h
        · next rest =>
          cases h
          exact ih rest
        · cases h

theorem check_nameless (h : i.check m defined = .error e) : e.Nameless := by
  rw [check] at h
  split at h
  · cases h
    trivial
  · simp only [bind, Except.bind] at h
    split at h
    · next operands =>
      cases h
      exact checkOperands_nameless operands
    · split at h
      · cases h
      · cases h
        trivial

end Instruction

/-- Allocation refuses a name only where a location has it and the variable has no home. -/
theorem WeightStorage.allocate_duplicate {s : WeightStorage α} {id : VarId} {v : Variable α}
    {mutability : Mutability} {name : String} {scope : Scope}
    (h : s.allocate id v mutability = .error (.duplicateName name scope)) :
    scope = .storage ∧ v.name = name ∧ s.home? id = none ∧ ∃ l, s.arena.find? name = some l := by
  simp only [allocate, Arena.createHolding, Arena.insert] at h
  cases home : s.home? id with
  | some l => simp [home] at h
  | none =>
    by_cases fits : (v.initial.type == v.type) = true
    · cases found : s.arena.find? v.name with
      | none => simp [home, fits, found, bind, Except.bind] at h
      | some l =>
        simp only [home, fits, found, bind, Except.bind, if_true, Except.error.injEq,
          Error.duplicateName.injEq] at h
        obtain ⟨rfl, rfl⟩ := h
        exact ⟨rfl, rfl, rfl, l, found⟩
    · simp [home, fits, bind, Except.bind] at h

/-! ## Steps -/

namespace Lower
open NeuralGraph.Lowering
variable {c : LoweringContext α} {g : Graph α} {k : Nat}

omit [Scalar α] in
theorem brings_attempt {P Q : Lowering α → Prop} {E : Error α → Lowering α → Prop}
    {f : Lowering α → Except (Error α) (Lowering α × β)}
    (h : ∀ s, P s → (∀ s' b, f s = .ok (s', b) → Q s') ∧ ∀ e, f s = .error e → E e s) :
    Brings P Q E (attempt f) := by
  refine fun s hs => ⟨fun b s' yields => (h s hs).1 s' b (yields_attempt.mp yields), ?_⟩
  intro e s' run
  simp only [attempt, ExceptT.run_mk, StateT.run] at run
  cases hf : f s with
  | error e' =>
    rw [hf] at run
    cases run
    exact (h s hs).2 e hf
  | ok r =>
    rw [hf] at run
    cases run

/-- Operands are found or get homes; activations are left alone. -/
theorem brings_operand (r : Ref) :
    Brings (NamedBelow g k) (NamedBelow g k) (BlamesHome c.module) (operand c r) := by
  refine brings_attempt fun s named => ⟨fun s' value done => ?_, fun e failed => ?_⟩
  · rcases operand_cases (yields_attempt.mpr done) with ⟨-, rfl⟩ | ⟨id, v, store, l, -, -, -, -, -, rfl⟩
    · exact named
    · exact named
  · split at failed
    · cases failed
    · split at failed
      · next id _ =>
        cases known : c.module.var? id with
        | none =>
          simp only [Module.var, known, bind, Except.bind, Except.error.injEq] at failed
          subst failed
          exact Error.Nameless.blames trivial
        | some v =>
          simp only [Module.var, known, bind, Except.bind] at failed
          split at failed
          · next refused =>
            cases failed
            rintro name scope rfl
            obtain ⟨storage, named, homeless, l, taken⟩ := WeightStorage.allocate_duplicate refused
            exact ⟨storage, id, v, l, known, named, homeless, taken⟩
          · cases failed
      · cases failed
        exact Error.Nameless.blames trivial

omit [Scalar α] in
theorem brings_define (id : NodeId) (value : Value) :
    Brings (NamedBelow g k) (NamedBelow g k) (BlamesHome c.module) (define id value) := by
  refine brings_attempt fun s named => ⟨fun s' _ done => ?_, fun e failed => ?_⟩
  · cases done
    exact named
  · cases failed

theorem brings_emit (n : Node α) (kind : Opcode α) (values : List Value) :
    Brings (NamedBelow g k) (NamedBelow g k) (BlamesHome c.module) (emit n kind values) := by
  refine brings_attempt fun s named => ⟨fun s' _ done => ?_, fun e failed => ?_⟩
  · simp only [bind, Except.bind] at done
    split at done
    · cases done
    · next p pushed =>
      cases done
      obtain ⟨-, rfl⟩ := Program.push_eq_ok_iff.mp pushed
      exact named
  · simp only [Program.push, bind, Except.bind] at failed
    split at failed
    · next refused =>
      split at refused
      · next checked =>
        cases refused
        cases failed
        exact (Instruction.check_nameless checked).blames
      · cases refused
    · cases failed

/-- A node that no activation is called like yet gets one. -/
theorem brings_result (distinct : g.DistinctNames) {n : Node α} (hn : g.node? ⟨k⟩ = some n) :
    Brings (NamedBelow g k) (NamedBelow g (k + 1)) (BlamesHome c.module) (result ⟨k⟩ n) := by
  intro s named
  cases type : n.type with
  | none =>
    have nameless : (Error.unresolvedType n.name : Error α).Nameless := trivial
    rw [result, type]
    exact brings_throw (fun _ => nameless.blames) s named
  | some t =>
    have done := yields_result (k := k) type (named.free distinct hn)
    refine ⟨fun value s' yields => ?_, fun e s' run => ?_⟩
    · obtain ⟨-, rfl⟩ := Prod.mk.inj (done.symm.trans yields)
      exact named.succ hn fun _ _ => Program.of_widen
    · cases done.symm.trans run

theorem brings_activationTarget (distinct : g.DistinctNames) {n : Node α}
    (hn : g.node? ⟨k⟩ = some n) (input : Value) :
    Brings (NamedBelow g k) (NamedBelow g (k + 1)) (BlamesHome c.module)
      (activationTarget c ⟨k⟩ n input) := by
  rw [activationTarget]
  split
  · split
    · exact brings_throw fun _ => Error.Nameless.blames trivial
    · exact brings_bind ((brings_define ⟨k⟩ input).mono (fun _ named => named)
        fun _ named => named.mono (Nat.le_succ k)) fun _ => brings_pure _
  · exact brings_result distinct hn

theorem brings_operands (n : Node α) :
    Brings (NamedBelow g k) (NamedBelow g k) (BlamesHome c.module) (operands c n) :=
  brings_mapM brings_operand

/-- One node, whatever its kind. -/
theorem brings_node (distinct : g.DistinctNames) {n : Node α} (hn : g.node? ⟨k⟩ = some n) :
    Brings (NamedBelow g k) (NamedBelow g (k + 1)) (BlamesHome c.module) (node c ⟨k⟩ n) := by
  have operands : Brings (NamedBelow g k) (NamedBelow g k) (BlamesHome c.module) (operands c n) :=
    brings_operands n
  have result := brings_result (c := c) distinct hn
  have emit : ∀ kind values, Brings (NamedBelow g (k + 1)) (NamedBelow g (k + 1))
      (BlamesHome c.module) (emit n kind values) := brings_emit n
  have compute : ∀ kind, Brings (NamedBelow g k) (NamedBelow g (k + 1)) (BlamesHome c.module)
      (compute c ⟨k⟩ n kind) := fun kind =>
    brings_bind operands fun values => brings_bind result fun target => emit kind (target :: values)
  -- Nodes without a value give no activation its name.
  have valueless : ∀ kind values, Brings (NamedBelow g k) (NamedBelow g (k + 1))
      (BlamesHome c.module) (Lower.emit n kind values) := fun kind values =>
    (brings_emit n kind values).mono (fun _ named => named) fun _ named => named.mono (Nat.le_succ k)
  have arity : Brings (NamedBelow g k) (NamedBelow g (k + 1)) (BlamesHome c.module)
      (wrongArity n) := by
    exact brings_throw fun _ => Error.Nameless.blames trivial
  unfold node
  split
  · split
    · exact brings_bind (brings_operand _) fun source =>
        brings_bind (brings_activationTarget distinct hn source) fun target => emit _ _
    · exact arity
  · exact compute _
  · exact compute _
  · refine brings_bind operands fun values => ?_
    split
    · exact brings_bind result fun target => emit _ _
    · exact arity
  · exact brings_bind result fun target => emit _ _
  · refine brings_bind operands fun values => ?_
    split
    · exact valueless _ _
    · exact arity
  · exact brings_bind operands fun contributions => brings_bind result fun total =>
      brings_bind (emit _ _) fun _ => brings_forM fun x => emit _ _
  · exact brings_bind operands fun values => valueless _ values
  · exact brings_throw fun _ => Error.Nameless.blames trivial

/-- Nodes that stand one after the other. -/
theorem brings_nodes (distinct : c.graph.DistinctNames) (k count : Nat) :
    Brings (NamedBelow c.graph k) (NamedBelow c.graph (k + count)) (BlamesHome c.module)
      (nodes c ((List.range' k count).map NodeId.mk)) := by
  induction count generalizing k with
  | zero => exact brings_pure PUnit.unit
  | succ count ih =>
    simp only [nodes, List.forM_eq_forM, List.range'_succ, List.map_cons, List.forM_cons]
    have rest := ih (k + 1)
    rw [Nat.add_right_comm] at rest
    refine brings_bind ?_ fun _ => rest
    cases hn : c.graph.node? ⟨k⟩ with
    | none =>
      -- There is no such node, and nothing goes on from here.
      refine brings_bind (Q := fun _ => False) (brings_attempt fun s _ =>
        ⟨fun s' n done => ?_, fun e failed => ?_⟩) fun n s never => never.elim
      · simp [Graph.node, hn, Except.map] at done
      · simp only [Graph.node, hn, Except.map, Except.error.injEq] at failed
        subst failed
        exact Error.Nameless.blames trivial
    | some n =>
      refine brings_after (b := n) (fun s => yields_attempt.mpr ?_) (brings_node distinct hn)
      rw [Graph.node, hn]
      rfl

end Lower

/-! ## Lowering -/

/-- Lowering of the nodes before node `k` and of the operands of node `k` comes to this state. -/
def Graph.ArrivesAt (g : Graph α) (m : Module α) (store : WeightStorage α) (k : Nat) (n : Node α)
    (s : Lowering α) : Prop :=
  ∃ s₁ values, Yields (Lower.nodes ⟨m, g, m.storedWith g⟩ (g.ids.take k))
      ⟨.empty g.name, store, []⟩ () s₁ ∧
    Yields (Lower.operands ⟨m, g, m.storedWith g⟩ n) s₁ values s

namespace Graph
open NeuralGraph.Lowering
variable {g : Graph α} {m : Module α} {store store' : WeightStorage α}

omit [Scalar α] in
theorem namedBelow_start (store : WeightStorage α) : NamedBelow g 0 ⟨.empty g.name, store, []⟩ := by
  intro a l hl
  simp [Program.empty, Arena.empty, Arena.get?] at hl

/-- When lowering comes to a node, no activation is called like it yet. -/
theorem ArrivesAt.free (distinct : g.DistinctNames) {k : Nat} {n : Node α} {s : Lowering α}
    (hn : g.node? ⟨k⟩ = some n) (arrives : g.ArrivesAt m store k n s) :
    s.program.activations.find? n.name = none := by
  obtain ⟨s₁, values, before, operands⟩ := arrives
  have bound : k ≤ g.size := Nat.le_of_lt (Array.getElem?_eq_some_iff.mp hn).1
  have taken : g.ids.take k = (List.range' 0 k).map NodeId.mk := by
    rw [ids, ← List.map_take, List.take_range, Nat.min_eq_left bound, List.range_eq_range']
  rw [taken] at before
  have named := (Lower.brings_nodes (c := ⟨m, g, m.storedWith g⟩) distinct 0 k _
    (namedBelow_start store)).1 _ _ before
  rw [Nat.zero_add] at named
  exact ((Lower.brings_operands n _ named).1 _ _ operands).free distinct hn

/-- A name that lowering refuses is that of a variable. -/
theorem WellFormed.lower_duplicate (formed : g.WellFormed) (distinct : g.DistinctNames)
    {name : String} {scope : Scope}
    (h : g.lower m store = (.error (.duplicateName name scope), store')) :
    scope = .storage ∧ ∃ id v l, m.var? id = some v ∧ v.name = name ∧ store'.home? id = none ∧
      store'.arena.find? name = some l := by
  rw [formed.ordered.lower_eq, lowerAlong, ids, List.range_eq_range'] at h
  split at h
  · cases h
  · next e s run =>
    cases h
    exact (Lower.brings_nodes (c := ⟨m, g, m.storedWith g⟩) distinct 0 g.size _
      (namedBelow_start store)).2 _ _ run name scope rfl

end Graph

/-! ## Names of nodes -/

/-- The name that is made of a base name: itself if it is free, and otherwise with the smallest positive
number after it for which it is. -/
inductive Graph.Chooses (g : Graph α) (base : String) : String → Prop
  | base : g.hasName base = false → Chooses g base base
  | numbered {k : Nat} : g.hasName base = true → 0 < k → g.hasName (base ++ toString k) = false →
    (∀ j, 0 < j → j < k → g.hasName (base ++ toString j) = true) →
    Chooses g base (base ++ toString k)

omit [Scalar α] in
theorem Graph.chooses_freshName (g : Graph α) (base : String) : g.Chooses base (g.freshName base) := by
  obtain ⟨k, name, taken, free⟩ := g.freshName_eq_numbered base
  rw [name]
  cases k with
  | zero => exact .base free
  | succ k =>
    refine .numbered (taken 0 (Nat.succ_pos k)) (Nat.succ_pos k) free fun j positive lt => ?_
    obtain ⟨j, rfl⟩ := Nat.exists_eq_succ_of_ne_zero (Nat.ne_of_gt positive)
    exact taken (j + 1) lt

/-! ## Graphs and calls -/

namespace Graph

omit [Scalar α] in
/-- Calls add nodes, or change what a graph is called or how it is lowered. -/
theorem made_recordAll {g : Graph α} (made : g.Made) (index : NameIndex) (calls : List (Call α)) :
    (catalog.recordAll (g, index) calls).1.Made := by
  refine Catalog.recordAll_induction (fun g c r made called => ?_) made calls
  have called : c.apply g = .ok r := called
  cases c with
  | push name kind inputs type =>
    obtain ⟨⟨g', id⟩, pushed, rfl⟩ := exists_of_map_eq_ok called
    exact made.push pushed
  | rename name =>
    cases called
    exact made.relabel rfl
  | mark inPlace =>
    cases called
    exact made.relabel rfl

omit [Scalar α] in
/-- Every graph comes about by calls. -/
theorem Made.by_calls {g : Graph α} (made : g.Made) :
    ∃ name calls, (catalog.recordAll (.empty name, []) calls).1 = g := by
  induction made with
  | empty name => exact ⟨name, [], rfl⟩
  | @push g g' base kind inputs type id _ pushed ih =>
    obtain ⟨name, calls, before⟩ := ih
    have called : catalog.call g (.push base kind inputs type) =
        .ok (g', some (g.freshName base, id.index)) :=
      congrArg (Except.map fun (r : Graph α × NodeId) =>
        (r.1, some (g.freshName base, r.2.index))) pushed
    exact ⟨name, _, Catalog.recordAll_concat before called⟩
  | @relabel g g' _ same ih =>
    obtain ⟨name, calls, before⟩ := ih
    have renamed : catalog.call g (.rename g'.name) = .ok ({ g with name := g'.name }, none) := rfl
    have relabelled : { g with name := g'.name, inPlace := g'.inPlace } = g' := by rw [← same]
    have marked : catalog.call { g with name := g'.name } (.mark g'.inPlace) = .ok (g', none) :=
      congrArg (fun (g' : Graph α) => Except.ok (g', none)) relabelled
    exact ⟨name, _, Catalog.recordAll_concat (Catalog.recordAll_concat before renamed) marked⟩

end Graph

/-! ## All names -/

/-- What is known of names, whatever is done to modules, graphs and arenas. -/
structure NamesExact (α : Type) [Scalar α] : Prop where
  vars : ∀ seed (calls : List (Module.Call α)),
    Module.catalog.Exact (Module.catalog.recordAll (.ofSeed seed, []) calls)
  /-- What a call leaves of a module is recorded, also where it fails. -/
  attempts : ∀ (m : Module α) index (c : Module.Call α),
    ((Build.attempt fun (m : Module α) => c.apply m).run.run m).2 =
      (Module.catalog.record (m, index) c).1
  /-- Layers, differentiation and all other changes of a module consist of calls. -/
  changes : ∀ {β : Type} {x : Build α β}, x.Edits → ∀ m index, ∃ calls,
    (Module.catalog.recordAll (m, index) calls).1 = (x.run.run m).2
  nodes : ∀ name (calls : List (Graph.Call α)),
    Graph.catalog.Exact (Graph.catalog.recordAll (.empty name, []) calls)
  /-- All graphs are made by calls, and those of a module remain so. -/
  made : ∀ g : Graph α, g.Made ↔
    ∃ name calls, (Graph.catalog.recordAll (.empty name, []) calls).1 = g
  graphs : ∀ {β : Type} {x : Build α β}, x.Edits → ∀ m : Module α, m.AllMade →
    (x.run.run m).2.AllMade
  /-- Where a module refuses a node, it is as it was. -/
  node : ∀ f name kind inputs type, Atomic (Build.node f name kind inputs type : Build α NodeId)
  locations : ∀ calls : List (Arena.Call α),
    Arena.catalog.Exact (Arena.catalog.recordAll (.empty, []) calls)
  /-- A node that is added takes its base name or the first numbered one that is free. -/
  chosen : ∀ {g g' : Graph α} {base : String} {kind : NodeKind α} {inputs : List Ref}
    {type : Option (TensorType α)} {id : NodeId}, g.push base kind inputs type = .ok (g', id) →
    ∃ n, g'.node? id = some n ∧ g.Chooses base n.name
  /-- Lowering can make every activation that it asks for. -/
  activations : ∀ {g : Graph α}, g.Made → ∀ {m store k n s}, g.node? ⟨k⟩ = some n →
    g.ArrivesAt m store k n s → ∀ type, ∃ p value, s.program.newActivation n.name type = .ok (p, value)
  /-- So the names that it refuses are those of variables, for which there is a weight already. -/
  refusals : ∀ {g : Graph α}, g.Made → ∀ {m store store' name scope},
    g.lower m store = (.error (.duplicateName name scope), store') →
    scope = .storage ∧ ∃ id v l, m.var? id = some v ∧ v.name = name ∧ store'.home? id = none ∧
      store'.arena.find? name = some l

theorem Build.attempt_record (m : Module α) (index : NameIndex) (c : Module.Call α) :
    ((attempt fun (m : Module α) => c.apply m).run.run m).2 =
      (Module.catalog.record (m, index) c).1 := by
  have called : Module.catalog.call m c = c.apply m := rfl
  simp only [attempt, ExceptT.run_mk, StateT.run, Catalog.record, called]
  cases c.apply m <;> rfl

/-- Tables of names stay exact, and no activation is ever made under a name that is taken. -/
theorem names_exact (α : Type) [Scalar α] : NamesExact α where
  vars _ calls := Module.catalog.exact_recordAll rfl calls
  attempts := Build.attempt_record
  changes edits m index := by
    obtain ⟨calls, lead⟩ := edits.byCalls m
    exact ⟨calls, lead index⟩
  nodes _ calls := Graph.catalog.exact_recordAll rfl calls
  made _ := ⟨Graph.Made.by_calls, fun ⟨name, calls, same⟩ =>
    same ▸ Graph.made_recordAll (.empty name) [] calls⟩
  graphs edits m := (edits.evolves m).made
  node _ _ _ _ _ := Build.atomic_attempt _
  locations calls := Arena.catalog.exact_recordAll rfl calls
  chosen pushed := ⟨_, Graph.push_node pushed, Graph.chooses_freshName _ _⟩
  activations made _ _ _ _ _ hn arrives type :=
    ⟨_, _, Program.newActivation_of_free type (arrives.free made.distinct hn)⟩
  refusals made _ _ _ _ _ refused := made.formed.lower_duplicate made.distinct refused

/-- Base names that look like numbered ones. -/
example : (Graph.catalog.recordAll (.empty "net", []) (["a1", "a", "a", "a11", "a1", "a"].map
    fun (name : String) => Graph.Call.push name (.splat (0 : Int)) [] none)).1.nodeNames =
      ["a1", "a", "a2", "a11", "a12", "a3"] := by decide +kernel

end NeuralGraph
