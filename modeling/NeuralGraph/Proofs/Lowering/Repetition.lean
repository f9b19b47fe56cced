import NeuralGraph.Proofs.Graph.Names
import NeuralGraph.Proofs.Lowering.Allocation
import NeuralGraph.Proofs.Lowering.Steps

/-!
# Lowering once more

Once a graph is lowered, its variables have homes.  If it is lowered again and its variables still live
there, then nothing is added to the weight store, and each step does what it did the first time,
whatever else has come into the store.
-/

namespace NeuralGraph
set_option autoImplicit false
variable {α : Type}

/-- The second program in the making is as far as the first one, over a store that is there already. -/
structure Lowering.Retraced (store : WeightStorage α) (s t : Lowering α) : Prop where
  store : t.store = store
  instructions : t.program.instructions = s.program.instructions
  activations : t.program.activations = s.program.activations
  values : t.values = s.values

namespace Lower
open Lowering
variable [Scalar α] {β γ : Type} {c d : LoweringContext α} {store : WeightStorage α}

/-- If both computations succeed from states that are equally far, they have one result and get equally
far, provided that the homes which the first one finds or gives are in the store. -/
structure Retraces (c : LoweringContext α) (store : WeightStorage α) (x y : Lower α β) : Prop where
  leads : Leads (Advances c) x
  again : ∀ s t b s' b' t', Retraced store s t → Yields x s b s' → Yields y t b' t' →
    (∀ v l, s'.store.home? v = some l → store.home? v = some l) → b' = b ∧ Retraced store s' t'

theorem retraces_pure (b : β) : Retraces c store (pure b : Lower α β) (pure b) where
  leads := leads_pure b
  again _ _ _ _ _ _ retraced first second _ := by
    obtain ⟨rfl, rfl⟩ := yields_pure.mp first
    obtain ⟨rfl, rfl⟩ := yields_pure.mp second
    exact ⟨rfl, retraced⟩

theorem retraces_throw (e e' : Error α) : Retraces c store (throw e : Lower α β) (throw e') where
  leads := leads_throw e
  again _ _ _ _ _ _ _ first := absurd first yields_throw

theorem retraces_bind {x y : Lower α β} {k k' : β → Lower α γ} (hx : Retraces c store x y)
    (hk : ∀ b, Retraces c store (k b) (k' b)) : Retraces c store (x >>= k) (y >>= k') where
  leads := leads_bind hx.leads fun b => (hk b).leads
  again s t r s' r' t' retraced first second homes := by
    obtain ⟨b, s₁, ran, rest⟩ := yields_bind.mp first
    obtain ⟨b', t₁, ran', rest'⟩ := yields_bind.mp second
    have later : s₁.store.Grows s'.store := by
      have advances := (hk b).leads s₁
      rw [Yields] at rest
      rw [rest] at advances
      exact advances.allocates.grows
    obtain ⟨rfl, retraced'⟩ := hx.again s t b s₁ b' t₁ retraced ran ran' fun v l home =>
      homes v l (later.homes v l home)
    exact (hk b').again s₁ t₁ r s' r' t' retraced' rest rest' homes

theorem retraces_mapM {f f' : β → Lower α γ} (h : ∀ b, Retraces c store (f b) (f' b)) (bs : List β) :
    Retraces c store (bs.mapM f) (bs.mapM f') := by
  induction bs with
  | nil => exact retraces_pure []
  | cons b bs ih =>
    rw [List.mapM_cons, List.mapM_cons]
    exact retraces_bind (h b) fun _ => retraces_bind ih fun _ => retraces_pure _

theorem retraces_forM {f f' : β → Lower α PUnit} (h : ∀ b, Retraces c store (f b) (f' b))
    (bs : List β) : Retraces c store (forM bs f) (forM bs f') := by
  induction bs with
  | nil => exact retraces_pure PUnit.unit
  | cons b bs ih =>
    rw [List.forM_cons, List.forM_cons]
    exact retraces_bind (h b) fun _ => ih

/-! ## Steps -/

theorem retraces_attempt {f f' : Lowering α → Except (Error α) (Lowering α × β)}
    (leads : Leads (Advances c) (attempt f))
    (h : ∀ s t b s' b' t', Retraced store s t → f s = .ok (s', b) → f' t = .ok (t', b') →
      (∀ v l, s'.store.home? v = some l → store.home? v = some l) →
      b' = b ∧ Retraced store s' t') : Retraces c store (attempt f) (attempt f') where
  leads := leads
  again s t b s' b' t' retraced first second :=
    h s t b s' b' t' retraced (yields_attempt.mp first) (yields_attempt.mp second)

theorem retraces_operand (r : Ref) : Retraces c store (operand c r) (operand d r) := by
  refine retraces_attempt (leads_operand r) fun s t value s' value' t' retraced first second homes => ?_
  have places : t.place r = s.place r := congrArg (List.lookup r) retraced.values
  rcases operand_cases (yields_attempt.mpr first) with ⟨placed, rfl⟩ |
      ⟨id, v, _, l, rfl, free, -, given, rfl, rfl⟩
  · rcases operand_cases (yields_attempt.mpr second) with ⟨placed', rfl⟩ | ⟨_, _, _, _, -, free, -⟩
    · exact ⟨Option.some.inj (placed'.symm.trans (places.trans placed)), retraced⟩
    · cases free.symm.trans (places.trans placed)
  · rcases operand_cases (yields_attempt.mpr second) with ⟨placed', -⟩ |
        ⟨_, _, _, _, same, -, -, given', rfl, rfl⟩
    · cases free.symm.trans (places.symm.trans placed')
    · cases same
      have home := homes id _ (WeightStorage.allocate_home given)
      rw [retraced.store] at given'
      simp only [WeightStorage.allocate, home] at given'
      cases given'
      refine ⟨rfl, rfl, retraced.instructions, retraced.activations, ?_⟩
      exact congrArg (· ++ [(Ref.var id, Value.weight l)]) retraced.values

theorem retraces_operands (n : Node α) : Retraces c store (operands c n) (operands d n) :=
  retraces_mapM retraces_operand n.inputs

theorem retraces_define (id : NodeId) (value : Value) :
    Retraces c store (define id value) (define id value) := by
  refine retraces_attempt (leads_define id value) fun s t b s' b' t' retraced first second _ => ?_
  cases first
  cases second
  exact ⟨rfl, retraced.store, retraced.instructions, retraced.activations, by rw [retraced.values]⟩

theorem retraces_emit (n : Node α) (kind : Opcode α) (values : List Value) :
    Retraces c store (emit n kind values) (emit n kind values) := by
  refine retraces_attempt (leads_emit n kind values) fun s t b s' b' t' retraced first second _ => ?_
  simp only [bind, Except.bind] at first second
  split at first
  · cases first
  · next p pushed =>
    split at second
    · cases second
    · next p' pushed' =>
      cases first
      cases second
      obtain ⟨-, rfl⟩ := Program.push_eq_ok_iff.mp pushed
      obtain ⟨-, rfl⟩ := Program.push_eq_ok_iff.mp pushed'
      exact ⟨rfl, retraced.store, by rw [retraced.instructions], retraced.activations,
        retraced.values⟩

theorem retraces_newActivation (name : String) (type : TensorType α) :
    let made : Lower α Value := attempt fun (s : Lowering α) => do
      let (program, value) ← s.program.newActivation name type
      .ok ({ s with program := program }, value)
    Retraces c store made made := by
  refine retraces_attempt (leads_newActivation name type)
    fun s t b s' b' t' retraced first second _ => ?_
  simp only [bind, Except.bind] at first second
  split at first
  · cases first
  · next r made =>
    split at second
    · cases second
    · next r' made' =>
      cases first
      cases second
      obtain ⟨a, id, inserted, same, value⟩ := Program.newActivation_eq_ok_iff.mp made
      obtain ⟨a', id', inserted', same', value'⟩ := Program.newActivation_eq_ok_iff.mp made'
      rw [retraced.activations] at inserted'
      obtain ⟨⟩ := inserted.symm.trans inserted'
      refine ⟨value'.trans value.symm, retraced.store, ?_, ?_, retraced.values⟩
      · rw [same, same']
        exact retraced.instructions
      · rw [same, same']

theorem retraces_result (id : NodeId) (n : Node α) : Retraces c store (result id n) (result id n) := by
  rw [result]
  split
  · exact retraces_throw _ _
  · exact retraces_bind (retraces_newActivation _ _) fun value =>
      retraces_bind (retraces_define id value) fun _ => retraces_pure _

theorem retraces_compute (id : NodeId) (n : Node α) (kind : Opcode α) :
    Retraces c store (compute c id n kind) (compute d id n kind) :=
  retraces_bind (retraces_operands n) fun values => retraces_bind (retraces_result id n)
    fun target => retraces_emit n kind (target :: values)

/-! ## Nodes -/

section
variable {m m' : Module α} {g : Graph α} {stored stored' : List VarId} {name : String}

theorem retraces_activationTarget (id : NodeId) (n : Node α) (input : Value) :
    Retraces ⟨m, g, stored⟩ store (activationTarget ⟨m, g, stored⟩ id n input)
      (activationTarget ⟨m', g.withName name, stored'⟩ id n input) := by
  have same : mayReuse ⟨m', g.withName name, stored'⟩ n input = mayReuse ⟨m, g, stored⟩ n input := rfl
  rw [activationTarget, activationTarget, same]
  split
  · split
    · exact retraces_throw _ _
    · exact retraces_bind (retraces_define id input) fun _ => retraces_pure _
  · exact retraces_result id n

/-- One case for each kind of node. -/
theorem retraces_node (id : NodeId) (n : Node α) : Retraces ⟨m, g, stored⟩ store
    (node ⟨m, g, stored⟩ id n) (node ⟨m', g.withName name, stored'⟩ id n) := by
  unfold node
  split
  · split
    · exact retraces_bind (retraces_operand _) fun source =>
        retraces_bind (retraces_activationTarget id n source) fun target => retraces_emit n _ _
    · exact retraces_throw _ _
  · exact retraces_compute id n _
  · exact retraces_compute id n _
  · refine retraces_bind (retraces_operands n) fun values => ?_
    split
    · exact retraces_bind (retraces_result id n) fun target => retraces_emit n _ _
    · exact retraces_throw _ _
  · exact retraces_bind (retraces_result id n) fun target => retraces_emit n _ _
  · refine retraces_bind (retraces_operands n) fun values => ?_
    split
    · exact retraces_emit n _ _
    · exact retraces_throw _ _
  · exact retraces_bind (retraces_operands n) fun contributions =>
      retraces_bind (retraces_result id n) fun total => retraces_bind (retraces_emit n _ _)
        fun _ => retraces_forM (fun x => retraces_emit n _ _) contributions
  · exact retraces_bind (retraces_operands n) fun values => retraces_emit n _ values
  · exact retraces_throw _ _

theorem retraces_nodes (ids : List NodeId) : Retraces ⟨m, g, stored⟩ store
    (nodes ⟨m, g, stored⟩ ids) (nodes ⟨m', g.withName name, stored'⟩ ids) := by
  refine retraces_forM (fun id => retraces_bind (retraces_attempt (leads_fetch id) ?_)
    fun n => retraces_node id n) ids
  intro s t n s' n' t' retraced first second _
  cases hn : g.node id with
  | error e => simp [hn, Except.map] at first
  | ok k =>
    have found : g.node? id = some k := Graph.node_eq_ok_iff.mp hn
    have hn' : (g.withName name).node id = .ok k := Graph.node_eq_ok_iff.mpr found
    simp only [hn, hn', Except.map] at first second
    cases first
    cases second
    exact ⟨rfl, retraced⟩

end

end Lower

/-- A graph whose variables are at home is lowered to the same code once more, under any name, and nothing
is added to the weight store. -/
theorem Graph.lower_again [Scalar α] {g : Graph α} {m m' : Module α} {s s' t t' : WeightStorage α}
    {p p' : Program α} {name : String} (ordered : g.Ordered) (h : g.lower m s = (.ok p, s'))
    (h' : (g.withName name).lower m' t = (.ok p', t'))
    (homes : ∀ v l, s'.home? v = some l → t.home? v = some l) :
    t' = t ∧ p'.instructions = p.instructions ∧ p'.activations = p.activations := by
  have ordered' : (g.withName name).Ordered := ordered
  have order : (g.withName name).evaluationOrder = g.evaluationOrder :=
    ordered'.evaluationOrder_eq.trans ordered.evaluationOrder_eq.symm
  rw [lower] at h h'
  rw [order, ordered.evaluationOrder_eq] at h'
  rw [ordered.evaluationOrder_eq] at h
  dsimp only at h h'
  split at h
  · next u ran =>
    split at h'
    · next u' ran' =>
      cases h
      cases h'
      have started : Lowering.Retraced t ⟨.empty g.name, s, []⟩ ⟨.empty name, t, []⟩ :=
        ⟨rfl, rfl, rfl, rfl⟩
      obtain ⟨-, retraced⟩ := (Lower.retraces_nodes _).again _ _ _ _ _ _ started ran ran' homes
      exact ⟨retraced.store, retraced.instructions, retraced.activations⟩
    · cases h'
  · cases h

end NeuralGraph
