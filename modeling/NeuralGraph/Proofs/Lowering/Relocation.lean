import NeuralGraph.Proofs.Lowering.Realization
import NeuralGraph.Proofs.Lowering.Success

/-!
# Lowering into two stores

One graph is lowered into two weight stores, in which the same variables may have other homes, or none
yet.  `Lowering.Relocated` is what both lowerings have in common after each step.  If both stores serve
what the graph stores into, the graph is lowered into both or into neither: `Graph.lower_isOk_eq`.
-/

namespace NeuralGraph
set_option autoImplicit false
variable {α : Type}

/-! ## Types of two homes of one variable -/

section
variable [Scalar α]

/-- Types that no instruction tells apart. -/
def TensorType.Interchangeable (t u : TensorType α) : Prop := t = u ∨ (t == u) = true

namespace TensorType.Interchangeable
variable {t u t' u' : TensorType α}

theorem sameShape (h : t.Interchangeable u) : t.SameShape u := by
  rcases h with rfl | h
  · exact ⟨rfl, rfl⟩
  · obtain ⟨dims, element, -⟩ := TensorType.beq_iff.mp h
    exact ⟨dims, element⟩

theorem beq [PartialEquivBEq α] (h : t.Interchangeable u) (h' : t'.Interchangeable u')
    (same : (t == t') = true) : (u == u') = true := by
  have left : (u == t') = true := by
    rcases h with rfl | h
    · exact same
    · exact PartialEquivBEq.trans (PartialEquivBEq.symm h) same
  rcases h' with rfl | h'
  · exact left
  · exact PartialEquivBEq.trans left h'

end TensorType.Interchangeable

theorem Signature.instruction_congr [PartialEquivBEq α] {kind : Opcode α}
    {ts us : List (TensorType α)} (h : List.Forall₂ TensorType.Interchangeable ts us)
    (suits : instruction kind ts = .ok ()) : instruction kind us = .ok () := by
  cases kind with
  | copy =>
    obtain ⟨d, s, rfl, same⟩ := copy_eq_ok_iff.mp suits
    rcases h with _ | ⟨first, _ | ⟨second, _ | _⟩⟩
    exact copy_eq_ok_iff.mpr ⟨_, _, rfl, first.beq second same⟩
  | splat value =>
    rcases h with _ | ⟨-, _ | ⟨-, -⟩⟩
    · cases suits
    · rfl
    · cases suits
  | compute op => exact operator_congr op (h.imp fun _ _ same => same.sameShape) suits
  | reshape =>
    obtain ⟨d, s, rfl, volumes⟩ := reshape_eq_ok_iff.mp suits
    rcases h with _ | ⟨first, _ | ⟨second, _ | _⟩⟩
    exact reshape_eq_ok_iff.mpr ⟨_, _, rfl, by rw [← first.sameShape.1, ← second.sameShape.1, volumes]⟩
  | update rule =>
    obtain ⟨w, g, v, rfl, gdims, vdims, we, ge, ve⟩ := update_eq_ok_iff.mp suits
    rcases h with _ | ⟨first, _ | ⟨second, _ | ⟨third, _ | _⟩⟩⟩
    obtain ⟨wdims', we'⟩ := first.sameShape
    obtain ⟨gdims', ge'⟩ := second.sameShape
    obtain ⟨vdims', ve'⟩ := third.sameShape
    exact update_eq_ok_iff.mpr ⟨_, _, _, rfl, by rw [← gdims', ← wdims', gdims],
      by rw [← vdims', ← wdims', vdims], we' ▸ we, ge' ▸ ge, ve' ▸ ve⟩

end

namespace WeightStorage
variable [Scalar α] {s s' : WeightStorage α} {m : Module α} {stored : List VarId}

/-- Only a type that equals itself can be given a home. -/
theorem Serves.comparable [PartialEquivBEq α] (serves : s.Serves m stored) {id : VarId}
    {v : Variable α} (hv : m.var? id = some v) {mutability : Mutability} {l : LocationId}
    (h : s.allocate id v mutability = .ok (s', l)) : v.type.Comparable := by
  have own : ∀ t : TensorType α, (t == v.type) = true → v.type.Comparable := fun t same =>
    PartialEquivBEq.trans (PartialEquivBEq.symm same) same
  rcases allocate_eq_ok_iff.mp h with ⟨home, -⟩ | ⟨-, same, -⟩
  · obtain ⟨u, p, hu, -, -, same, -⟩ := serves.homes id l home
    obtain rfl := Option.some.inj (hv.symm.trans hu)
    exact own p.type same
  · exact own v.initial.type same

end WeightStorage

/-! ## Operands -/

namespace Lowering

/-- Where lowerings into the stores `a` and `b` find a reference: a node in the same activation, a
variable at its two homes. -/
inductive Lies (a b : WeightStorage α) : Ref → Value → Value → Prop
  | node (i : NodeId) (id : LocationId) : Lies a b (.node i) (.activation id) (.activation id)
  | var {v : VarId} {l k : LocationId} : a.home? v = some l → b.home? v = some k →
    Lies a b (.var v) (.weight l) (.weight k)

/-- Where they find several references. -/
inductive LieAll (a b : WeightStorage α) : List Ref → List Value → List Value → Prop
  | nil : LieAll a b [] [] []
  | cons {r : Ref} {x y : Value} {rs : List Ref} {xs ys : List Value} : Lies a b r x y →
    LieAll a b rs xs ys → LieAll a b (r :: rs) (x :: xs) (y :: ys)

/-- Operands that differ in the home of a variable, one of `written` if the home is written. -/
inductive Aliases (a b : WeightStorage α) (written : List VarId) : Operand → Operand → Prop
  | activation (id : LocationId) (d : Direction) :
    Aliases a b written ⟨.activation id, d⟩ ⟨.activation id, d⟩
  | weight {v : VarId} {l k : LocationId} {d : Direction} : a.home? v = some l →
    b.home? v = some k → (d.writes = true → v ∈ written) →
    Aliases a b written ⟨.weight l, d⟩ ⟨.weight k, d⟩

/-- Two lowerings of one graph into stores that both serve it: the same activations, of which the same
have been computed, and every reference in both or in neither. -/
structure Relocated [Scalar α] (m : Module α) (written : List VarId) (s t : Lowering α) : Prop where
  activations : s.program.activations = t.program.activations
  defined : s.program.defined = t.program.defined
  left : s.store.Serves m written
  right : t.store.Serves m written
  places : ∀ r, Option.Rel (Lies s.store t.store r) (s.place r) (t.place r)

section
variable {a b a' b' : WeightStorage α} {written : List VarId} {r : Ref} {rs : List Ref}
  {x y : Value} {xs ys : List Value}

theorem Lies.flip (h : Lies a b r x y) : Lies b a r y x := by
  cases h with
  | node i id => exact .node i id
  | var hl hk => exact .var hk hl

theorem Lies.mono (h : Lies a b r x y) (left : a.Grows a') (right : b.Grows b') :
    Lies a' b' r x y := by
  cases h with
  | node i id => exact .node i id
  | var hl hk => exact .var (left.homes _ _ hl) (right.homes _ _ hk)

theorem Lies.isActivation_eq (h : Lies a b r x y) : x.isActivation = y.isActivation := by
  cases h with
  | node i id => rfl
  | var _ _ => rfl

theorem Lies.aliases (h : Lies a b r x y) {d : Direction}
    (free : d.writes = true → ∀ v, r = .var v → v ∈ written) :
    Aliases a b written ⟨x, d⟩ ⟨y, d⟩ := by
  cases h with
  | node i id => exact .activation id d
  | var hl hk => exact .weight hl hk fun writes => free writes _ rfl

theorem LieAll.inputs (h : LieAll a b rs xs ys) :
    List.Forall₂ (Aliases a b written) (xs.map fun (x : Value) => ⟨x, .input⟩)
      (ys.map fun (y : Value) => ⟨y, .input⟩) := by
  induction h with
  | nil => exact .nil
  | cons first _ ih => exact .cons (first.aliases nofun) ih

theorem Aliases.flip {o o' : Operand} (h : Aliases a b written o o') : Aliases b a written o' o := by
  cases h with
  | activation id d => exact .activation id d
  | weight hl hk free => exact .weight hk hl free

theorem Aliases.direction {o o' : Operand} (h : Aliases a b written o o') :
    o.direction = o'.direction := by
  cases h with
  | activation id d => rfl
  | weight _ _ _ => rfl

/-- They write the same activations. -/
theorem activationsWritten_eq_of_aliases {i j : Instruction α}
    (h : List.Forall₂ (Aliases a b written) i.operands j.operands) :
    activationsWritten [i] = activationsWritten [j] := by
  simp only [activationsWritten, List.flatMap_singleton, Instruction.written]
  generalize i.operands = os, j.operands = os' at h
  induction h with
  | nil => rfl
  | @cons o o' os os' first _ ih =>
    cases first with
    | activation id d =>
      cases writes : d.writes
      all_goals simp only [List.filter_cons, writes, if_true, Bool.false_eq_true, if_false,
        List.map_cons, List.filterMap_cons, ih]
    | @weight v l k d _ _ _ =>
      cases writes : d.writes
      all_goals simp only [List.filter_cons, writes, if_true, Bool.false_eq_true, if_false,
        List.map_cons, List.filterMap_cons, ih]

/-- Operands of instructions whose first operand is an activation that they write. -/
theorem LieAll.writing (h : LieAll a b rs xs ys) {name : String} {kind : Opcode α} {id : LocationId}
    {k : Nat} (layout : kind.layout = .output :: List.replicate k .input) :
    List.Forall₂ (Aliases a b written)
      (Instruction.ofValues name kind (.activation id :: xs)).operands
      (Instruction.ofValues name kind (.activation id :: ys)).operands := by
  rw [Instruction.operands_writing layout, Instruction.operands_writing layout]
  exact .cons (.activation id .output) h.inputs

end

namespace Relocated
variable [Scalar α] {c : LoweringContext α} {m : Module α} {written : List VarId}
  {s t : Lowering α}

theorem flip (relocated : Relocated m written s t) : Relocated m written t s where
  activations := relocated.activations.symm
  defined := relocated.defined.symm
  left := relocated.right
  right := relocated.left
  places r := by
    have placed := relocated.places r
    generalize s.place r = x, t.place r = y at placed ⊢
    cases placed with
    | none => exact .none
    | some lies => exact .some lies.flip

/-- A variable is placed at its home in each store. -/
theorem homed (relocated : Relocated m written s t) {id : VarId} {a b : WeightStorage α}
    {l k : LocationId} (left : a.Serves m written) (right : b.Serves m written)
    (grows : s.store.Grows a) (grows' : t.store.Grows b) (hl : a.home? id = some l)
    (hk : b.home? id = some k) :
    Relocated m written (s.homed a id l) (t.homed b id k) where
  activations := relocated.activations
  defined := relocated.defined
  left := left
  right := right
  places r := by
    have placed := relocated.places r
    simp only [Lowering.homed, place, lookup_snoc] at placed ⊢
    generalize s.values.lookup r = x, t.values.lookup r = y at placed ⊢
    cases placed with
    | some lies => exact .some (lies.mono grows grows')
    | none =>
      split
      · next own =>
        subst own
        exact .some (.var hl hk)
      · exact .none

/-- Both lowerings find the value of a reference, or neither does. -/
theorem operand [PartialEquivBEq α] (relocated : Relocated c.module written s t)
    (sound : c.module.Sound) (fewer : ∀ v ∈ written, v ∈ c.stored) (r : Ref) :
    Coupled (fun x s' y t' => Relocated c.module written s' t' ∧ Lies s'.store t'.store r x y ∧
        s.store.Grows s'.store ∧ t.store.Grows t'.store)
      (Lower.operand c r) s (Lower.operand c r) t := by
  refine coupled_attempt ?_
  have placed := relocated.places r
  simp only [place] at placed
  generalize hs : s.values.lookup r = x, ht : t.values.lookup r = y at placed
  cases placed with
  | some lies => exact .ok ⟨relocated, lies, .refl _, .refl _⟩
  | none =>
    cases r with
    | node i => exact .error
    | var id =>
      simp only [bind, Except.bind]
      cases hv : c.module.var id with
      | error e => exact .error
      | ok v =>
        have known := Module.var_eq_ok_iff.mp hv
        dsimp only
        generalize made : (if v.isTrained || c.stored.contains id then Mutability.mutable
          else .constant) = mutability
        by_cases comparable : v.type.Comparable
        · obtain ⟨a, l, ha⟩ := relocated.left.allocate sound known comparable mutability
          obtain ⟨b, k, hb⟩ := relocated.right.allocate sound known comparable mutability
          rw [ha, hb]
          have grows := WeightStorage.allocate_grows ha
          have grows' := WeightStorage.allocate_grows hb
          have hl := WeightStorage.allocate_home ha
          have hk := WeightStorage.allocate_home hb
          subst made
          exact .ok ⟨relocated.homed (relocated.left.keep fewer known ha)
            (relocated.right.keep fewer known hb) grows grows' hl hk, .var hl hk, grows, grows'⟩
        · cases ha : s.store.allocate id v mutability with
          | ok r => exact absurd (relocated.left.comparable known ha) comparable
          | error e =>
            cases hb : t.store.allocate id v mutability with
            | ok r => exact absurd (relocated.right.comparable known hb) comparable
            | error e' => exact .error

theorem mapM_operand [PartialEquivBEq α] (relocated : Relocated c.module written s t)
    (sound : c.module.Sound) (fewer : ∀ v ∈ written, v ∈ c.stored) (rs : List Ref) :
    Coupled (fun xs s' ys t' => Relocated c.module written s' t' ∧
        LieAll s'.store t'.store rs xs ys ∧ s.store.Grows s'.store ∧ t.store.Grows t'.store)
      (rs.mapM (Lower.operand c)) s (rs.mapM (Lower.operand c)) t := by
  induction rs generalizing s t with
  | nil => exact coupled_pure ⟨relocated, .nil, .refl _, .refl _⟩
  | cons r rs ih =>
    rw [List.mapM_cons]
    refine coupled_bind (relocated.operand sound fewer r) ?_
    rintro x s₁ y t₁ ⟨relocated₁, lies, grows, grows'⟩
    refine coupled_bind (ih relocated₁) ?_
    rintro xs s₂ ys t₂ ⟨relocated₂, all, grows₁, grows₁'⟩
    exact coupled_pure ⟨relocated₂, .cons (lies.mono grows₁ grows₁') all, grows.trans grows₁,
      grows'.trans grows₁'⟩

/-! ## Results -/

theorem define (relocated : Relocated m written s t) (id : NodeId) (a : LocationId) :
    Coupled (fun _ s' _ t' => Relocated m written s' t' ∧ s'.store = s.store ∧ t'.store = t.store)
      (Lower.define id (.activation a)) s (Lower.define id (.activation a)) t := by
  refine coupled_attempt (.ok ⟨⟨relocated.activations, relocated.defined, relocated.left,
    relocated.right, fun r => ?_⟩, rfl, rfl⟩)
  simp only [place, lookup_cons_if]
  split
  · next own =>
    subst own
    exact .some (.node id a)
  · exact relocated.places r

theorem result (relocated : Relocated m written s t) (id : NodeId) (n : Node α) :
    Coupled (fun x s' y t' => Relocated m written s' t' ∧ s'.store = s.store ∧ t'.store = t.store ∧
        ∃ a, x = .activation a ∧ y = .activation a)
      (Lower.result id n) s (Lower.result id n) t := by
  rw [Lower.result]
  cases n.type with
  | none => exact coupled_throw
  | some type =>
    refine coupled_bind (Q := fun x s' y t' => Relocated m written s' t' ∧ s'.store = s.store ∧
      t'.store = t.store ∧ ∃ a, x = .activation a ∧ y = .activation a) (coupled_attempt ?_) ?_
    · simp only [Program.newActivation, relocated.activations, bind, Except.bind]
      cases t.program.activations.create n.name type .mutable .hidden with
      | error e => exact .error
      | ok r =>
        exact .ok ⟨⟨rfl, relocated.defined, relocated.left, relocated.right, relocated.places⟩,
          rfl, rfl, r.2, rfl, rfl⟩
    · rintro _ s₁ _ t₁ ⟨relocated₁, same, same', a, rfl, rfl⟩
      refine coupled_bind (relocated₁.define id a) ?_
      rintro _ s₂ _ t₂ ⟨relocated₂, same₂, same₂'⟩
      exact coupled_pure ⟨relocated₂, same₂.trans same, same₂'.trans same', a, rfl, rfl⟩

theorem activationTarget (relocated : Relocated m written s t) (id : NodeId) (n : Node α) {r : Ref}
    {x y : Value} (lies : Lies s.store t.store r x y) :
    Coupled (fun x s' y t' => Relocated m written s' t' ∧ s'.store = s.store ∧ t'.store = t.store ∧
        ∃ a, x = .activation a ∧ y = .activation a)
      (Lower.activationTarget c id n x) s (Lower.activationTarget c id n y) t := by
  have same : Lower.mayReuse c n x = Lower.mayReuse c n y := by
    rw [Lower.mayReuse, Lower.mayReuse, lies.isActivation_eq]
  rw [Lower.activationTarget, Lower.activationTarget, same]
  split
  · next reused =>
    cases lies with
    | var _ _ => simp [Lower.mayReuse, Value.isActivation] at reused
    | node i a =>
      cases n.type with
      | none => exact coupled_throw
      | some type =>
        refine coupled_bind (relocated.define id a) ?_
        rintro _ s₁ _ t₁ ⟨relocated₁, same₁, same₁'⟩
        exact coupled_pure ⟨relocated₁, same₁, same₁', a, rfl, rfl⟩
  · exact relocated.result id n

/-! ## Instructions -/

/-- What suits an operand in one lowering suits its alias in the other. -/
theorem fits [PartialEquivBEq α] (relocated : Relocated m written s t) {kind : Opcode α}
    {o o' : Operand} {l : Location α} (aliases : Aliases s.store t.store written o o')
    (suits : Instruction.OperandFits kind s.memory s.program.defined o l) : ∃ k,
      Instruction.OperandFits kind t.memory t.program.defined o' k ∧
        l.type.Interchangeable k.type := by
  obtain ⟨located, readable, writable⟩ := suits
  cases aliases with
  | activation id d =>
    refine ⟨l, ⟨?_, ?_, ?_⟩, .inl rfl⟩
    · rw [← located]
      exact congrArg (fun (a : Arena α) => a.get? id) relocated.activations.symm
    · rw [← relocated.defined]
      exact readable
    · rw [← relocated.defined]
      exact writable
  | @weight v i j d hi hj free =>
    obtain ⟨u, p, hu, hp, -, type, -⟩ := relocated.left.homes v i hi
    obtain ⟨u', q, hu', hq, -, type', mutable⟩ := relocated.right.homes v j hj
    obtain rfl := Option.some.inj (hu.symm.trans hu')
    obtain rfl := Option.some.inj (hp.symm.trans located)
    refine ⟨q, ⟨hq, fun _ => rfl, fun writes constant => ?_⟩,
      .inr (PartialEquivBEq.trans type (PartialEquivBEq.symm type'))⟩
    rw [mutable (.inr (free writes))] at constant
    cases constant

theorem accepted [PartialEquivBEq α] (relocated : Relocated m written s t) {i j : Instruction α}
    (aliases : List.Forall₂ (Aliases s.store t.store written) i.operands j.operands)
    (kind : i.kind = j.kind) {ls : List (Location α)}
    (h : i.Accepted s.memory s.program.defined ls) :
    ∃ ks, j.Accepted t.memory t.program.defined ks := by
  obtain ⟨directions, operands, signature⟩ := h
  have transferred : ∃ ks, List.Forall₂ (Instruction.OperandFits i.kind t.memory t.program.defined)
        j.operands ks ∧
      List.Forall₂ TensorType.Interchangeable (ls.map Location.type) (ks.map Location.type) ∧
      j.operands.map Operand.direction = i.operands.map Operand.direction := by
    clear directions signature
    generalize i.operands = os, j.operands = os' at aliases operands
    induction aliases generalizing ls with
    | nil =>
      cases operands
      exact ⟨[], .nil, .nil, rfl⟩
    | cons first _ ih =>
      cases operands with
      | cons suits rest =>
        obtain ⟨k, fits, type⟩ := relocated.fits first suits
        obtain ⟨ks, all, types, directions⟩ := ih rest
        exact ⟨k :: ks, .cons fits all, .cons type types, by
          rw [List.map_cons, List.map_cons, directions, first.direction]⟩
  obtain ⟨ks, all, types, same⟩ := transferred
  exact ⟨ks, by rw [same, directions, kind], kind ▸ all,
    kind ▸ Signature.instruction_congr types signature⟩

/-- An instruction is added to both programs, or to neither. -/
theorem emit [PartialEquivBEq α] (relocated : Relocated m written s t) {n : Node α}
    {kind : Opcode α} {xs ys : List Value}
    (aliases : List.Forall₂ (Aliases s.store t.store written)
      (Instruction.ofValues n.name kind xs).operands (Instruction.ofValues n.name kind ys).operands) :
    Coupled (fun _ s' _ t' => Relocated m written s' t' ∧ s'.store = s.store ∧ t'.store = t.store)
      (Lower.emit n kind xs) s (Lower.emit n kind ys) t := by
  refine coupled_attempt ?_
  cases hs : s.program.push s.store.arena (.ofValues n.name kind xs) with
  | ok p =>
    obtain ⟨⟨ls, accepted⟩, rfl⟩ := Program.push_eq_ok_iff.mp hs
    obtain ⟨ks, accepted'⟩ := relocated.accepted aliases rfl accepted
    rw [Program.push_eq_ok_iff.mpr ⟨⟨ks, accepted'⟩, rfl⟩]
    refine .ok ⟨⟨relocated.activations, ?_, relocated.left, relocated.right, relocated.places⟩,
      rfl, rfl⟩
    have both := Program.defined_snoc s.program (.ofValues n.name kind xs)
    have both' := Program.defined_snoc t.program (.ofValues n.name kind ys)
    exact both.trans
      (by rw [relocated.defined, activationsWritten_eq_of_aliases aliases]; exact both'.symm)
  | error e =>
    cases ht : t.program.push t.store.arena (.ofValues n.name kind ys) with
    | error e' => exact .error
    | ok q =>
      obtain ⟨⟨ks, accepted'⟩, -⟩ := Program.push_eq_ok_iff.mp ht
      obtain ⟨ls, accepted⟩ := relocated.flip.accepted
        (aliases.flip.imp fun _ _ h => h.flip) rfl accepted'
      rw [Program.push_eq_ok_iff.mpr ⟨⟨ls, accepted⟩, rfl⟩] at hs
      cases hs

/-! ## Nodes -/

variable [PartialEquivBEq α]

theorem compute (relocated : Relocated c.module written s t) (sound : c.module.Sound)
    (fewer : ∀ v ∈ written, v ∈ c.stored) (id : NodeId) (n : Node α) {kind : Opcode α} {k : Nat}
    (layout : kind.layout = .output :: List.replicate k .input) :
    Coupled (fun _ s' _ t' => Relocated c.module written s' t')
      (Lower.compute c id n kind) s (Lower.compute c id n kind) t := by
  refine coupled_bind (relocated.mapM_operand sound fewer n.inputs) ?_
  rintro xs s₁ ys t₁ ⟨relocated₁, lie, -, -⟩
  refine coupled_bind (relocated₁.result id n) ?_
  rintro _ s₂ _ t₂ ⟨relocated₂, same, same', a, rfl, rfl⟩
  rw [← same, ← same'] at lie
  exact (relocated₂.emit (lie.writing layout)).imp fun _ _ _ _ h => h.1

theorem sum (relocated : Relocated m written s t) (n : Node α) (a : LocationId) {rs : List Ref}
    {xs ys : List Value} (lie : LieAll s.store t.store rs xs ys) :
    Coupled (fun _ s' _ t' => Relocated m written s' t')
      (forM xs fun (x : Value) =>
        Lower.emit n (.compute (.binary .add)) [.activation a, .activation a, x]) s
      (forM ys fun (y : Value) =>
        Lower.emit n (.compute (.binary .add)) [.activation a, .activation a, y]) t := by
  induction xs generalizing rs ys s t with
  | nil =>
    cases lie
    exact coupled_pure relocated
  | cons x xs ih =>
    cases lie with
    | cons first rest =>
      rw [List.forM_cons, List.forM_cons]
      refine coupled_bind (relocated.emit (LieAll.writing (.cons (.node ⟨0⟩ a) (.cons first .nil))
        (k := 2) (rfl : (Opcode.compute (.binary .add)).layout = _))) ?_
      rintro _ s₁ _ t₁ ⟨relocated₁, same, same'⟩
      rw [← same, ← same'] at rest
      exact ih relocated₁ rest

theorem save (relocated : Relocated m written s t) (n : Node α) {r r' : Ref} {x y x' y' : Value}
    (source : Lies s.store t.store r x y) (destination : Lies s.store t.store r' x' y')
    (free : ∀ v, r' = .var v → v ∈ written) :
    Coupled (fun _ s' _ t' => Relocated m written s' t')
      (Lower.emit n .copy [x', x]) s (Lower.emit n .copy [y', y]) t := by
  refine (relocated.emit ?_).imp fun _ _ _ _ h => h.1
  rw [Instruction.operands_writing (k := 1) rfl, Instruction.operands_writing (k := 1) rfl]
  exact .cons (destination.aliases fun _ => free) (.cons (source.aliases nofun) .nil)

theorem update (relocated : Relocated m written s t) (n : Node α) (rule : UpdateRule α)
    {r₁ r₂ r₃ : Ref} {xs ys : List Value} (lie : LieAll s.store t.store [r₁, r₂, r₃] xs ys)
    (weight : ∀ v, r₁ = .var v → v ∈ written) (velocity : ∀ v, r₃ = .var v → v ∈ written) :
    Coupled (fun _ s' _ t' => Relocated m written s' t')
      (Lower.emit n (.update rule) xs) s (Lower.emit n (.update rule) ys) t := by
  rcases lie with _ | ⟨first, _ | ⟨second, _ | ⟨third, _ | _⟩⟩⟩
  refine (relocated.emit ?_).imp fun _ _ _ _ h => h.1
  rw [Instruction.ofValues_operands rfl, Instruction.ofValues_operands rfl]
  exact .cons (first.aliases fun _ => weight) (.cons (second.aliases nofun)
    (.cons (third.aliases fun _ => velocity) .nil))

/-- One node: both lowerings add its instructions, or both fail. -/
theorem node (relocated : Relocated c.module written s t) (sound : c.module.Sound)
    (fewer : ∀ v ∈ written, v ∈ c.stored) (id : NodeId) {n : Node α}
    (arity : ∀ count, n.kind.arity = some count → n.inputs.length = count)
    (own : ∀ v ∈ n.storesInto, v ∈ written) :
    Coupled (fun _ s' _ t' => Relocated c.module written s' t')
      (Lower.node c id n) s (Lower.node c id n) t := by
  have operands := relocated.mapM_operand sound fewer n.inputs
  unfold Lower.node
  split
  · next op kind =>
    split
    · next r inputs =>
      refine coupled_bind (relocated.operand sound fewer r) ?_
      rintro x s₁ y t₁ ⟨relocated₁, lies, -, -⟩
      refine coupled_bind (relocated₁.activationTarget id n lies) ?_
      rintro _ s₂ _ t₂ ⟨relocated₂, same, same', a, rfl, rfl⟩
      rw [← same, ← same'] at lies
      exact (relocated₂.emit (LieAll.writing (.cons lies .nil) (k := 1) rfl)).imp
        fun _ _ _ _ h => h.1
    · exact coupled_throw
  · next op _ _ => exact relocated.compute sound fewer id n (k := op.arity) rfl
  · exact relocated.compute sound fewer id n (k := 1) rfl
  · refine coupled_bind operands ?_
    rintro xs s₁ ys t₁ ⟨relocated₁, lie, -, -⟩
    generalize n.inputs = rs at lie
    rcases lie with _ | ⟨first, _ | ⟨-, _ | -⟩⟩
    · exact coupled_throw
    · exact coupled_throw
    · refine coupled_bind (relocated₁.result id n) ?_
      rintro _ s₂ _ t₂ ⟨relocated₂, same, same', a, rfl, rfl⟩
      rw [← same, ← same'] at first
      exact (relocated₂.emit (LieAll.writing (.cons first .nil) (k := 1) rfl)).imp
        fun _ _ _ _ h => h.1
    · exact coupled_throw
  · refine coupled_bind (relocated.result id n) ?_
    rintro _ s₁ _ t₁ ⟨relocated₁, -, -, a, rfl, rfl⟩
    exact (relocated₁.emit (LieAll.writing .nil (k := 0) rfl)).imp fun _ _ _ _ h => h.1
  · next kind =>
    refine coupled_bind operands ?_
    rintro xs s₁ ys t₁ ⟨relocated₁, lie, -, -⟩
    generalize inputs : n.inputs = rs at lie
    rcases lie with _ | ⟨source, _ | ⟨destination, _ | -⟩⟩
    · exact coupled_throw
    · exact coupled_throw
    · refine relocated₁.save n source destination ?_
      rintro v rfl
      exact own v (by simp [Node.storesInto, kind, inputs])
    · exact coupled_throw
  · refine coupled_bind operands ?_
    rintro xs s₁ ys t₁ ⟨relocated₁, lie, -, -⟩
    refine coupled_bind (relocated₁.result id n) ?_
    rintro _ s₂ _ t₂ ⟨relocated₂, same, same', a, rfl, rfl⟩
    rw [← same, ← same'] at lie
    refine coupled_bind (relocated₂.emit (LieAll.writing .nil (k := 0) rfl)) ?_
    rintro _ s₃ _ t₃ ⟨relocated₃, same₃, same₃'⟩
    rw [← same₃, ← same₃'] at lie
    exact relocated₃.sum n a lie
  · next rule kind =>
    refine coupled_bind operands ?_
    rintro xs s₁ ys t₁ ⟨relocated₁, lie, -, -⟩
    obtain ⟨r₁, r₂, r₃, inputs⟩ := List.length_eq_three.mp (arity 3 (by rw [kind]; rfl))
    rw [inputs] at lie
    refine relocated₁.update n rule lie ?_ ?_
    all_goals
      rintro v rfl
      exact own v (by simp [Node.storesInto, kind, inputs])
  · exact coupled_throw

theorem nodes (relocated : Relocated c.module c.graph.storesInto s t) (sound : c.module.Sound)
    (formed : c.graph.WellFormed) (fewer : ∀ v ∈ c.graph.storesInto, v ∈ c.stored)
    (ids : List NodeId) :
    Coupled (fun _ s' _ t' => Relocated c.module c.graph.storesInto s' t')
      (Lower.nodes c ids) s (Lower.nodes c ids) t := by
  induction ids generalizing s t with
  | nil => exact coupled_pure relocated
  | cons id ids ih =>
    rw [Lower.nodes, List.forM_eq_forM, List.forM_cons]
    refine coupled_bind (Q := fun _ s' _ t' => Relocated c.module c.graph.storesInto s' t')
      (coupled_bind (Q := fun n s' n' t' => c.graph.node? id = some n ∧ n' = n ∧
        Relocated c.module c.graph.storesInto s' t') ?_ ?_) fun _ _ _ _ h => ih h
    · refine coupled_attempt ?_
      cases hn : c.graph.node id with
      | error e => exact .error
      | ok n => exact .ok ⟨Graph.node_eq_ok_iff.mp hn, rfl, relocated⟩
    · rintro _ s₁ n t₁ ⟨hn, rfl, relocated₁⟩
      have member : n ∈ c.graph.nodes := Array.mem_of_getElem? hn
      exact relocated₁.node sound fewer id (formed.arities n member) fun v hv =>
        List.mem_flatMap.mpr ⟨n, Array.mem_toList_iff.mpr member, hv⟩

end Relocated
end Lowering

/-! ## Graphs -/

/-- Whether a graph can be lowered does not depend on the homes that variables have already, as long as
they serve what the graph stores into. -/
theorem Graph.lower_isOk_eq [Scalar α] [PartialEquivBEq α] {g : Graph α} {m : Module α}
    {s t : WeightStorage α} (formed : g.WellFormed) (sound : m.Sound)
    (left : s.Serves m g.storesInto) (right : t.Serves m g.storesInto) :
    (g.lower m s).1.isOk = (g.lower m t).1.isOk := by
  rw [lower, lower]
  cases g.evaluationOrder with
  | error e => rfl
  | ok order =>
    have start : Lowering.Relocated m g.storesInto ⟨.empty g.name, s, []⟩ ⟨.empty g.name, t, []⟩ :=
      ⟨rfl, rfl, left, right, fun _ => .none⟩
    have coupled := start.nodes (c := ⟨m, g, m.storedWith g⟩) sound formed
      (fun v hv => List.mem_append_right _ hv) order
    cases coupled with
    | ok done done' _ =>
      rw [Yields] at done done'
      simp only [done, done']
      rfl
    | error failed failed' =>
      simp only [failed, failed']
      rfl

/-! ## What is stored into -/

/-- A node writes where the variables lie that it stores into. -/
theorem Node.LowersTo.stores [Scalar α] {place : Ref → Option Value} {k : Nat} {n : Node α}
    {is : List (Instruction α)} (h : n.LowersTo place k is) {v : VarId} (stored : v ∈ n.storesInto) :
    ∃ value, place (.var v) = some value ∧ ∃ i ∈ is, i.kind.initializes = false ∧
      ∃ d : Direction, d.writes = true ∧ ⟨value, d⟩ ∈ i.operands := by
  obtain ⟨self, values, sources, -, block⟩ := h
  rw [Node.storesInto] at stored
  split at stored
  · next r u kind inputs =>
    obtain rfl := List.mem_singleton.mp stored
    obtain ⟨x, d, rfl⟩ := Node.block_two (.inr kind) block
    simp only [inputs, List.map_cons, List.map_nil, List.cons.injEq, and_true] at sources
    simp only [Node.block, kind, Option.some.injEq] at block
    subst block
    refine ⟨d, sources.2, _, List.mem_singleton_self _, rfl, .output, rfl, ?_⟩
    rw [Instruction.operands_writing (k := 1) rfl]
    exact List.mem_cons_self
  · next rule w r u kind inputs =>
    obtain ⟨x, y, z, rfl⟩ := List.length_eq_three.mp
      ((List.length_map _).symm.trans ((congrArg List.length sources).symm.trans (by simp [inputs])))
    simp only [inputs, List.map_cons, List.map_nil, List.cons.injEq, and_true] at sources
    simp only [Node.block, kind, Option.some.injEq] at block
    subst block
    have operands : (Instruction.ofValues n.name (.update rule) [x, y, z]).operands =
        [⟨x, .both⟩, ⟨y, .input⟩, ⟨z, .both⟩] := Instruction.ofValues_operands rfl
    obtain ⟨q, hq, named⟩ := List.mem_filterMap.mp stored
    cases q with
    | node i => cases named
    | var v =>
      cases named
      rcases List.mem_cons.mp hq with rfl | hq
      · exact ⟨x, sources.1, _, List.mem_singleton_self _, rfl, .both, rfl, by simp [operands]⟩
      · obtain rfl := List.mem_singleton.mp hq
        exact ⟨z, sources.2.2, _, List.mem_singleton_self _, rfl, .both, rfl, by simp [operands]⟩
  · cases stored

/-- Every variable that a node stores into has a home that may be written. -/
theorem Program.Realizes.writable [Scalar α] {p : Program α} {g : Graph α} {t : WeightStorage α}
    (h : p.Realizes g t) {v : VarId} (stored : v ∈ g.storesInto) :
    ∃ l k, t.home? v = some l ∧ t.arena.get? l = some k ∧ k.isConstant = false := by
  obtain ⟨s, rfl, tidy, code, -, emitted⟩ := h
  obtain ⟨n, hn, own⟩ := List.mem_flatMap.mp stored
  obtain ⟨j, js, lowers, listed⟩ := emitted.block_mem hn
  obtain ⟨value, placed, i, hi, initial, d, writes, operand⟩ := lowers.stores own
  obtain ⟨l, rfl, home⟩ := tidy.vars v value placed
  obtain ⟨_, _, accepted⟩ := tidy.suited i (by rw [code]; exact listed i hi)
  obtain ⟨k, located, -, free⟩ := accepted.fits operand
  refine ⟨l, k, home, located, Bool.eq_false_iff.mpr fun constant => ?_⟩
  rw [initial] at free
  exact absurd (free writes constant).1 (by simp)

end NeuralGraph
