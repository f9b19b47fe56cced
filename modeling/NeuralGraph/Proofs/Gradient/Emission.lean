import NeuralGraph.Gradient.Rules
import NeuralGraph.Proofs.Module.Proper

/-!
# Adding gradient nodes

`x.Adds m g Q`: if the computation succeeds from the graph `g`, it has added nodes that suit, and its
result has the property `Q` of the graph that is then reached.  `x.Settles m g E Q`: moreover, if it
fails, then with an error of `E`.  The steps that gradient rules are made of follow, each with the
dimensions of its result: if their operands have dimensions that suit, they do not fail.
-/

namespace NeuralGraph
set_option autoImplicit false
variable {α : Type} [Scalar α]

/-- A proper graph over a module, in which every type equals itself. -/
structure Graph.Ready (m : Module α) (g : Graph α) : Prop where
  proper : g.Proper m
  nodes : ∀ n ∈ g.nodes, ∀ t, n.type = some t → t.Comparable
  vars : ∀ id v, m.var? id = some v → v.type.Comparable

/-- The type is that of a value of the graph, in other dimensions. -/
def Module.Derives (m : Module α) (g : Graph α) (t : TensorType α) : Prop :=
  ∃ r u dims, m.typeOf g r = .ok u ∧ t = u.withDims dims

/-- Kinds of nodes that gradients are computed with: they have values, and none is an activation
function. -/
def NodeKind.isRule : NodeKind α → Bool
  | compute (.unary _) | save | update _ | custom _ | gradientSum => false
  | _ => true

omit [Scalar α] in
theorem NodeKind.isRule_compute {op : Operator α} (other : ∀ u, op ≠ .unary u) :
    (compute op).isRule = true := by
  cases op with
  | unary u => exact absurd rfl (other u)
  | _ => rfl

/-- Kinds of the nodes that gradients consist of: rules and sums. -/
def NodeKind.IsGradient (kind : NodeKind α) : Prop := kind.isRule = true ∨ kind = .gradientSum

omit [Scalar α] in
theorem NodeKind.IsGradient.hasValue {kind : NodeKind α} (h : kind.IsGradient) :
    kind.hasValue = true := by
  rcases h with rule | rfl
  · cases kind <;> first | rfl | cases rule
  · rfl

omit [Scalar α] in
theorem NodeKind.IsGradient.not_unary {kind : NodeKind α} (h : kind.IsGradient) (op : UnaryOp) :
    kind ≠ .compute (.unary op) := by
  rintro rfl
  rcases h with rule | sum
  · cases rule
  · cases sum

/-- The graph `g'` is `g` with more nodes, of the kinds that gradients are computed with and of types
like those of the values that were there. -/
structure Graph.Grows (m : Module α) (g g' : Graph α) : Prop where
  ready : g'.Ready m
  extends' : g'.Extends g
  added : ∀ n ∈ g'.nodes, n ∈ g.nodes ∨
    n.kind.isRule = true ∧ ∃ t, n.type = some t ∧ m.Derives g t

/-- The value of the reference has these dimensions. -/
def Module.DimsOf (m : Module α) (g : Graph α) (r : Ref) (dims : List Nat) : Prop :=
  ∃ t, m.typeOf g r = .ok t ∧ t.dims = dims

variable {m : Module α} {g g' : Graph α}

omit [Scalar α] in
theorem Module.Derives.of_typeOf {r : Ref} {t : TensorType α} (h : m.typeOf g r = .ok t) :
    m.Derives g t := ⟨r, t, t.dims, h, rfl⟩

omit [Scalar α] in
theorem Module.Derives.withDims {t : TensorType α} (h : m.Derives g t) (dims : List Nat) :
    m.Derives g (t.withDims dims) := by
  obtain ⟨r, u, old, hu, rfl⟩ := h
  exact ⟨r, u, dims, hu, rfl⟩

omit [Scalar α] in
/-- Types like those of a graph whose own types are like those of another. -/
theorem Module.Derives.of_added {t : TensorType α} (h : m.Derives g' t)
    (added : ∀ n ∈ g'.nodes, n ∈ g.nodes ∨ ∃ t, n.type = some t ∧ m.Derives g t) :
    m.Derives g t := by
  obtain ⟨r, u, dims, hu, rfl⟩ := h
  cases r with
  | var v => exact ⟨.var v, u, dims, hu, rfl⟩
  | node id =>
    obtain ⟨n, hn, hnt⟩ := typeOf_node_iff.mp hu
    rcases added n (Array.mem_of_getElem? hn) with old | ⟨t, ht, derives⟩
    · obtain ⟨j, hj⟩ := Array.getElem?_of_mem old
      exact ⟨.node ⟨j⟩, u, dims, typeOf_node_iff.mpr ⟨n, hj, hnt⟩, rfl⟩
    · obtain rfl := Option.some.inj (hnt.symm.trans ht)
      exact derives.withDims dims

theorem Graph.Ready.comparable_of_derives (ready : g.Ready m) {t : TensorType α}
    (h : m.Derives g t) : t.Comparable := by
  obtain ⟨r, u, dims, hu, rfl⟩ := h
  refine TensorType.Comparable.withDims ?_ dims
  cases r with
  | var id =>
    obtain ⟨v, hv, rfl⟩ := Module.typeOf_var_iff.mp hu
    exact ready.vars id v hv
  | node id =>
    obtain ⟨n, hn, hnt⟩ := Module.typeOf_node_iff.mp hu
    exact ready.nodes n (Array.mem_of_getElem? hn) u hnt

theorem Graph.Ready.comparable (ready : g.Ready m) {r : Ref} {t : TensorType α}
    (ht : m.typeOf g r = .ok t) : t.Comparable := ready.comparable_of_derives (.of_typeOf ht)

theorem Graph.Grows.refl (ready : g.Ready m) : g.Grows m g := ⟨ready, .refl g, fun _ hn => .inl hn⟩

theorem Graph.Grows.trans {g'' : Graph α} (h : g.Grows m g') (h' : g'.Grows m g'') :
    g.Grows m g'' := by
  refine ⟨h'.ready, h'.extends'.trans h.extends', fun n hn => ?_⟩
  rcases h'.added n hn with hn | ⟨rule, t, ht, derives⟩
  · exact h.added n hn
  · exact .inr ⟨rule, t, ht, derives.of_added fun n hn => (h.added n hn).imp_right And.right⟩

theorem Graph.Grows.typeOf (h : g.Grows m g') {r : Ref} {t : TensorType α}
    (ht : m.typeOf g r = .ok t) : m.typeOf g' r = .ok t :=
  Module.typeOf_mono ht (.refl m) h.extends'

theorem Graph.Grows.dimsOf (h : g.Grows m g') {r : Ref} {dims : List Nat}
    (hr : m.DimsOf g r dims) : m.DimsOf g' r dims := by
  obtain ⟨t, ht, rfl⟩ := hr
  exact ⟨t, h.typeOf ht, rfl⟩

/-- A node that its inputs suit can be added. -/
theorem Graph.Ready.push (ready : g.Ready m) {name : String} {kind : NodeKind α}
    {inputs : List Ref} {type : Option (TensorType α)} {id : NodeId}
    (h : g.push name kind inputs type = .ok (g', id)) {ts : List (TensorType α)}
    (types : m.TypesOf g inputs ts) (accepts : kind.Accepts ts type)
    (stores : (⟨name, kind, inputs, type⟩ : Node α).StoresIntoVariables)
    (comparable : ∀ t, type = some t → t.Comparable) : g'.Ready m := by
  refine ⟨ready.proper.push h types accepts stores, fun n hn => ?_, ready.vars⟩
  rcases (Graph.mem_push h).mp hn with hn | rfl
  · exact ready.nodes n hn
  · exact comparable

omit [Scalar α] in
theorem Module.DimsOf.unique {r : Ref} {dims : List Nat} {t : TensorType α}
    (hr : m.DimsOf g r dims) (ht : m.typeOf g r = .ok t) : t.dims = dims := by
  obtain ⟨u, hu, rfl⟩ := hr
  rw [hu] at ht
  cases ht
  rfl

/-- Operands of this rank are within the bound. -/
def RankBound.Admits : RankBound → Nat → Prop
  | exactly n, rank => rank = n
  | atLeast n, rank => n ≤ rank

omit [Scalar α] in
/-- Nodes whose types are known are there. -/
theorem Module.TypesOf.early {inputs : List Ref} {ts : List (TensorType α)}
    (types : m.TypesOf g inputs ts) {id : NodeId} (h : Ref.node id ∈ inputs) : id.index < g.size := by
  obtain ⟨i, hi, hi'⟩ := List.getElem_of_mem h
  obtain ⟨length, typed⟩ := List.forall₂_iff_get.mp types
  have known := typed i hi (length ▸ hi)
  rw [List.get_eq_getElem, hi'] at known
  obtain ⟨n, hn, -⟩ := Module.typeOf_node_iff.mp known
  exact (Array.getElem?_eq_some_iff.mp hn).1

omit [Scalar α] in
/-- A node is added if it has as many inputs as its kind asks for, and all of them are there. -/
theorem Graph.exists_push {kind : NodeKind α} {inputs : List Ref}
    (count : ∀ k, kind.arity = some k → inputs.length = k)
    (early : ∀ id, Ref.node id ∈ inputs → id.index < g.size) (name : String)
    (type : Option (TensorType α)) : ∃ g' id, g.push name kind inputs type = .ok (g', id) := by
  have fits : ¬(kind.arity.any fun (k : Nat) => k != inputs.length) = true := by
    cases arity : kind.arity with
    | none => simp
    | some k => simp [count k arity]
  have known : (nodeInputs inputs).find? (fun (id : NodeId) => Nat.ble g.size id.index) = none := by
    refine List.find?_eq_none.mpr fun id hid late => ?_
    exact absurd (Nat.ble_eq.mp late) (Nat.not_le.mpr (early id (mem_nodeInputs.mp hid)))
  simp only [push]
  rw [if_neg fits, known]
  exact ⟨_, _, rfl⟩

namespace Emit
variable {β γ : Type}

/-- What a computation that succeeds has done to the graph `g`, and what holds of its result. -/
def Adds (m : Module α) (x : Emit α β) (g : Graph α) (Q : β → Graph α → Prop) : Prop :=
  ∀ b g', x.run g = .ok (b, g') → g.Grows m g' ∧ Q b g'

/-- What a computation has done if it succeeds, and what has been wrong if it fails. -/
structure Settles (m : Module α) (x : Emit α β) (g : Graph α) (E : Error α → Prop)
    (Q : β → Graph α → Prop) : Prop where
  adds : Adds m x g Q
  fails : ∀ e, x.run g = .error e → E e

section
variable {x : Emit α β} {k : β → Emit α γ} {E : Error α → Prop} {Q : β → Graph α → Prop}
  {R : γ → Graph α → Prop}

theorem settles_pure {b : β} (ready : g.Ready m) (h : Q b g) :
    Settles m (pure b : Emit α β) g E Q where
  adds c g' hrun := by
    cases hrun
    exact ⟨.refl ready, h⟩
  fails e hrun := by cases hrun

theorem settles_throw {e : Error α} (h : E e) : Settles m (throw e : Emit α β) g E Q where
  adds c g' hrun := by cases hrun
  fails e' hrun := by
    cases hrun
    exact h

omit [Scalar α] in
theorem run_bind_eq_ok {c : γ} {g'' : Graph α} (h : (x >>= k).run g = .ok (c, g'')) :
    ∃ b g', x.run g = .ok (b, g') ∧ (k b).run g' = .ok (c, g'') := by
  rw [StateT.run_bind] at h
  cases hx : x.run g with
  | error e => simp [hx, bind, Except.bind] at h
  | ok r => exact ⟨r.1, r.2, rfl, by simpa [hx, bind, Except.bind] using h⟩

omit [Scalar α] in
theorem run_bind_of_ok {b : β} (h : x.run g = .ok (b, g')) : (x >>= k).run g = (k b).run g' := by
  rw [StateT.run_bind, h]
  rfl

omit [Scalar α] in
theorem run_bind_of_error {e : Error α} (h : x.run g = .error e) : (x >>= k).run g = .error e := by
  rw [StateT.run_bind, h]
  rfl

theorem settles_bind (hx : Settles m x g E Q)
    (hk : ∀ b g', g.Grows m g' → Q b g' → Settles m (k b) g' E R) : Settles m (x >>= k) g E R where
  adds c g'' hrun := by
    obtain ⟨b, g', h1, h2⟩ := run_bind_eq_ok hrun
    obtain ⟨grows, hb⟩ := hx.adds b g' h1
    obtain ⟨grows', hc⟩ := (hk b g' grows hb).adds c g'' h2
    exact ⟨grows.trans grows', hc⟩
  fails e hrun := by
    cases first : x.run g with
    | error e' =>
      rw [run_bind_of_error first] at hrun
      cases hrun
      exact hx.fails e first
    | ok r =>
      obtain ⟨grows, hb⟩ := hx.adds r.1 r.2 first
      rw [run_bind_of_ok first] at hrun
      exact (hk r.1 r.2 grows hb).fails e hrun

theorem settles_mono {Q' : β → Graph α → Prop} (hx : Settles m x g E Q)
    (h : ∀ b g', g.Grows m g' → Q b g' → Q' b g') : Settles m x g E Q' where
  adds b g' hrun := by
    obtain ⟨grows, hb⟩ := hx.adds b g' hrun
    exact ⟨grows, h b g' grows hb⟩
  fails := hx.fails

omit [Scalar α] in
theorem run_lift {y : Except (Error α) β} {b : β}
    (h : (liftM y : Emit α β).run g = .ok (b, g')) : y = .ok b ∧ g' = g := by
  cases y with
  | error e => cases h
  | ok c =>
    cases h
    exact ⟨rfl, rfl⟩

omit [Scalar α] in
theorem run_get {b : Graph α} (h : (get : Emit α (Graph α)).run g = .ok (b, g')) :
    b = g ∧ g' = g := by
  cases h
  exact ⟨rfl, rfl⟩

omit [Scalar α] in
theorem run_set {b : Graph α} {u : PUnit} (h : (set b : Emit α PUnit).run g = .ok (u, g')) :
    g' = b := by
  cases h
  rfl

omit [Scalar α] in
theorem run_typeOf {r : Ref} {t : TensorType α} (h : (typeOf m r).run g = .ok (t, g')) :
    m.typeOf g r = .ok t ∧ g' = g := by
  obtain ⟨g₁, g₂, got, asked⟩ := run_bind_eq_ok h
  obtain ⟨rfl, rfl⟩ := run_get got
  exact run_lift asked

omit [Scalar α] in
theorem run_push {kind : NodeKind α} {name : String} {inputs : List Ref}
    {type : Option (TensorType α)} {k : NodeId → γ} {c : γ}
    (h : (do
      let g ← get
      let (g', id) ← g.push name kind inputs type
      set g'
      return k id : Emit α γ).run g = .ok (c, g')) :
    ∃ id, c = k id ∧ g.push name kind inputs type = .ok (g', id) := by
  obtain ⟨g₁, g₂, got, pushing⟩ := run_bind_eq_ok h
  obtain ⟨rfl, rfl⟩ := run_get got
  obtain ⟨p, g₃, pushed, storing⟩ := run_bind_eq_ok pushing
  obtain ⟨hp, rfl⟩ := run_lift pushed
  obtain ⟨u, g₄, stored, done⟩ := run_bind_eq_ok storing
  obtain rfl := run_set stored
  cases done
  exact ⟨p.2, rfl, hp⟩

omit [Scalar α] in
theorem run_typeOf_of_ok {r : Ref} {t : TensorType α} (h : m.typeOf g r = .ok t) :
    (typeOf m r).run g = .ok (t, g) := by
  have got : (get : Emit α (Graph α)).run g = .ok (g, g) := rfl
  rw [typeOf, run_bind_of_ok got, h]
  rfl

omit [Scalar α] in
theorem run_push_of_ok {kind : NodeKind α} {name : String} {inputs : List Ref}
    {type : Option (TensorType α)} {id : NodeId} (k : NodeId → γ)
    (h : g.push name kind inputs type = .ok (g', id)) :
    (do
      let g ← get
      let (g', id) ← g.push name kind inputs type
      set g'
      return k id : Emit α γ).run g = .ok (k id, g') := by
  have got : (get : Emit α (Graph α)).run g = .ok (g, g) := rfl
  rw [run_bind_of_ok got, h]
  rfl

theorem settles_typeOf {r : Ref} {dims : List Nat} (ready : g.Ready m) (hr : m.DimsOf g r dims) :
    Settles m (typeOf m r) g E fun t g' => m.typeOf g' r = .ok t where
  adds t g' h := by
    obtain ⟨ht, rfl⟩ := run_typeOf h
    exact ⟨.refl ready, ht⟩
  fails e h := by
    obtain ⟨t, ht, -⟩ := hr
    rw [run_typeOf_of_ok ht] at h
    cases h

theorem settles_typeOfRank {r : Ref} {name : String} {bound : RankBound} {dims : List Nat}
    (ready : g.Ready m) (hr : m.DimsOf g r dims) (admits : bound.Admits dims.length) :
    Settles m (typeOfRank m name r bound) g E fun t g' => m.typeOf g' r = .ok t := by
  refine settles_bind (settles_typeOf ready hr) fun t g' grows ht => ?_
  obtain rfl := (grows.dimsOf hr).unique ht
  cases bound with
  | exactly rank =>
    have fits : (t.rank == rank) = true := beq_iff_eq.mpr admits
    dsimp only
    rw [if_pos fits]
    exact settles_pure grows.ready ht
  | atLeast rank =>
    have fits : Nat.ble rank t.rank = true := Nat.ble_eq.mpr admits
    dsimp only
    rw [if_pos fits]
    exact settles_pure grows.ready ht

end

/-! ## Nodes -/

variable {name : String} {E : Error α → Prop}

omit [Scalar α] in
theorem run_node {kind : NodeKind α} {inputs : List Ref} {t : TensorType α} {r : Ref}
    (h : (node name kind inputs t).run g = .ok (r, g')) :
    ∃ id, r = .node id ∧ g.push name kind inputs (some t) = .ok (g', id) := run_push h

theorem settles_node {kind : NodeKind α} {inputs : List Ref} {t : TensorType α}
    {ts : List (TensorType α)} (ready : g.Ready m)
    (count : ∀ k, kind.arity = some k → inputs.length = k) (rule : kind.isRule = true)
    (types : m.TypesOf g inputs ts) (accepts : kind.Accepts ts (some t))
    (stores : (⟨name, kind, inputs, some t⟩ : Node α).StoresIntoVariables)
    (derives : m.Derives g t) :
    Settles m (node name kind inputs t) g E fun r g' => m.typeOf g' r = .ok t where
  adds r g' h := by
    obtain ⟨id, rfl, hp⟩ := run_node h
    refine ⟨⟨ready.push hp types accepts stores ?_, Graph.push_extends hp, fun n hn => ?_⟩, ?_⟩
    · rintro u hu
      cases hu
      exact ready.comparable_of_derives derives
    · rcases (Graph.mem_push hp).mp hn with hn | rfl
      · exact .inl hn
      · exact .inr ⟨rule, t, rfl, derives⟩
    · exact Module.typeOf_node_iff.mpr ⟨_, Graph.push_node hp, rfl⟩
  fails e h := by
    obtain ⟨g', id, pushed⟩ := g.exists_push count (fun _ => types.early) name (some t)
    rw [node, run_push_of_ok Ref.node pushed] at h
    cases h

theorem settles_operator {op : Operator α} {inputs : List Ref} {t : TensorType α}
    {ts : List (TensorType α)} (ready : g.Ready m) (count : inputs.length = op.arity)
    (types : m.TypesOf g inputs ts) (other : ∀ u, op ≠ .unary u)
    (suits : Signature.operator op (t :: ts) = .ok ())
    (derives : m.Derives g t) :
    Settles m (node name (.compute op) inputs t) g E fun r g' => m.DimsOf g' r t.dims :=
  settles_mono (settles_node ready (fun _ arity => count.trans (Option.some.inj arity))
    (NodeKind.isRule_compute other) types (.compute other suits) trivial derives)
    fun _ _ _ ht => ⟨t, ht, rfl⟩

/-- A value of the type of `x`, made from operands that suit this type. -/
theorem settles_like {op : Operator α} {x : Ref} {inputs : List Ref} {t : TensorType α}
    {ts : List (TensorType α)} (ready : g.Ready m) (count : inputs.length = op.arity)
    (hx : m.typeOf g x = .ok t) (types : m.TypesOf g inputs ts) (other : ∀ u, op ≠ .unary u)
    (suits : Signature.operator op (t :: ts) = .ok ()) :
    Settles m (do let t ← typeOf m x; node name (.compute op) inputs t) g E
      fun r g' => m.DimsOf g' r t.dims := by
  refine settles_bind (settles_typeOf ready ⟨t, hx, rfl⟩) fun t' g' grows ht => ?_
  have hx := grows.typeOf hx
  obtain rfl : t = t' := Except.ok.inj (hx.symm.trans ht)
  exact settles_operator grows.ready count (types.mono (.refl m) grows.extends') other suits
    (.of_typeOf hx)

theorem settles_splat {t : TensorType α} {x : α} (ready : g.Ready m) (derives : m.Derives g t) :
    Settles m (splat name t x) g E fun r g' => m.typeOf g' r = .ok t :=
  settles_node ready (fun _ arity => Option.some.inj arity) rfl .nil .splat trivial derives

theorem settles_binary {op : BinaryOp} {lhs rhs : Ref} {dims : List Nat} (ready : g.Ready m)
    (hl : m.DimsOf g lhs dims) (hr : m.DimsOf g rhs dims) :
    Settles m (binary m name op lhs rhs) g E fun r g' => m.DimsOf g' r dims := by
  refine settles_bind (settles_typeOf ready hl) fun t g' grows ht => ?_
  obtain rfl := (grows.dimsOf hl).unique ht
  obtain ⟨u, hu, same⟩ := grows.dimsOf hr
  refine settles_operator grows.ready rfl (.cons ht (.cons hu .nil)) (by simp) ?_
    (.of_typeOf ht)
  simp [Signature.operator, same]

theorem settles_transposeMatrix {input : Ref} {n k : Nat} (ready : g.Ready m)
    (hr : m.DimsOf g input [n, k]) :
    Settles m (transposeMatrix m name input) g E fun r g' => m.DimsOf g' r [k, n] := by
  refine settles_bind (settles_typeOfRank ready hr rfl) fun t g' grows ht => ?_
  have dims := (grows.dimsOf hr).unique ht
  have reversed : (t.withDims t.dims.reverse).dims = [k, n] := by rw [TensorType.withDims_dims, dims]; rfl
  rw [← reversed]
  refine settles_operator grows.ready rfl (.cons ht .nil) (by simp) ?_
    (.withDims (.of_typeOf ht) _)
  simp [Signature.operator, TensorType.rank, TensorType.shuffledDims?, dims]

theorem settles_matMul {lhs rhs : Ref} {n k l : Nat} (ready : g.Ready m)
    (hl : m.DimsOf g lhs [n, k]) (hr : m.DimsOf g rhs [k, l]) :
    Settles m (matMul m name lhs rhs) g E fun r g' => m.DimsOf g' r [n, l] := by
  refine settles_bind (settles_typeOfRank ready hl rfl) fun a g₁ grows₁ ha => ?_
  refine settles_bind (settles_typeOfRank grows₁.ready (grows₁.dimsOf hr) rfl) fun b g₂ grows₂ hb => ?_
  have ha := grows₂.typeOf ha
  have grows := grows₁.trans grows₂
  have dimsA := (grows.dimsOf hl).unique ha
  have dimsB := (grows.dimsOf hr).unique hb
  have product : (a.withDims [a.rows, b.dims.getD 1 0]).dims = [n, l] := by
    rw [TensorType.withDims_dims, TensorType.rows, dimsA, dimsB]
    rfl
  rw [← product]
  refine settles_operator grows.ready rfl (.cons ha (.cons hb .nil)) (by simp) ?_
    (.withDims (.of_typeOf ha) _)
  simp [Signature.operator, TensorType.rows, dimsA, dimsB]

theorem settles_reshape {input : Ref} {old dims : List Nat} (ready : g.Ready m)
    (hr : m.DimsOf g input old) (same : volume dims = volume old) :
    Settles m (reshape m name input dims) g E fun r g' => m.DimsOf g' r dims := by
  refine settles_bind (settles_typeOf ready hr) fun t g' grows ht => ?_
  have known := (grows.dimsOf hr).unique ht
  split
  · next e => exact settles_pure grows.ready ⟨t, ht, e⟩
  · refine settles_mono (settles_node grows.ready (fun _ arity => Option.some.inj arity) rfl
      (.cons ht .nil) (.reshape ?_) trivial (.withDims (.of_typeOf ht) _)) fun _ _ _ hd => ⟨_, hd, rfl⟩
    rw [TensorType.withDims_dims, known, same]

theorem settles_sumRows {input : Ref} {n : Nat} {slice : List Nat} (ready : g.Ready m)
    (hr : m.DimsOf g input (n :: slice)) :
    Settles m (sumRows m name input) g E fun r g' => m.DimsOf g' r slice := by
  refine settles_bind (settles_typeOfRank ready hr (Nat.le_add_left 1 slice.length))
    fun t g' grows ht => ?_
  have dims := (grows.dimsOf hr).unique ht
  have tail : (t.withDims t.dims.tail).dims = slice := by rw [TensorType.withDims_dims, dims]; rfl
  rw [← tail]
  refine settles_operator grows.ready rfl (.cons ht .nil) (by simp) ?_
    (.withDims (.of_typeOf ht) _)
  simp [Signature.operator, dims]

end Emit
end NeuralGraph
