import NeuralGraph.Proofs.Gradient.Training
import NeuralGraph.Proofs.Integers
import NeuralGraph.Proofs.Module.Evolution

/-!
# Layers that are refused

A layer looks at its inputs and then adds its node, so one that is refused has changed nothing.  Three
kinds of layers declare variables before their last check: `Build.Strands` says when such a layer
leaves variables behind, and which.
-/

namespace NeuralGraph
set_option autoImplicit false

/-! ## Computations that change nothing when they fail -/

section
variable {ε σ β γ : Type} {x : ExceptT ε (StateM σ) β} {k : β → ExceptT ε (StateM σ) γ} {s s' : σ}

/-- From `s` the computation fails and leaves `s'`. -/
def Fails (x : ExceptT ε (StateM σ) β) (s s' : σ) : Prop := ∃ e, x.run.run s = (.error e, s')

/-- Where the computation fails, the state is as it was. -/
def Atomic (x : ExceptT ε (StateM σ) β) : Prop := ∀ s s', Fails x s s' → s' = s

theorem Yields.not_fails {b : β} {s₁ : σ} (h : Yields x s b s₁) : ¬Fails x s s' := by
  rintro ⟨e, failed⟩
  rw [Yields, failed] at h
  cases h

theorem fails_throw (e : ε) : Fails (throw e : ExceptT ε (StateM σ) β) s s := ⟨e, rfl⟩

/-- Of two steps either the first fails or the second, after what the first has done. -/
theorem fails_bind : Fails (x >>= k) s s' ↔
    Fails x s s' ∨ ∃ b s₁, Yields x s b s₁ ∧ Fails (k b) s₁ s' := by
  constructor
  · rintro ⟨e, failed⟩
    rw [run_bind] at failed
    rcases first : x.run.run s with ⟨e' | b, s₁⟩
    · rw [first] at failed
      cases failed
      exact .inl ⟨e, first⟩
    · rw [first] at failed
      exact .inr ⟨b, s₁, first, e, failed⟩
  · rintro (⟨e, failed⟩ | ⟨b, s₁, first, e, failed⟩)
    · exact ⟨e, by rw [run_bind, failed]⟩
    · exact ⟨e, by rw [first.run_bind, failed]⟩

theorem fails_first (h : Fails x s s') : Fails (x >>= k) s s' := fails_bind.mpr (.inl h)

theorem Yields.fails {b : β} {s₁ : σ} (h : Yields x s b s₁) (h' : Fails (k b) s₁ s') :
    Fails (x >>= k) s s' :=
  fails_bind.mpr (.inr ⟨b, s₁, h, h'⟩)

theorem atomic_throw (e : ε) : Atomic (throw e : ExceptT ε (StateM σ) β) := by
  rintro s s' ⟨e', failed⟩
  cases failed
  rfl

/-- What only reads changes nothing, whatever comes out. -/
theorem atomic_of_reads (reads : Leads Eq x) : Atomic x := by
  rintro s s' ⟨e, failed⟩
  have same := reads s
  rw [failed] at same
  exact same.symm

theorem atomic_after (reads : Leads Eq x) (h : ∀ b, Atomic (k b)) : Atomic (x >>= k) := by
  intro s s' failed
  obtain stopped | ⟨b, s₁, read, failed⟩ := fails_bind.mp failed
  · exact atomic_of_reads reads s s' stopped
  · obtain rfl := reads.of_yields read
    exact h b s s' failed

theorem Atomic.then_pure (h : Atomic x) (g : β → γ) : Atomic (x >>= fun b => pure (g b)) := by
  intro s s' failed
  obtain stopped | ⟨b, s₁, -, e, finished⟩ := fails_bind.mp failed
  · exact h s s' stopped
  · cases finished

end

variable {α : Type}

/-! ## Variables that are declared -/

namespace Module
variable [Scalar α] {m m' : Module α} {name : String} {type : TensorType α}
  {visibility : Visibility} {training : Training α} {id : VarId} {f : GraphId} {r : Ref}
  {t : TensorType α}

theorem declare_graphs (h : m.declare name type visibility training = .ok (m', id)) :
    m'.graphs = m.graphs := by
  obtain ⟨-, -, rfl⟩ := declare_eq_ok h
  rfl

theorem declare_size (h : m.declare name type visibility training = .ok (m', id)) :
    m'.vars.size = m.vars.size + 1 := by
  obtain ⟨-, -, rfl⟩ := declare_eq_ok h
  exact Array.size_push _

theorem declare_find?_eq_none_iff (h : m.declare name type visibility training = .ok (m', id))
    {other : String} (apart : other ≠ name) : m'.find? other = none ↔ m.find? other = none := by
  simp only [find?_eq_none_iff, declare_var? h]
  constructor
  · intro free i v hv
    obtain ⟨-, rfl, -⟩ := declare_eq_ok h
    have old : i ≠ ⟨m.vars.size⟩ := by
      rintro rfl
      exact absurd (Array.getElem?_eq_some_iff.mp hv).1 (Nat.lt_irrefl _)
    exact free i v (by rw [if_neg old, hv])
  · intro free i v hv
    split at hv
    · cases hv
      exact apart.symm
    · exact free i v hv

theorem Sees.declare (sees : m.Sees f r t)
    (h : m.declare name type visibility training = .ok (m', id)) : m'.Sees f r t := by
  obtain ⟨g, hg, ht⟩ := sees
  refine ⟨g, ?_, typeOf_mono ht (declare_covers h) (.refl g)⟩
  rw [graph?, declare_graphs h]
  exact hg

theorem Sees.declared (sees : m.Sees f r t)
    (h : m.declare name type visibility training = .ok (m', id)) : m'.Sees f (.var id) type := by
  obtain ⟨g, hg, -⟩ := sees.declare h
  exact ⟨g, hg, typeOf_var_iff.mpr ⟨_, by rw [declare_var? h, if_pos rfl], rfl⟩⟩

end Module

namespace Build
open NeuralGraph.Module
variable {β γ : Type} {f : GraphId} {m m' : Module α} {name : String}

/-! ## Steps -/

theorem atomic_attempt (g : Module α → Except (Error α) (Module α × β)) : Atomic (attempt g) := by
  rintro m m' ⟨e, failed⟩
  simp only [attempt, ExceptT.run_mk, StateT.run] at failed
  cases hg : g m with
  | error e' =>
    rw [hg] at failed
    cases failed
    rfl
  | ok r =>
    rw [hg] at failed
    cases failed

theorem atomic_invalid (fault : NodeFault α) : Atomic (invalid name fault : Build α β) :=
  atomic_throw _

theorem atomic_value (kind : NodeKind α) (inputs : List Ref) (type : TensorType α) :
    Atomic (value f name kind inputs type) :=
  (atomic_attempt _).then_pure _

theorem atomic_typed {r : Ref} {k : TensorType α → Build α γ} (h : ∀ t, Atomic (k t)) :
    Atomic (typeOf f r >>= k) :=
  atomic_after (leads_typeOf f r) h

theorem atomic_required {condition : Bool} {name : String} {fault : NodeFault α}
    {k : Unit → Build α γ} (h : Atomic (k ())) : Atomic (require condition name fault >>= k) :=
  atomic_after (leads_require condition name fault) fun _ => h

theorem yields_typeOf {r : Ref} {t : TensorType α} :
    Yields (typeOf f r) m t m' ↔ m.Sees f r t ∧ m' = m := by
  rw [typeOf, yields_ask]
  refine and_congr_left fun _ => ?_
  simp only [Sees, ← graph_eq_ok_iff]
  cases m.graph f with
  | error e => simp [bind, Except.bind]
  | ok g => simp [bind, Except.bind]

theorem yields_require {condition : Bool} {fault : NodeFault α} :
    Yields (require condition name fault) m () m' ↔ condition = true ∧ m' = m := by
  cases condition with
  | false => simp [require, invalid]
  | true => simp [require, eq_comm]

theorem exists_yields_node (name : String) (kind : NodeKind α) {inputs : List Ref}
    (type : Option (TensorType α)) (seen : ∀ r ∈ inputs, ∃ t, m.Sees f r t) (some' : inputs ≠ [])
    (count : ∀ k, kind.arity = some k → inputs.length = k) :
    ∃ id m', Yields (node f name kind inputs type) m id m' := by
  obtain ⟨r, hr⟩ := List.exists_mem_of_ne_nil _ some'
  obtain ⟨-, g, hg, -⟩ := seen r hr
  have typed : ∀ r ∈ inputs, ∃ t, m.typeOf g r = .ok t := by
    intro r hr
    obtain ⟨t, g', hg', ht⟩ := seen r hr
    cases hg.symm.trans hg'
    exact ⟨t, ht⟩
  have known : unknownInput? m inputs = none := by
    refine List.findSome?_eq_none_iff.mpr fun r hr => ?_
    obtain ⟨t, ht⟩ := typed r hr
    cases r with
    | node id => rfl
    | var id =>
      obtain ⟨v, hv, -⟩ := typeOf_var_iff.mp ht
      simp [hv]
  have early : ∀ id, .node id ∈ inputs → id.index < g.nodes.size := by
    intro id hid
    obtain ⟨t, ht⟩ := typed _ hid
    obtain ⟨n, hn, -⟩ := typeOf_node_iff.mp ht
    exact (Array.getElem?_eq_some_iff.mp hn).1
  obtain ⟨g', id, pushed⟩ := g.exists_push count early name type
  refine ⟨id, m.putGraph f g', yields_attempt.mpr ?_⟩
  simp only [known, graph_eq_ok_iff.mpr hg, bind, Except.bind, pushed]

theorem exists_yields_value (name : String) (kind : NodeKind α) {inputs : List Ref}
    (type : TensorType α) (seen : ∀ r ∈ inputs, ∃ t, m.Sees f r t) (some' : inputs ≠ [])
    (count : ∀ k, kind.arity = some k → inputs.length = k) :
    ∃ r m', Yields (value f name kind inputs type) m r m' := by
  obtain ⟨id, m', made⟩ := exists_yields_node name kind (some type) seen some' count
  exact ⟨.node id, m', yields_bind.mpr ⟨id, m', made, yields_pure.mpr ⟨rfl, rfl⟩⟩⟩

theorem windowPositions_fails {x : TensorType α} {w : Window} :
    Fails (windowPositions name x w) m m' ↔ m' = m ∧
      (w.positions? (x.dims.getD 1 0) = none ∨ w.positions? (x.dims.getD 2 0) = none) := by
  rw [windowPositions]
  constructor
  · intro failed
    split at failed
    · obtain ⟨e, finished⟩ := failed
      cases finished
    · next h =>
      refine ⟨atomic_invalid _ _ _ failed, ?_⟩
      by_contra both
      obtain ⟨some₁, some₂⟩ := not_or.mp both
      obtain ⟨u, hu⟩ := Option.ne_none_iff_exists'.mp some₁
      obtain ⟨v, hv⟩ := Option.ne_none_iff_exists'.mp some₂
      exact h u v hu hv
  · rintro ⟨rfl, misfits⟩
    split
    · next hu hv =>
      rw [hu, hv] at misfits
      simp at misfits
    · exact fails_throw _

/-! ## Layers that look first -/

theorem atomic_denseWith (input weights bias : Ref) :
    Atomic (denseWith f name input weights bias : Build α Ref) := by
  refine atomic_typed fun x => atomic_typed fun w => atomic_typed fun b => ?_
  split
  · exact atomic_required (atomic_required (atomic_value _ _ _))
  · exact atomic_invalid _

theorem atomic_convolutionWith (input filter bias : Ref) (w : Window) :
    Atomic (convolutionWith f name input filter bias w : Build α Ref) := by
  refine atomic_typed fun x => atomic_typed fun t => atomic_typed fun b => ?_
  split
  · exact atomic_required (atomic_after (leads_windowPositions _ _ _) fun _ => atomic_value _ _ _)
  · exact atomic_invalid _

theorem atomic_pool (op : Pooling) (input : Ref) (w : Window) :
    Atomic (pool f name op input w : Build α Ref) := by
  refine atomic_typed fun x => ?_
  split
  · exact atomic_after (leads_windowPositions _ _ _) fun _ => atomic_value _ _ _
  · exact atomic_invalid _

theorem atomic_addToRowsAs (out : TensorType α) (batch slice : Ref) :
    Atomic (addToRowsAs f name out batch slice) :=
  atomic_typed fun _ => atomic_typed fun _ => atomic_required (atomic_value _ _ _)

variable [Scalar α]

theorem atomic_saveTo (source : Ref) (destination : VarId) :
    Atomic (saveTo f name source destination : Build α NodeId) :=
  atomic_typed fun _ => atomic_after (leads_ask _) fun _ => atomic_required (atomic_attempt _)

/-! ## Layers that declare first -/

theorem newVariable_fails {type : TensorType α} {visibility : Visibility} {training : Training α} :
    Fails (newVariable name type visibility training) m m' ↔
      m' = m ∧ (training.suits type = true → m.find? name ≠ none) := by
  constructor
  · refine fun failed => ⟨atomic_attempt _ m m' failed, fun suits free => ?_⟩
    have made : Yields (newVariable name type visibility training) m _ _ :=
      yields_attempt.mpr (declare_of_free name type visibility training suits free)
    exact made.not_fails failed
  · rintro ⟨rfl, taken⟩
    rcases run : (newVariable name type visibility training).run.run m' with ⟨e | id, m₁⟩
    · obtain rfl := atomic_attempt _ m' m₁ ⟨e, run⟩
      exact ⟨e, run⟩
    · have declared := yields_attempt.mp run
      exact absurd (declare_eq_ok declared).1 (taken (declare_suits declared))

theorem bias_ne (name other : String) (h : other.length ≠ 5) :
    name ++ ".bias" ≠ name ++ other := by
  intro same
  have lengths := congrArg String.length same
  rw [String.length_append, String.length_append] at lengths
  exact h (Nat.add_left_cancel lengths).symm

/-- The layers that fail after they have declared variables, and the modules that they leave: one whose
bias has a taken name, a convolution whose window does not fit, and an output whose type differs from
itself. -/
inductive Strands (f : GraphId) : {β : Type} → Build α β → Module α → Module α → Prop
  | denseBias {name : String} {input : Ref} {depth : Nat} {m m₁ : Module α} {x : TensorType α}
      {w : VarId} : m.Sees f input x → 2 ≤ x.rank →
      m.declare (name ++ ".weights") (.float [x.rowSize, depth]) .hidden (.xavier x.rowSize) =
        .ok (m₁, w) →
      m.find? (name ++ ".bias") ≠ none → Strands f (dense f name input depth) m m₁
  | convolutionBias {name : String} {input : Ref} {depth n h v c : Nat} {w : Window}
      {m m₁ : Module α} {x : TensorType α} {t : VarId} : m.Sees f input x → x.dims = [n, h, v, c] →
      m.declare (name ++ ".filter") (.float [depth, w.kernel, w.kernel, c]) .hidden
        (.xavier (w.kernel * w.kernel * c)) = .ok (m₁, t) →
      m.find? (name ++ ".bias") ≠ none → Strands f (convolution f name input depth w) m m₁
  | convolutionWindow {name : String} {input : Ref} {depth n h v c : Nat} {w : Window}
      {m m₁ m₂ : Module α} {x : TensorType α} {t b : VarId} :
      m.Sees f input x → x.dims = [n, h, v, c] →
      m.declare (name ++ ".filter") (.float [depth, w.kernel, w.kernel, c]) .hidden
        (.xavier (w.kernel * w.kernel * c)) = .ok (m₁, t) →
      m₁.declare (name ++ ".bias") (.float [depth]) .hidden (.constant 0.1) = .ok (m₂, b) →
      w.positions? h = none ∨ w.positions? v = none →
      Strands f (convolution f name input depth w) m m₂
  | save {name : String} {source : Ref} {m m₁ : Module α} {x : TensorType α} {d : VarId} :
      m.Sees f source x → ¬x.Comparable →
      m.declare name x .exposed .untrained = .ok (m₁, d) → Strands f (save f name source) m m₁

theorem exists_yields_denseWith (name : String) {input weights bias : Ref} {x : TensorType α}
    {depth : Nat} (hx : m.Sees f input x) (hw : m.Sees f weights (.float [x.rowSize, depth]))
    (hb : m.Sees f bias (.float [depth])) (rank : 2 ≤ x.rank) :
    ∃ r m', Yields (denseWith f name input weights bias) m r m' := by
  have seen : ∀ r ∈ [input, weights, bias], ∃ t, m.Sees f r t :=
    List.forall_mem_cons.mpr ⟨⟨_, hx⟩, List.forall_mem_cons.mpr
      ⟨⟨_, hw⟩, List.forall_mem_singleton.mpr ⟨_, hb⟩⟩⟩
  obtain ⟨r, m', made⟩ := exists_yields_value name (.compute .dense) (x.withDims [x.rows, depth])
    seen (List.cons_ne_nil _ _) (fun k hk => Option.some.inj hk)
  refine ⟨r, m', yields_bind.mpr ⟨x, m, yields_typeOf.mpr ⟨hx, rfl⟩, yields_bind.mpr ⟨_, m,
    yields_typeOf.mpr ⟨hw, rfl⟩, yields_bind.mpr ⟨_, m, yields_typeOf.mpr ⟨hb, rfl⟩, ?_⟩⟩⟩⟩
  exact yields_bind.mpr ⟨(), m, yields_require.mpr ⟨Nat.ble_eq.mpr rank, rfl⟩,
    yields_bind.mpr ⟨(), m, yields_require.mpr ⟨by simp, rfl⟩, made⟩⟩

theorem dense_failure {input : Ref} {depth : Nat} (failed : Fails (dense f name input depth) m m') :
    m' = m ∨ Strands f (dense f name input depth) m m' := by
  obtain stopped | ⟨x, m₁, typed, checking⟩ := fails_bind.mp failed
  · exact .inl (atomic_of_reads (leads_typeOf f input) m m' stopped)
  obtain ⟨hx, rfl⟩ := yields_typeOf.mp typed
  obtain stopped | ⟨⟨⟩, m₂, required, making⟩ := fails_bind.mp checking
  · exact .inl (atomic_of_reads (leads_require _ _ _) _ m' stopped)
  obtain ⟨rank, rfl⟩ := yields_require.mp required
  obtain stopped | ⟨weights, m₃, made, making'⟩ := fails_bind.mp making
  · exact .inl (newVariable_fails.mp stopped).1
  have declared := yields_attempt.mp made
  obtain stopped | ⟨bias, m₄, made', adding⟩ := fails_bind.mp making'
  · obtain ⟨rfl, taken⟩ := newVariable_fails.mp stopped
    refine .inr (.denseBias hx (Nat.ble_eq.mp rank) declared fun free => taken rfl ?_)
    exact (declare_find?_eq_none_iff declared (bias_ne name _ (by decide))).mpr free
  -- Parameters made for the input suit it.
  have declared' := yields_attempt.mp made'
  obtain ⟨r, m₅, done⟩ := exists_yields_denseWith name
    ((hx.declare declared).declare declared') ((hx.declared declared).declare declared')
    ((hx.declare declared).declared declared') (Nat.ble_eq.mp rank)
  exact absurd adding done.not_fails

/-- A convolution over parameters that were made for it is refused for its window only. -/
theorem convolutionWith_fails {input filter bias : Ref} {x : TensorType α}
    {n h v c depth : Nat} {w : Window} (hx : m.Sees f input x) (dims : x.dims = [n, h, v, c])
    (hf : m.Sees f filter (.float [depth, w.kernel, w.kernel, c]))
    (hb : m.Sees f bias (.float [depth])) :
    Fails (convolutionWith f name input filter bias w) m m ↔
      w.positions? h = none ∨ w.positions? v = none := by
  have seen : ∀ r ∈ [input, filter, bias], ∃ t, m.Sees f r t :=
    List.forall_mem_cons.mpr ⟨⟨_, hx⟩, List.forall_mem_cons.mpr
      ⟨⟨_, hf⟩, List.forall_mem_singleton.mpr ⟨_, hb⟩⟩⟩
  have checked : Yields (require (w.kernel == w.kernel && w.kernel == w.kernel && c == c &&
      depth == depth) name (.filter (.float [depth, w.kernel, w.kernel, c]) (.float [depth]) x w))
      m () m := yields_require.mpr ⟨by simp, rfl⟩
  have dims₁ : x.dims.getD 1 0 = h := by rw [dims]; rfl
  have dims₂ : x.dims.getD 2 0 = v := by rw [dims]; rfl
  constructor
  · rintro ⟨e, failed⟩
    rw [convolutionWith, (yields_typeOf.mpr ⟨hx, rfl⟩).run_bind,
      (yields_typeOf.mpr ⟨hf, rfl⟩).run_bind, (yields_typeOf.mpr ⟨hb, rfl⟩).run_bind, dims] at failed
    obtain stopped | ⟨⟨⟩, m₁, required, sliding⟩ := fails_bind.mp ⟨e, failed⟩
    · exact absurd stopped checked.not_fails
    obtain ⟨-, rfl⟩ := yields_require.mp required
    obtain stopped | ⟨⟨u, u'⟩, m₂, slid, adding⟩ := fails_bind.mp sliding
    · have misfits := (windowPositions_fails.mp stopped).2
      rwa [dims₁, dims₂] at misfits
    have reads : Leads Eq (windowPositions name x w) := leads_windowPositions name x w
    obtain rfl := reads.of_yields slid
    obtain ⟨r, m₃, made⟩ := exists_yields_value name (.compute (.convolution w))
      (x.withDims [n, u, u', depth]) seen (List.cons_ne_nil _ _) (fun k hk => Option.some.inj hk)
    exact absurd adding made.not_fails
  · intro misfits
    refine (yields_typeOf.mpr ⟨hx, rfl⟩).fails ((yields_typeOf.mpr ⟨hf, rfl⟩).fails
      ((yields_typeOf.mpr ⟨hb, rfl⟩).fails ?_))
    rw [dims]
    exact checked.fails (fails_first (windowPositions_fails.mpr ⟨rfl, by rwa [dims₁, dims₂]⟩))

theorem convolution_failure {input : Ref} {depth : Nat} {w : Window}
    (failed : Fails (convolution f name input depth w) m m') :
    m' = m ∨ Strands f (convolution f name input depth w) m m' := by
  obtain stopped | ⟨x, m₁, typed, making⟩ := fails_bind.mp failed
  · exact .inl (atomic_of_reads (leads_typeOf f input) m m' stopped)
  obtain ⟨hx, rfl⟩ := yields_typeOf.mp typed
  split at making
  · next n h v c dims =>
    obtain stopped | ⟨filter, m₂, made, making'⟩ := fails_bind.mp making
    · exact .inl (newVariable_fails.mp stopped).1
    have declared := yields_attempt.mp made
    obtain stopped | ⟨bias, m₃, made', adding⟩ := fails_bind.mp making'
    · obtain ⟨rfl, taken⟩ := newVariable_fails.mp stopped
      refine .inr (.convolutionBias hx dims declared fun free => taken rfl ?_)
      exact (declare_find?_eq_none_iff declared (bias_ne name _ (by decide))).mpr free
    have declared' := yields_attempt.mp made'
    obtain rfl := atomic_convolutionWith _ _ _ _ m₃ m' adding
    exact .inr (.convolutionWindow hx dims declared declared'
      ((convolutionWith_fails ((hx.declare declared).declare declared') dims
        ((hx.declared declared).declare declared') ((hx.declare declared).declared declared')).mp
          adding))
  · exact .inl (atomic_invalid _ _ m' making)

/-- A value is stored in a variable of its own type unless that type differs from itself. -/
theorem saveTo_fails {source : Ref} {destination : VarId} {x : TensorType α}
    (hx : m.Sees f source x) (hd : m.Sees f (.var destination) x) :
    Fails (saveTo f name source destination) m m ↔ ¬x.Comparable := by
  obtain ⟨g, -, ht⟩ := id hd
  obtain ⟨v, hv, rfl⟩ := typeOf_var_iff.mp ht
  have asked : Yields (ask fun (m : Module α) => m.var destination) m v m :=
    yields_ask.mpr ⟨var_eq_ok_iff.mpr hv, rfl⟩
  constructor
  · intro failed comparable
    obtain ⟨id, m', made⟩ := exists_yields_node name .save none
      (List.forall_mem_cons.mpr ⟨⟨_, hx⟩, List.forall_mem_singleton.mpr ⟨_, hd⟩⟩)
      (List.cons_ne_nil _ _) (fun k hk => Option.some.inj hk)
    have stored : Yields (saveTo f name source destination) m id m' :=
      yields_bind.mpr ⟨_, m, yields_typeOf.mpr ⟨hx, rfl⟩, yields_bind.mpr ⟨v, m, asked,
        yields_bind.mpr ⟨(), m, yields_require.mpr ⟨comparable, rfl⟩, made⟩⟩⟩
    exact stored.not_fails failed
  · intro apart
    have different : (v.type == v.type) = false := by simpa [TensorType.Comparable] using apart
    refine (yields_typeOf.mpr ⟨hx, rfl⟩).fails (asked.fails (fails_first ?_))
    rw [require, different]
    exact fails_throw _

theorem save_failure {source : Ref} (failed : Fails (save f name source) m m') :
    m' = m ∨ Strands f (save f name source) m m' := by
  obtain stopped | ⟨x, m₁, typed, making⟩ := fails_bind.mp failed
  · exact .inl (atomic_of_reads (leads_typeOf f source) m m' stopped)
  obtain ⟨hx, rfl⟩ := yields_typeOf.mp typed
  obtain stopped | ⟨destination, m₂, made, storing⟩ := fails_bind.mp making
  · exact .inl (newVariable_fails.mp stopped).1
  have declared := yields_attempt.mp made
  obtain stopped | ⟨id, m₃, -, e, finished⟩ := fails_bind.mp storing
  · obtain rfl := atomic_saveTo _ _ _ m' stopped
    exact .inr (.save hx ((saveTo_fails (hx.declare declared) (hx.declared declared)).mp stopped)
      declared)
  · cases finished

/-! ## All layers -/

/-- A layer that is refused has changed nothing or left variables behind. -/
theorem Creates.failure {x : Build α β} (creates : Creates f x) (failed : Fails x m m') :
    m' = m ∨ Strands f x m m' := by
  cases creates with
  | dense name input depth => exact dense_failure failed
  | convolution name input depth w => exact convolution_failure failed
  | save name source => exact save_failure failed
  | denseWith name input weights bias => exact .inl (atomic_denseWith _ _ _ m m' failed)
  | convolutionWith name input filter bias w => exact .inl (atomic_convolutionWith _ _ _ _ m m' failed)
  | matMul name lhs rhs =>
    exact .inl (atomic_typed (fun a => atomic_typed fun b => atomic_after (leads_productDims name a b)
      fun _ => atomic_value _ _ _) m m' failed)
  | matMulAs name out lhs rhs =>
    exact .inl (atomic_typed (fun a => atomic_typed fun b => atomic_after (leads_productDims name a b)
      fun _ => atomic_required (atomic_value _ _ _)) m m' failed)
  | pool name op input w => exact .inl (atomic_pool _ _ _ m m' failed)
  | saveTo name source destination => exact .inl (atomic_saveTo _ _ m m' failed)
  | splat name type x => exact .inl (atomic_value _ _ _ m m' failed)
  | unary name op input => exact .inl (atomic_typed (fun _ => atomic_value _ _ _) m m' failed)
  | addToRows name batch slice =>
    exact .inl (atomic_typed (fun _ => atomic_addToRowsAs _ _ _) m m' failed)
  | addToRowsAs name out batch slice => exact .inl (atomic_addToRowsAs _ _ _ m m' failed)
  | sumRows | responseNormalization | reshape | transpose | quantize | dequantize | rescale =>
    exact .inl (atomic_typed (fun _ => atomic_required (atomic_value _ _ _)) m m' failed)
  | regression | binary | gather =>
    exact .inl (atomic_typed (fun _ => atomic_typed fun _ => atomic_required (atomic_value _ _ _))
      m m' failed)
  | softmax name input labels =>
    exact .inl (atomic_typed (fun _ => atomic_typed fun _ => atomic_required
      (atomic_required (atomic_value _ _ _))) m m' failed)
  | select name condition lhs rhs =>
    exact .inl (atomic_typed (fun _ => atomic_typed fun _ => atomic_typed fun _ =>
      atomic_required (atomic_value _ _ _)) m m' failed)

theorem Strands.fails {x : Build α β} (strands : Strands f x m m') : Fails x m m' := by
  cases strands with
  | denseBias hx rank declared taken =>
    have taken' := mt (declare_find?_eq_none_iff declared (bias_ne _ _ (by decide))).mp taken
    exact (yields_typeOf.mpr ⟨hx, rfl⟩).fails ((yields_require.mpr ⟨Nat.ble_eq.mpr rank, rfl⟩).fails
      ((yields_attempt.mpr declared).fails (fails_first (newVariable_fails.mpr ⟨rfl, fun _ => taken'⟩))))
  | convolutionBias hx dims declared taken =>
    have taken' := mt (declare_find?_eq_none_iff declared (bias_ne _ _ (by decide))).mp taken
    refine (yields_typeOf.mpr ⟨hx, rfl⟩).fails ?_
    rw [dims]
    exact (yields_attempt.mpr declared).fails (fails_first (newVariable_fails.mpr ⟨rfl, fun _ => taken'⟩))
  | convolutionWindow hx dims declared declared' misfits =>
    refine (yields_typeOf.mpr ⟨hx, rfl⟩).fails ?_
    rw [dims]
    refine (yields_attempt.mpr declared).fails ((yields_attempt.mpr declared').fails ?_)
    exact (convolutionWith_fails ((hx.declare declared).declare declared') dims
      ((hx.declared declared).declare declared') ((hx.declare declared).declared declared')).mpr misfits
  | save hx apart declared =>
    exact (yields_typeOf.mpr ⟨hx, rfl⟩).fails ((yields_attempt.mpr declared).fails
      (fails_first ((saveTo_fails (hx.declare declared) (hx.declared declared)).mpr apart)))

theorem Strands.graphs {x : Build α β} (strands : Strands f x m m') : m'.graphs = m.graphs := by
  cases strands with
  | denseBias _ _ declared _ => exact declare_graphs declared
  | convolutionBias _ _ declared _ => exact declare_graphs declared
  | convolutionWindow _ _ declared declared' _ =>
    exact (declare_graphs declared').trans (declare_graphs declared)
  | save _ _ declared => exact declare_graphs declared

theorem Strands.ne {x : Build α β} (strands : Strands f x m m') : m' ≠ m := by
  have more : m.vars.size < m'.vars.size := by
    cases strands with
    | denseBias _ _ declared _ => simp [declare_size declared]
    | convolutionBias _ _ declared _ => simp [declare_size declared]
    | convolutionWindow _ _ declared declared' _ =>
      rw [declare_size declared', declare_size declared]
      omega
    | save _ _ declared => simp [declare_size declared]
  rintro rfl
  exact Nat.lt_irrefl _ more

end Build

/-- A module with an image of two by two pixels and a graph without nodes. -/
def imageModule : Module Int where
  vars := #[⟨"x", .float [1, 2, 2, 1], .exposed, .untrained, .zeros (.float [1, 2, 2, 1])⟩]
  graphs := #[.empty "image"]
  generator := .ofSeed 7

/-- A window of three by three pixels does not fit the image. -/
def misfit : Build Int Ref := .convolution ⟨0⟩ "conv" (.var ⟨0⟩) 1 ⟨3, 1, 0⟩

def misfitPool : Build Int Ref := .pool ⟨0⟩ "pool" .max (.var ⟨0⟩) ⟨3, 1, 0⟩

theorem misfit_strands : ∃ m', Build.Strands ⟨0⟩ misfit imageModule m' := by
  have sees : imageModule.Sees ⟨0⟩ (.var ⟨0⟩) (.float [1, 2, 2, 1]) := ⟨_, rfl, rfl⟩
  have free : imageModule.find? ("conv" ++ ".filter") = none := by cbv
  have declared := Module.declare_of_free _ (.float [1, 3, 3, 1]) .hidden (.xavier (3 * 3 * 1))
    (by decide +kernel) free
  have free' := (Module.declare_find?_eq_none_iff declared
    (Build.bias_ne "conv" ".filter" (by decide))).mpr (by cbv)
  exact ⟨_, .convolutionWindow sees rfl declared (Module.declare_of_free _ _ _ _ rfl free') (.inl rfl)⟩

end NeuralGraph
