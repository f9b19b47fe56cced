import NeuralGraph.Gradient.Training
import NeuralGraph.Proofs.Graph.Made
import NeuralGraph.Proofs.Module.Layers

/-!
# How modules change

Variables last under their names, with their types, and graphs are only ever changed by adding nodes.
This holds whatever a layer or a differentiation comes to, also where it fails halfway.
-/

namespace NeuralGraph
set_option autoImplicit false
variable {α : Type}

/-! ## What layers ask for -/

/-- Operators of layers.  They leave gradients to differentiation, and a shuffle names every axis once. -/
def Operator.IsForward : Operator α → Prop
  | transpose shuffle => shuffle.Perm (List.range shuffle.length)
  | reluGradient | softmaxGradient | convolutionInputGradient _ | convolutionFilterGradient _
  | maxPoolGradient _ | averagePoolGradient _ | responseNormalizationGradient _ => False
  | _ => True

/-- Kinds of nodes of layers. -/
def NodeKind.IsForward : NodeKind α → Prop
  | compute op => op.IsForward
  | gradientSum | update _ | custom _ => False
  | _ => True

theorem Kernel.perm_of_isPermutation {rank : Nat} {shuffle : List Nat}
    (h : isPermutation rank shuffle = true) : shuffle.Perm (List.range shuffle.length) := by
  have permutes := isPermutation_iff.mp h
  rwa [permutes.length_eq, List.length_range]

/-! ## Variables and graphs -/

namespace Module

/-- Every graph was made by adding nodes. -/
def AllMade (m : Module α) : Prop := ∀ g ∈ m.graphs, g.Made

/-- Variables stay, and graphs stay made. -/
structure Evolves (m m' : Module α) : Prop where
  covers : m'.Covers m
  made : m.AllMade → m'.AllMade

instance evolves_isPreorder : IsPreorder (Module α) Evolves where
  refl m := ⟨.refl m, id⟩
  trans _ _ _ h h' := ⟨h'.covers.trans h.covers, fun made => h'.made (h.made made)⟩

theorem Evolves.refl (m : Module α) : m.Evolves m := refl_of Evolves m

theorem Evolves.of_graphs_eq {m m' : Module α} (covers : m'.Covers m)
    (same : m'.graphs = m.graphs) : m.Evolves m' :=
  ⟨covers, fun made g hg => made g (same ▸ hg)⟩

theorem exists_var?_of_isTrained {m : Module α} {v : VarId} (h : m.isTrained v = true) :
    ∃ u, m.var? v = some u := by
  cases hv : m.var? v with
  | none => simp [isTrained, hv] at h
  | some u => exact ⟨u, rfl⟩

/-- Whether a variable is trained does not change. -/
theorem Covers.isTrained_eq {m m' : Module α} (covers : m'.Covers m) {v : VarId} {u : Variable α}
    (hu : m.var? v = some u) : m'.isTrained v = m.isTrained v := by
  obtain ⟨u', hu', alike⟩ := covers v u hu
  rw [Module.isTrained, Module.isTrained, hu, hu', Option.any_some, Option.any_some,
    Variable.isTrained, Variable.isTrained, alike.training]

/-- Trained variables stay trained. -/
theorem Covers.isTrained {m m' : Module α} (covers : m'.Covers m) {v : VarId}
    (h : m.isTrained v = true) : m'.isTrained v = true := by
  obtain ⟨u, hu⟩ := exists_var?_of_isTrained h
  rw [covers.isTrained_eq hu, h]

theorem lt_size_of_isTrained {m : Module α} {v : VarId} (h : m.isTrained v = true) :
    v.index < m.vars.size := by
  obtain ⟨u, hu⟩ := exists_var?_of_isTrained h
  exact (Array.getElem?_eq_some_iff.mp hu).1

theorem Covers.size_le {m m' : Module α} (covers : m'.Covers m) : m.vars.size ≤ m'.vars.size := by
  rcases Nat.eq_zero_or_pos m.vars.size with none | some
  · exact none ▸ Nat.zero_le _
  · have last : m.vars.size - 1 < m.vars.size := Nat.sub_lt some Nat.one_pos
    obtain ⟨u, hu, -⟩ := covers ⟨m.vars.size - 1⟩ _ (Array.getElem?_eq_getElem last)
    exact Nat.le_of_pred_lt (Array.getElem?_eq_some_iff.mp hu).1

theorem AllMade.ofSeed (seed : UInt64) : (Module.ofSeed seed : Module α).AllMade := by
  simp [AllMade, Module.ofSeed]

theorem AllMade.graph {m : Module α} (made : m.AllMade) {f : GraphId} {g : Graph α}
    (hg : m.graph? f = some g) : g.Made := made g (Array.mem_of_getElem? hg)

theorem putGraph_evolves (m : Module α) (f : GraphId) {g : Graph α} (made : m.AllMade → g.Made) :
    m.Evolves (m.putGraph f g) := by
  refine ⟨.refl m, fun all h hh => ?_⟩
  rcases Array.mem_or_eq_of_mem_setIfInBounds hh with old | rfl
  · exact all h old
  · exact made all

theorem insertGraph_evolves {m m' : Module α} {g : Graph α} {id : GraphId} (made : g.Made)
    (h : m.insertGraph g = .ok (m', id)) : m.Evolves m' := by
  obtain ⟨rfl, -⟩ := insertGraph_eq_ok h
  refine ⟨.refl m, fun all h hh => ?_⟩
  rcases Array.mem_push.mp hh with old | rfl
  · exact all h old
  · exact made

variable [Scalar α] {m m' : Module α} {name : String} {type : TensorType α}
  {visibility : Visibility} {training : Training α} {id : VarId}

theorem declare_evolves (h : m.declare name type visibility training = .ok (m', id)) :
    m.Evolves m' := by
  refine .of_graphs_eq (declare_covers h) ?_
  obtain ⟨-, -, rfl⟩ := declare_eq_ok h
  rfl

theorem findOrDeclare_evolves (h : m.findOrDeclare name type visibility training = .ok (m', id)) :
    m.Evolves m' := by
  rcases findOrDeclare_eq_ok h with ⟨rfl, -⟩ | declared
  · exact .refl m'
  · exact declare_evolves declared

theorem setInitial_evolves {t : Tensor α} (h : m.setInitial id t = .ok m') : m.Evolves m' := by
  obtain ⟨v, hv, -, rfl⟩ := setInitial_eq_ok h
  exact .of_graphs_eq (putVariable_covers hv ⟨rfl, rfl, rfl⟩) rfl

omit [Scalar α] in
theorem fillInitial_evolves {value : α} (h : m.fillInitial id value = .ok m') : m.Evolves m' := by
  obtain ⟨v, hv, rfl⟩ := fillInitial_eq_ok h
  exact .of_graphs_eq (putVariable_covers hv ⟨rfl, rfl, rfl⟩) rfl

/-- Graph `f`, if there is one, has only nodes of layers. -/
def Forward (m : Module α) (f : GraphId) : Prop :=
  ∀ g, m.graph? f = some g → ∀ n ∈ g.nodes, n.kind.IsForward

section
variable {f : GraphId}

omit [Scalar α] in
theorem Forward.congr (forward : m.Forward f) (same : m'.graphs = m.graphs) : m'.Forward f :=
  fun g hg => forward g (by rw [graph?, ← same]; exact hg)

theorem Forward.declare (forward : m.Forward f)
    (h : m.declare name type visibility training = .ok (m', id)) : m'.Forward f := by
  obtain ⟨-, -, rfl⟩ := declare_eq_ok h
  exact forward.congr rfl

omit [Scalar α] in
theorem Forward.insertGraph {g : Graph α} {id : GraphId} (forward : m.Forward f)
    (h : m.insertGraph g = .ok (m', id)) (own : id = f → g.nodes = #[]) : m'.Forward f := by
  intro k hk n hn
  rcases insertGraph_graph? h hk with old | ⟨new, rfl⟩
  · exact forward k old n hn
  · simp [own new] at hn

end

end Module

/-! ## Building -/

namespace Build
open NeuralGraph.Module
variable {β : Type}

section
variable {R : Module α → Module α → Prop} [IsPreorder (Module α) R]

theorem leads_attempt {f : Module α → Except (Error α) (Module α × β)}
    (h : ∀ m m' b, f m = .ok (m', b) → R m m') : Leads R (attempt f) := by
  intro m
  simp only [attempt, ExceptT.run_mk, StateT.run]
  cases hf : f m with
  | error e => exact refl_of R m
  | ok r => exact h m r.1 r.2 hf

theorem leads_ask (f : Module α → Except (Error α) β) : Leads R (ask f) := refl_of R

theorem leads_invalid (name : String) (fault : NodeFault α) :
    Leads R (invalid name fault : Build α β) := leads_throw _

theorem leads_require (condition : Bool) (name : String) (fault : NodeFault α) :
    Leads R (require condition name fault) := by
  rw [require]
  split
  · exact leads_pure ()
  · exact leads_invalid name fault

/-- What comes after a condition may rely on it. -/
theorem leads_ensure {condition : Bool} {name : String} {fault : NodeFault α} {k : Unit → Build α β}
    (h : condition = true → Leads R (k ())) : Leads R (require condition name fault >>= k) := by
  cases condition with
  | false => exact fun m => refl_of R m
  | true => exact leads_bind (leads_require true name fault) fun _ => h rfl

theorem leads_typeOf (f : GraphId) (r : Ref) : Leads R (typeOf f r : Build α _) := leads_ask _

theorem leads_windowPositions (name : String) (x : TensorType α) (w : Window) :
    Leads R (windowPositions name x w) := by
  unfold windowPositions
  split
  · exact leads_pure _
  · exact leads_invalid name _

theorem leads_productDims (name : String) (a b : TensorType α) :
    Leads R (productDims name a b) := by
  unfold productDims
  split
  · split
    · exact leads_pure _
    · exact leads_invalid name _
  · exact leads_invalid name _

/-- A node whose inputs are looked at first. -/
theorem leads_after {f : GraphId} {r : Ref} {k : TensorType α → Build α β}
    (h : ∀ t, Leads R (k t)) : Leads R (typeOf f r >>= k) := leads_bind (leads_typeOf f r) h

theorem leads_node {f : GraphId} {name : String} {kind : NodeKind α} {inputs : List Ref}
    {type : Option (TensorType α)}
    (h : ∀ m g g' id, m.graph? f = some g → g.push name kind inputs type = .ok (g', id) →
      R m (m.putGraph f g')) : Leads R (node f name kind inputs type) := by
  refine leads_attempt fun m m' id added => ?_
  cases hu : unknownInput? m inputs with
  | some v => simp [hu] at added
  | none =>
    cases hg : m.graph f with
    | error e => simp [hu, hg, bind, Except.bind] at added
    | ok g =>
      simp only [hu, hg, bind, Except.bind] at added
      split at added
      · cases added
      · next r pushed =>
        cases added
        exact h m g r.1 r.2 (graph_eq_ok_iff.mp hg) pushed

end

variable [Scalar α]

/-! ## Layers -/

/-- The steps that layers of graph `f` consist of are steps of the relation. -/
structure Carries (f : GraphId) (R : Module α → Module α → Prop) : Prop where
  declares : ∀ name type visibility training, Leads R (newVariable name type visibility training)
  nodes : ∀ name kind inputs type, kind.IsForward → Leads R (node f name kind inputs type)

namespace Carries
variable {f : GraphId} {R : Module α → Module α → Prop} [IsPreorder (Module α) R]

theorem value (carries : Carries f R) {name : String} {kind : NodeKind α} {inputs : List Ref}
    {type : TensorType α} (forward : kind.IsForward) :
    Leads R (Build.value f name kind inputs type) :=
  leads_bind (carries.nodes name kind inputs (some type) forward) fun id => leads_pure (Ref.node id)

/-- A node that is made if a condition holds. -/
theorem valueIf (carries : Carries f R) {condition : Bool} {name node : String}
    {fault : NodeFault α} {kind : NodeKind α} {inputs : List Ref} {type : TensorType α}
    (forward : condition = true → kind.IsForward) :
    Leads R (do
      require condition name fault
      Build.value f node kind inputs type) :=
  leads_ensure fun holds => carries.value (forward holds)

theorem denseWith (carries : Carries f R) (name : String) (input weights bias : Ref) :
    Leads R (Build.denseWith f name input weights bias : Build α Ref) := by
  refine leads_bind (leads_typeOf f input) fun x => leads_bind (leads_typeOf f weights) fun w =>
    leads_bind (leads_typeOf f bias) fun b => ?_
  split
  · exact leads_bind (leads_require _ _ _) fun _ => carries.valueIf fun _ => trivial
  · exact leads_invalid name _

theorem convolutionWith (carries : Carries f R) (name : String) (input filter bias : Ref)
    (w : Window) : Leads R (Build.convolutionWith f name input filter bias w : Build α Ref) := by
  refine leads_bind (leads_typeOf f input) fun x => leads_bind (leads_typeOf f filter) fun t =>
    leads_bind (leads_typeOf f bias) fun b => ?_
  split
  · exact leads_bind (leads_require _ _ _) fun _ => leads_bind (leads_windowPositions _ _ _)
      fun _ => carries.value trivial
  · exact leads_invalid name _

theorem convolution (carries : Carries f R) (name : String) (input : Ref) (depth : Nat)
    (w : Window) : Leads R (Build.convolution f name input depth w : Build α Ref) := by
  refine leads_bind (leads_typeOf f input) fun x => ?_
  split
  · exact leads_bind (carries.declares _ _ _ _) fun filter =>
      leads_bind (carries.declares _ _ _ _) fun bias =>
        carries.convolutionWith name input (.var filter) (.var bias) w
  · exact leads_invalid name _

theorem pool (carries : Carries f R) (name : String) (op : Pooling) (input : Ref) (w : Window) :
    Leads R (Build.pool f name op input w : Build α Ref) := by
  refine leads_bind (leads_typeOf f input) fun x => ?_
  split
  · exact leads_bind (leads_windowPositions _ _ _) fun _ => carries.value trivial
  · exact leads_invalid name _

theorem addToRowsAs (carries : Carries f R) (name : String) (out : TensorType α)
    (batch slice : Ref) : Leads R (Build.addToRowsAs f name out batch slice) :=
  leads_after fun _ => leads_after fun _ => carries.valueIf fun _ => trivial

theorem saveTo (carries : Carries f R) (name : String) (source : Ref) (destination : VarId) :
    Leads R (Build.saveTo f name source destination : Build α NodeId) :=
  leads_after fun _ => leads_bind (leads_ask _) fun _ =>
    leads_bind (leads_require _ _ _) fun _ => carries.nodes _ _ _ _ trivial

end Carries

/-- Whatever comes out of a layer, it has only declared variables and added nodes. -/
theorem Creates.leads {f : GraphId} {R : Module α → Module α → Prop} [IsPreorder (Module α) R]
    {x : Build α β} (creates : Creates f x) (carries : Carries f R) : Leads R x := by
  cases creates with
  | dense name input depth =>
    exact leads_after fun x => leads_bind (leads_require _ _ _) fun _ =>
      leads_bind (carries.declares _ _ _ _) fun weights =>
        leads_bind (carries.declares _ _ _ _) fun bias => carries.denseWith name input _ _
  | denseWith name input weights bias => exact carries.denseWith name input weights bias
  | convolution name input depth w => exact carries.convolution name input depth w
  | convolutionWith name input filter bias w => exact carries.convolutionWith name input filter bias w
  | matMul name lhs rhs =>
    exact leads_after fun a => leads_after fun b => leads_bind (leads_productDims name a b) fun _ =>
      carries.value trivial
  | matMulAs name out lhs rhs =>
    exact leads_after fun a => leads_after fun b => leads_bind (leads_productDims name a b) fun _ =>
      carries.valueIf fun _ => trivial
  | addToRows name batch slice => exact leads_after fun out => carries.addToRowsAs name out batch slice
  | addToRowsAs name out batch slice => exact carries.addToRowsAs name out batch slice
  | sumRows name batch => exact leads_after fun _ => carries.valueIf fun _ => trivial
  | pool name op input w => exact carries.pool name op input w
  | responseNormalization name input params => exact leads_after fun _ => carries.valueIf fun _ => trivial
  | unary name op input => exact leads_after fun _ => carries.value trivial
  | softmax name input labels =>
    exact leads_after fun _ => leads_after fun _ => leads_bind (leads_require _ _ _) fun _ =>
      carries.valueIf fun _ => trivial
  | regression name input expected =>
    exact leads_after fun _ => leads_after fun _ => carries.valueIf fun _ => trivial
  | binary name op lhs rhs =>
    exact leads_after fun _ => leads_after fun _ => carries.valueIf fun _ => trivial
  | select name condition lhs rhs =>
    exact leads_after fun _ => leads_after fun _ => leads_after fun _ => carries.valueIf fun _ => trivial
  | reshape name input dims => exact leads_after fun _ => carries.valueIf fun _ => trivial
  | transpose name input shuffle =>
    exact leads_after fun _ => carries.valueIf Kernel.perm_of_isPermutation
  | gather name data positions =>
    exact leads_after fun _ => leads_after fun _ => carries.valueIf fun _ => trivial
  | quantize name input out => exact leads_after fun _ => carries.valueIf fun _ => trivial
  | dequantize name input => exact leads_after fun _ => carries.valueIf fun _ => trivial
  | rescale name input out => exact leads_after fun _ => carries.valueIf fun _ => trivial
  | splat name type x => exact carries.value trivial
  | saveTo name source destination => exact carries.saveTo name source destination
  | save name source =>
    exact leads_after fun _ => leads_bind (carries.declares _ _ _ _) fun destination =>
      leads_bind (carries.saveTo name source destination) fun _ => leads_pure _

theorem leads_newVariable (name : String) (type : TensorType α) (visibility : Visibility)
    (training : Training α) : Leads Evolves (newVariable name type visibility training) :=
  leads_attempt fun _ _ _ => declare_evolves

omit [Scalar α] in
theorem node_evolves (f : GraphId) (name : String) (kind : NodeKind α) (inputs : List Ref)
    (type : Option (TensorType α)) : Leads Evolves (node f name kind inputs type) :=
  leads_node fun m _ _ _ known pushed =>
    putGraph_evolves m f fun made => (made.graph known).push pushed

/-- Whatever comes out of a layer, the module has only evolved. -/
theorem Creates.evolves {f : GraphId} {x : Build α β} (creates : Creates f x) : Leads Evolves x :=
  creates.leads ⟨leads_newVariable, fun name kind inputs type _ =>
    node_evolves f name kind inputs type⟩

/-- Where graph `f` is made by layers, it still is. -/
def StaysBuilt (f : GraphId) (m m' : Module α) : Prop := m.Built f → m'.Built f

instance staysBuilt_isPreorder (f : GraphId) : IsPreorder (Module α) (StaysBuilt f) where
  refl _ := id
  trans _ _ _ h h' := h' ∘ h

/-- Layers of other graphs, whatever comes out of them, do not matter. -/
theorem Creates.built {f f' : GraphId} {x : Build α β} {m : Module α} (creates : Creates f' x)
    (other : f' ≠ f) (built : m.Built f) : (x.run.run m).2.Built f := by
  have carries : Carries f' (StaysBuilt (α := α) f) :=
    ⟨fun name type visibility training _ built => built.newVariable name type visibility training,
      fun _ _ _ _ _ => leads_node fun _ _ g' _ _ _ built => built.putOther g' other⟩
  exact creates.leads carries m built

/-- Where graph `f` has only nodes of layers, it still has. -/
def StaysForward (f : GraphId) (m m' : Module α) : Prop := m.Forward f → m'.Forward f

instance staysForward_isPreorder (f : GraphId) : IsPreorder (Module α) (StaysForward f) where
  refl _ := id
  trans _ _ _ h h' := h' ∘ h

theorem Creates.forward {f : GraphId} {x : Build α β} (creates : Creates f x) :
    Leads (StaysForward f) x := by
  refine creates.leads ⟨fun name type visibility training => ?_, fun name kind inputs type layer => ?_⟩
  · exact leads_attempt fun _ _ _ declared forward => forward.declare declared
  · refine leads_node fun m g g' id known pushed forward h hh => ?_
    obtain rfl := Option.some.inj (hh.symm.trans (putGraph_graph? known))
    intro n hn
    rcases (Graph.mem_push pushed).mp hn with old | rfl
    · exact forward g known n old
    · exact layer

/-! ## Differentiation -/

section
variable {R : Module α → Module α → Prop} [IsPreorder (Module α) R]

theorem leads_withUpdates (declares : ∀ name type, Leads R
      (attempt fun (m : Module α) => m.findOrDeclare name type .hidden .untrained))
    (rule : UpdateRule α) (g : Graph α) (sums : List WeightGradient) :
    Leads R (withUpdates rule g sums) := by
  induction sums generalizing g with
  | nil => exact leads_pure g
  | cons w sums ih =>
    exact leads_bind (leads_ask _) fun v => leads_bind (declares _ _) fun velocity =>
      leads_bind (leads_ask _) fun r => ih r.1

/-- Differentiation only finds or declares velocities, also if it fails later on. -/
theorem leads_differentiation (declares : ∀ name type, Leads R
      (attempt fun (m : Module α) => m.findOrDeclare name type .hidden .untrained))
    (f : GraphId) (rule : UpdateRule α) : Leads R (trainingGraph f rule) :=
  leads_bind (leads_ask _) fun r => leads_withUpdates declares rule r.1 r.2

end

theorem leads_trainingGraph (f : GraphId) (rule : UpdateRule α) :
    Leads Evolves (trainingGraph f rule) :=
  leads_differentiation (fun _ _ => leads_attempt fun _ _ _ => findOrDeclare_evolves) f rule

/-! ## Sound modules -/

/-- Where the variables are sound, they still are. -/
def StaysSound (m m' : Module α) : Prop := m.Sound → m'.Sound

instance staysSound_isPreorder : IsPreorder (Module α) StaysSound where
  refl _ := id
  trans _ _ _ h h' := h' ∘ h

theorem leads_sound_findOrDeclare (name : String) (type : TensorType α) (visibility : Visibility)
    (training : Training α) : Leads StaysSound
      (attempt fun (m : Module α) => m.findOrDeclare name type visibility training) :=
  leads_attempt fun _ _ _ h sound => sound.findOrDeclare h

theorem leads_sound_newVariable (name : String) (type : TensorType α) (visibility : Visibility)
    (training : Training α) : Leads StaysSound (newVariable name type visibility training) :=
  leads_attempt fun _ _ _ h sound => sound.declare h

/-- Graphs do not matter. -/
theorem leads_sound_node (f : GraphId) (name : String) (kind : NodeKind α) (inputs : List Ref)
    (type : Option (TensorType α)) : Leads StaysSound (node f name kind inputs type) :=
  leads_node fun _ _ _ _ _ _ sound => ⟨sound.distinct, sound.initial⟩

theorem Creates.sound {f : GraphId} {x : Build α β} (creates : Creates f x) : Leads StaysSound x :=
  creates.leads ⟨leads_sound_newVariable, fun name kind inputs type _ =>
    leads_sound_node f name kind inputs type⟩

theorem leads_sound_trainingGraph (f : GraphId) (rule : UpdateRule α) :
    Leads StaysSound (trainingGraph f rule) :=
  leads_differentiation (fun name type => leads_sound_findOrDeclare name type _ _) f rule

end Build

/-! ## Modules of layers -/

namespace Module
variable [Scalar α]

/-- Modules in which all graphs are made by layers. -/
inductive Layered : Module α → Prop
  | ofSeed (seed : UInt64) : Layered (.ofSeed seed)
  | declare {m m' : Module α} {name : String} {type : TensorType α} {visibility : Visibility}
      {training : Training α} {id : VarId} : Layered m →
      m.declare name type visibility training = .ok (m', id) → Layered m'
  | setInitial {m m' : Module α} {id : VarId} {t : Tensor α} : Layered m →
      m.setInitial id t = .ok m' → Layered m'
  | fillInitial {m m' : Module α} {id : VarId} {value : α} : Layered m →
      m.fillInitial id value = .ok m' → Layered m'
  | addGraph {m m' : Module α} {name : String} {id : GraphId} : Layered m →
      m.addGraph name = .ok (m', id) → Layered m'
  | create {m : Module α} {f : GraphId} {β : Type} {x : Build α β} : Layered m →
      Build.Creates f x → Layered (x.run.run m).2
  | mark {m : Module α} {f : GraphId} {g : Graph α} (inPlace : Bool) : Layered m →
      m.graph? f = some g → Layered (m.putGraph f { g with inPlace := inPlace })

theorem Layered.attempt {m : Module α} {β : Type}
    {x : Module α → Except (Error α) (Module α × β)} (layered : m.Layered)
    (h : ∀ m' b, x m = .ok (m', b) → m'.Layered) : ((Build.attempt x).run.run m).2.Layered := by
  simp only [Build.attempt, ExceptT.run_mk, StateT.run]
  cases done : x m with
  | error _ => exact layered
  | ok r => exact h r.1 r.2 done

theorem Layered.newVariable {m : Module α} (layered : m.Layered) (name : String)
    (type : TensorType α) (visibility : Visibility) (training : Training α) :
    ((Build.newVariable name type visibility training).run.run m).2.Layered :=
  layered.attempt fun _ _ h => .declare layered h

theorem Layered.newGraph {m : Module α} (layered : m.Layered) (name : String) :
    ((Build.attempt fun (m : Module α) => m.addGraph name).run.run m).2.Layered :=
  layered.attempt fun _ _ h => .addGraph layered h

theorem Layered.built {m : Module α} (layered : m.Layered) (f : GraphId) : m.Built f := by
  induction layered with
  | ofSeed seed => exact .ofSeed seed
  | declare _ h built => exact .declare built h
  | setInitial _ h built => exact .setInitial built h
  | fillInitial _ h built => exact .fillInitial built h
  | addGraph _ h built => exact .addGraph built h
  | @create m f' β x _ creates built =>
    by_cases own : f' = f
    · exact .create built (own ▸ creates)
    · exact creates.built own built
  | @mark m f' g inPlace _ known built =>
    by_cases own : f' = f
    · subst own
      exact .mark inPlace built known
    · exact .putOther _ built own

/-- A graph that is made by layers has only their nodes. -/
theorem Built.forward {m : Module α} {f : GraphId} (built : m.Built f) : m.Forward f := by
  induction built with
  | ofSeed seed =>
    have noGraph : (Module.ofSeed seed : Module α).graph? f = none := rfl
    simp [Forward, noGraph]
  | declare _ h forward => exact forward.declare h
  | setInitial _ h forward =>
    obtain ⟨v, -, -, rfl⟩ := setInitial_eq_ok h
    exact forward.congr rfl
  | fillInitial _ h forward =>
    obtain ⟨v, -, rfl⟩ := fillInitial_eq_ok h
    exact forward.congr rfl
  | addGraph _ h forward => exact forward.insertGraph h fun _ => rfl
  | create _ creates forward => exact creates.forward _ forward
  | @mark m g inPlace _ hg forward =>
    intro k hk
    obtain rfl := Option.some.inj (hk.symm.trans (putGraph_graph? hg))
    exact forward g hg
  | insertOther _ other h forward => exact forward.insertGraph h fun e => absurd e other
  | putOther g _ other forward => exact fun k hk => forward k (putGraph_graph?_ne other ▸ hk)

end Module
end NeuralGraph
