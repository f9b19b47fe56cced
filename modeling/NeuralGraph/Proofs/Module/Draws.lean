import Mathlib.Algebra.BigOperators.Group.Finset.Basic
import NeuralGraph.Binary32.Scalar
import NeuralGraph.Proofs.Engine.Operations

/-!
# Random initial values

The generator of a module moves on only when a variable with a random initial value is declared, by one
word for each element.  So the words that such a variable is made from are known from the seed and from
the sizes of the random variables before it, whatever else is done to the module, successful or not.
Only a later replacement makes its initial value another one.
-/

namespace NeuralGraph
set_option autoImplicit false
open NeuralGraph.Random
variable {α β : Type} [Scalar α]

/-! ## Histories of modules -/

/-- The change replaces the initial value of the variable, if it succeeds. -/
inductive Build.Replaces : {β : Type} → Build α β → VarId → Prop
  | setInitial (id : VarId) (t : Tensor α) :
    Replaces (attempt fun (m : Module α) =>
      (m.setInitial id t).map fun (m' : Module α) => (m', ())) id
  | fillInitial (id : VarId) (value : α) :
    Replaces (attempt fun (m : Module α) =>
      (m.fillInitial id value).map fun (m' : Module α) => (m', ())) id

/-- It adds nothing. -/
theorem Build.Replaces.sizes_eq {x : Build α β} {id : VarId} (h : x.Replaces id) (m : Module α) :
    (x.run.run m).2.vars.size = m.vars.size ∧ (x.run.run m).2.graphs.size = m.graphs.size := by
  cases h with
  | setInitial id t =>
    simp only [attempt, ExceptT.run_mk, StateT.run]
    cases hm : m.setInitial id t with
    | error e => exact ⟨rfl, rfl⟩
    | ok m' =>
      obtain ⟨v, -, -, rfl⟩ := Module.setInitial_eq_ok hm
      exact ⟨Array.size_setIfInBounds, rfl⟩
  | fillInitial id value =>
    simp only [attempt, ExceptT.run_mk, StateT.run]
    cases hm : m.fillInitial id value with
    | error e => exact ⟨rfl, rfl⟩
    | ok m' =>
      obtain ⟨v, -, rfl⟩ := Module.fillInitial_eq_ok hm
      exact ⟨Array.size_setIfInBounds, rfl⟩

namespace Module

/-- Modules that any changes, successful or not, make of an empty module with this seed.  The variables
whose initial values have been replaced are among `replaced`. -/
inductive Edited (seed : UInt64) (replaced : VarId → Prop) : Module α → Prop
  | start : Edited seed replaced (.ofSeed seed)
  | edit {m : Module α} {β : Type} {x : Build α β} : Edited seed replaced m → x.Edits →
    (∀ id, x.Replaces id → (x.run.run m).1.isOk = true → replaced id) →
    Edited seed replaced (x.run.run m).2

end Module

/-! ## Words of the stream -/

/-- How many random words the initial value of the variable was made from. -/
def Variable.words (v : Variable α) : Nat :=
  match v.training with
  | .xavier _ => v.type.size
  | _ => 0

/-- The random words for the first `count` variables. -/
def Module.spent (m : Module α) (count : Nat) : Nat :=
  ∑ i ∈ Finset.range count, ((m.var? ⟨i⟩).map Variable.words).getD 0

theorem Training.draw_generator (v : Variable α) (g : Generator) :
    (v.training.draw v.type g).2 = g.skip v.words := by
  rw [Variable.words]
  cases v.training <;> rfl

/-- The words of a random value follow those that are spent. -/
theorem Training.draw_xavier (type : TensorType α) (g : Generator) (spent fanIn : Nat) :
    ((Training.xavier fanIn).draw type (g.skip spent)).1 =
      .ofFn type fun (j : Nat) => Scalar.xavier fanIn (g.word (spent + j)) := by
  simp only [Training.draw, Generator.skip_word]

namespace Module
variable {m m' : Module α} {id : VarId}

omit [Scalar α] in
theorem spent_succ {v : Variable α} (h : m.var? id = some v) :
    m.spent (id.index + 1) = m.spent id.index + v.words := by
  rw [spent, Finset.sum_range_succ, h]
  rfl

omit [Scalar α] in
theorem spent_congr {count : Nat} (h : ∀ i < count,
    (m'.var? ⟨i⟩).map Variable.words = (m.var? ⟨i⟩).map Variable.words) :
    m'.spent count = m.spent count :=
  Finset.sum_congr rfl fun i hi => by rw [h i (Finset.mem_range.mp hi)]

/-- The generator stands behind all words that are spent, and each initial value that was not replaced
is the one that was drawn from the words after those of the variables before. -/
structure Drawn (seed : UInt64) (replaced : VarId → Prop) (m : Module α) : Prop where
  generator : m.generator = (Generator.ofSeed seed).skip (m.spent m.vars.size)
  initial : ∀ id v, m.var? id = some v → ¬replaced id →
    v.initial = (v.training.draw v.type ((Generator.ofSeed seed).skip (m.spent id.index))).1

variable {seed : UInt64} {replaced : VarId → Prop}

theorem Drawn.ofSeed : (Module.ofSeed seed : Module α).Drawn seed replaced where
  generator := rfl
  initial _ _ h := by cases h

/-! ## Steps -/

/-- Graphs do not matter. -/
theorem Drawn.congr (drawn : m.Drawn seed replaced) (vars : m'.vars = m.vars)
    (generator : m'.generator = m.generator) : m'.Drawn seed replaced := by
  have same : ∀ id, m'.var? id = m.var? id := fun id => by rw [var?, var?, vars]
  have spent : ∀ count, m'.spent count = m.spent count := fun count =>
    spent_congr fun i _ => by rw [same]
  constructor
  · rw [generator, vars, spent, drawn.generator]
  · intro id v hv kept
    rw [spent, drawn.initial id v (same id ▸ hv) kept]

theorem Drawn.declare {name : String} {type : TensorType α} {visibility : Visibility}
    {training : Training α} (drawn : m.Drawn seed replaced)
    (h : m.declare name type visibility training = .ok (m', id)) : m'.Drawn seed replaced := by
  have known := declare_var? h
  obtain ⟨-, rfl, made⟩ := declare_eq_ok h
  -- The new variable is the last one, so nothing else is spent before the others.
  have before : ∀ count ≤ m.vars.size, m'.spent count = m.spent count := by
    refine fun count le => spent_congr fun i lt => ?_
    have other : (⟨i⟩ : VarId) ≠ ⟨m.vars.size⟩ := fun e =>
      absurd (congrArg VarId.index e) (Nat.ne_of_lt (Nat.lt_of_lt_of_le lt le))
    rw [known, if_neg other]
  have new := known ⟨m.vars.size⟩
  rw [if_pos rfl, drawn.generator] at new
  constructor
  · have size : m'.vars.size = m.vars.size + 1 := by rw [made, Array.size_push]
    have generator : m'.generator = (training.draw type m.generator).2 := by rw [made]
    rw [size, spent_succ new, before _ (Nat.le_refl _), ← Generator.skip_skip, ← drawn.generator,
      generator]
    exact Training.draw_generator ⟨name, type, visibility, training, _⟩ m.generator
  · intro i v hv kept
    by_cases own : i = ⟨m.vars.size⟩
    · subst own
      obtain rfl := Option.some.inj (new.symm.trans hv)
      rw [before _ (Nat.le_refl _)]
    · rw [known, if_neg own] at hv
      rw [before _ (Nat.le_of_lt (Array.getElem?_eq_some_iff.mp hv).1), drawn.initial i v hv kept]

theorem Drawn.findOrDeclare {name : String} {type : TensorType α} {visibility : Visibility}
    {training : Training α} (drawn : m.Drawn seed replaced)
    (h : m.findOrDeclare name type visibility training = .ok (m', id)) : m'.Drawn seed replaced := by
  rcases findOrDeclare_eq_ok h with ⟨rfl, -⟩ | declared
  · exact drawn
  · exact drawn.declare declared

theorem Drawn.replace {v : Variable α} (drawn : m.Drawn seed replaced) (hv : m.var? id = some v)
    (initial : Tensor α) (mentioned : replaced id) :
    (m.putVariable id { v with initial := initial }).Drawn seed replaced := by
  have known := putVariable_var? (w := { v with initial := initial }) hv
  -- Type and training are kept, and what is spent depends on nothing else.
  have spent : ∀ count, (m.putVariable id { v with initial := initial }).spent count =
      m.spent count := by
    refine fun count => spent_congr fun i _ => ?_
    rw [known]
    split
    · next own =>
      rw [own, hv]
      rfl
    · rfl
  constructor
  · have size : (m.putVariable id { v with initial := initial }).vars.size = m.vars.size :=
      Array.size_setIfInBounds
    rw [spent, size]
    exact drawn.generator
  · intro i w hw kept
    have other : i ≠ id := fun e => kept (e ▸ mentioned)
    rw [known, if_neg other] at hw
    rw [spent, drawn.initial i w hw kept]

/-- Where initial values are as they were drawn, they still are. -/
def StaysDrawn (seed : UInt64) (replaced : VarId → Prop) (m m' : Module α) : Prop :=
  m.Drawn seed replaced → m'.Drawn seed replaced

instance staysDrawn_isPreorder : IsPreorder (Module α) (StaysDrawn seed replaced) where
  refl _ drawn := drawn
  trans _ _ _ h h' drawn := h' (h drawn)

end Module

/-! ## Changes -/

namespace Build
open NeuralGraph.Module
variable {seed : UInt64} {replaced : VarId → Prop}

theorem drawn_node (f : GraphId) (name : String) (kind : NodeKind α) (inputs : List Ref)
    (type : Option (TensorType α)) :
    Leads (StaysDrawn seed replaced) (node f name kind inputs type) :=
  leads_node fun _ _ _ _ _ _ drawn => drawn.congr rfl rfl

theorem drawn_newVariable (name : String) (type : TensorType α) (visibility : Visibility)
    (training : Training α) :
    Leads (StaysDrawn seed replaced) (newVariable name type visibility training) :=
  leads_attempt fun _ _ _ h drawn => drawn.declare h

theorem drawn_findOrDeclare (name : String) (type : TensorType α) (visibility : Visibility)
    (training : Training α) : Leads (StaysDrawn seed replaced)
      (attempt fun (m : Module α) => m.findOrDeclare name type visibility training) :=
  leads_attempt fun _ _ _ h drawn => drawn.findOrDeclare h

/-- Whatever comes out of a change, initial values that it does not replace stay as they were drawn. -/
theorem Edits.drawn {x : Build α β} {m : Module α} (edits : x.Edits)
    (mentions : ∀ id, x.Replaces id → (x.run.run m).1.isOk = true → replaced id) :
    StaysDrawn seed replaced m (x.run.run m).2 := by
  cases edits with
  | declare name type visibility training => exact drawn_newVariable name type visibility training m
  | findOrDeclare name type visibility training =>
    exact drawn_findOrDeclare name type visibility training m
  | setInitial id t =>
    have mentioned := mentions id (.setInitial id t)
    simp only [attempt, ExceptT.run_mk, StateT.run] at mentioned ⊢
    cases hm : m.setInitial id t with
    | error e => exact refl_of (StaysDrawn seed replaced) m
    | ok m' =>
      rw [hm] at mentioned
      obtain ⟨v, hv, -, rfl⟩ := setInitial_eq_ok hm
      exact fun drawn => drawn.replace hv t (mentioned rfl)
  | fillInitial id value =>
    have mentioned := mentions id (.fillInitial id value)
    simp only [attempt, ExceptT.run_mk, StateT.run] at mentioned ⊢
    cases hm : m.fillInitial id value with
    | error e => exact refl_of (StaysDrawn seed replaced) m
    | ok m' =>
      rw [hm] at mentioned
      obtain ⟨v, hv, rfl⟩ := fillInitial_eq_ok hm
      exact fun drawn => drawn.replace hv (v.initial.refill value) (mentioned rfl)
  | insertGraph _ =>
    refine leads_attempt (fun m m' _ h drawn => ?_) m
    obtain ⟨rfl, -⟩ := insertGraph_eq_ok h
    exact drawn.congr rfl rfl
  | putGraph f _ =>
    refine leads_attempt (fun m m' _ h drawn => ?_) m
    cases h
    exact drawn.congr rfl rfl
  | node f name kind inputs type => exact drawn_node f name kind inputs type m
  | layer creates =>
    exact creates.leads ⟨drawn_newVariable, fun name kind inputs type _ =>
      drawn_node _ name kind inputs type⟩ m
  | differentiate f rule =>
    exact leads_differentiation (fun name type => drawn_findOrDeclare name type _ _) f rule m

end Build

/-! ## Whole histories -/

namespace Module
variable {seed : UInt64} {replaced replaced' : VarId → Prop} {m m' : Module α}

theorem Edited.drawn (edited : m.Edited seed replaced) : m.Drawn seed replaced := by
  induction edited with
  | start => exact .ofSeed
  | edit _ edits mentions drawn => exact edits.drawn mentions drawn

/-- After equally many words of one stream equal declarations draw equal initial values. -/
theorem Drawn.initial_eq {id id' : VarId} {v v' : Variable α} (drawn : m.Drawn seed replaced)
    (drawn' : m'.Drawn seed replaced') (hv : m.var? id = some v) (hv' : m'.var? id' = some v')
    (kept : ¬replaced id) (kept' : ¬replaced' id') (type : v.type = v'.type)
    (training : v.training = v'.training) (spent : m.spent id.index = m'.spent id'.index) :
    v.initial = v'.initial := by
  rw [drawn.initial id v hv kept, drawn'.initial id' v' hv' kept', type, training, spent]

end Module

/-! ## Two modules with one seed -/

/-- A change that adds something to some module replaces nothing. -/
theorem Module.Edited.add {seed : UInt64} {replaced : VarId → Prop} {m : Module α} {x : Build α β}
    (edited : m.Edited seed replaced) (edits : x.Edits) (m' : Module α)
    (adds : (x.run.run m').2.vars.size ≠ m'.vars.size ∨
      (x.run.run m').2.graphs.size ≠ m'.graphs.size) :
    (x.run.run m).2.Edited seed replaced := by
  refine .edit edited edits fun id replaces _ => ?_
  obtain ⟨vars, graphs⟩ := replaces.sizes_eq m'
  exact absurd adds (not_or_intro (not_not_intro vars) (not_not_intro graphs))

/-- A network with one input. -/
def inputModule : Module Float32 :=
  let net : Module Float32 := (((Build.attempt fun (m : Module Float32) =>
    m.insertGraph (.empty "net")).run.run (.ofSeed 7)).2)
  ((Build.newVariable "x" (.float [1, 3]) .exposed .untrained).run.run net).2

/-- It has two layers more, and in between a variable was refused and one was found. -/
def layersModule : Module Float32 :=
  let after {β : Type} (x : Build Float32 β) (m : Module Float32) : Module Float32 :=
    (x.run.run m).2
  after (Build.dense ⟨0⟩ "first" (.var ⟨0⟩) 2) inputModule
    |> after (Build.newVariable "x" (.float [5]) .hidden (.xavier 5))
    |> after (Build.attempt fun (m : Module Float32) =>
      m.findOrDeclare "first.weights" (.float [3, 2]) .hidden (.xavier 3))
    |> after (Build.dense ⟨0⟩ "second" (.var ⟨0⟩) 4)

/-- Two random variables, the first with as many elements as the weights of the first layer. -/
def pairModule : Module Float32 :=
  let one : Module Float32 :=
    ((Build.newVariable "a" (.float [6]) .hidden (.xavier 1)).run.run (.ofSeed 7)).2
  ((Build.newVariable "b" (.float [3, 4]) .exposed (.xavier 3)).run.run one).2

theorem layersModule_edited : layersModule.Edited 7 fun _ => False := by
  have empty : (Module.ofSeed 7 : Module Float32).Edited 7 fun _ => False := .start
  have net := empty.add (.insertGraph (.empty "net")) (.ofSeed 7) (.inr (by decide +kernel))
  have x := net.add (.declare "x" (.float [1, 3]) .exposed .untrained) (.ofSeed 7)
    (.inl (by decide +kernel))
  have first := x.add (.layer (.dense (f := ⟨0⟩) "first" (.var ⟨0⟩) 2)) inputModule
    (.inl (by decide +kernel))
  have refused := first.add (.declare "x" (.float [5]) .hidden (.xavier 5)) (.ofSeed 7)
    (.inl (by decide +kernel))
  have found := refused.add (.findOrDeclare "first.weights" (.float [3, 2]) .hidden (.xavier 3))
    (.ofSeed 7) (.inl (by decide +kernel))
  exact found.add (.layer (.dense (f := ⟨0⟩) "second" (.var ⟨0⟩) 4)) inputModule
    (.inl (by decide +kernel))

theorem pairModule_edited : pairModule.Edited 7 fun _ => False := by
  have empty : (Module.ofSeed 7 : Module Float32).Edited 7 fun _ => False := .start
  have a := empty.add (.declare "a" (.float [6]) .hidden (.xavier 1)) (.ofSeed 7)
    (.inl (by decide +kernel))
  exact a.add (.declare "b" (.float [3, 4]) .exposed (.xavier 3)) (.ofSeed 7)
    (.inl (by decide +kernel))

theorem TensorType.eq_float {t : TensorType α} {dims : List Nat}
    (h : (t.element, t.dims, t.scale, t.offset) = (.float, dims, 1, 0)) : t = .float dims := by
  obtain ⟨element, dims', scale, offset⟩ := t
  cases h
  rfl

/-- A random variable that is filled with fives. -/
def filledModule : Module Float32 :=
  let one : Module Float32 :=
    ((Build.newVariable "w" (.float [1]) .exposed (.xavier 1)).run.run (.ofSeed 0)).2
  (((Build.attempt fun (m : Module Float32) =>
    (m.fillInitial ⟨0⟩ 5).map fun (m' : Module Float32) => (m', ())).run.run one).2)

end NeuralGraph
