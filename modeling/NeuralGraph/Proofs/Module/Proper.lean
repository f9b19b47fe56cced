import NeuralGraph.Proofs.Module.Typing

/-!
# Proper modules

A sound module with a graph that is a proper graph of layers.  Declaring a variable, replacing an
initial value and changing another graph leave it proper.
-/

namespace NeuralGraph
set_option autoImplicit false
variable {α : Type}

/-- Kinds of nodes that layers make. -/
def NodeKind.isLayer : NodeKind α → Bool
  | gradientSum | update _ | custom _ => false
  | _ => true

namespace Module

/-- The names of variables are distinct, and initial values have the types of their variables. -/
structure Sound [Scalar α] (m : Module α) : Prop where
  distinct : ∀ (i j : VarId) (v w : Variable α),
    m.var? i = some v → m.var? j = some w → v.name = w.name → i = j
  initial : ∀ (id : VarId) (v : Variable α),
    m.var? id = some v → v.type.Comparable → (v.initial.type == v.type) = true

/-- The module is sound, and its graph `f`, if there is one, is a proper graph of layers. -/
structure Proper [Scalar α] (m : Module α) (f : GraphId) : Prop where
  sound : m.Sound
  graph : ∀ g, m.graph? f = some g → g.Proper m
  layers : ∀ g, m.graph? f = some g → ∀ n ∈ g.nodes, n.kind.isLayer = true

/-- The graph `f` sees the value under this type. -/
def Sees (m : Module α) (f : GraphId) (r : Ref) (t : TensorType α) : Prop :=
  ∃ g, m.graph? f = some g ∧ m.typeOf g r = .ok t

theorem graph_eq_ok_iff {m : Module α} {f : GraphId} {g : Graph α} :
    m.graph f = .ok g ↔ m.graph? f = some g := by
  rw [graph]
  cases m.graph? f <;> simp

/-! ## Adding and changing variables -/

theorem find?_eq_none_iff {m : Module α} {name : String} :
    m.find? name = none ↔ ∀ id v, m.var? id = some v → v.name ≠ name := by
  simp only [find?, Option.map_eq_none_iff, Array.findIdx?_eq_none_iff, beq_eq_false_iff_ne]
  constructor
  · intro h id v hv
    exact h v (Array.mem_of_getElem? hv)
  · intro h v hv
    obtain ⟨i, hi⟩ := Array.getElem?_of_mem hv
    exact h ⟨i⟩ v hi

theorem find?_eq_some {m : Module α} {name : String} {id : VarId} (h : m.find? name = some id) :
    ∃ v, m.var? id = some v ∧ v.name = name := by
  obtain ⟨i, hi, rfl⟩ := Option.map_eq_some_iff.mp h
  obtain ⟨hlt, hname, -⟩ := Array.findIdx?_eq_some_iff_getElem.mp hi
  exact ⟨_, Array.getElem?_eq_getElem hlt, by simpa using hname⟩

theorem Training.draw_type [Scalar α] (type : TensorType α) (g : Random.Generator)
    (training : Training α) : (training.draw type g).1.type = type := by
  cases training <;> rfl

variable [Scalar α] {m m' : Module α} {name : String} {type : TensorType α}
  {visibility : Visibility} {training : Training α} {id : VarId}

/-- Soundness as it can be checked. -/
theorem Sound.of_list (names : (m.vars.toList.map Variable.name).Nodup)
    (initial : ∀ v ∈ m.vars.toList, (v.initial.type == v.type) = true) : m.Sound := by
  have listed : ∀ {id : VarId} {v : Variable α}, m.var? id = some v →
      m.vars.toList[id.index]? = some v := by
    intro id v hv
    rw [Array.getElem?_toList]
    exact hv
  constructor
  · intro i j v w hv hw same
    have at_ : ∀ {id : VarId} {v : Variable α}, m.var? id = some v →
        (m.vars.toList.map Variable.name)[id.index]? = some v.name := by
      intro id v hv
      rw [List.getElem?_map, listed hv]
      rfl
    have bound := (List.getElem?_eq_some_iff.mp (at_ hv)).1
    have index := (List.getElem?_inj bound names).mp ((at_ hv).trans (same ▸ (at_ hw).symm))
    exact congrArg VarId.mk index
  · exact fun id v hv _ => initial v (List.mem_of_getElem? (listed hv))

theorem Sound.ofSeed (seed : UInt64) : (Module.ofSeed seed : Module α).Sound := by
  constructor
  · intro i j v w hv
    cases hv
  · intro id v hv
    cases hv

/-- A variable is declared under a free name and stands at the end. -/
theorem declare_eq_ok (h : m.declare name type visibility training = .ok (m', id)) :
    m.find? name = none ∧ id = ⟨m.vars.size⟩ ∧ m' = { m with
      vars := m.vars.push ⟨name, type, visibility, training, (training.draw type m.generator).1⟩
      generator := (training.draw type m.generator).2 } := by
  rw [declare] at h
  cases free : m.find? name with
  | some i => simp [free] at h
  | none =>
    simp only [free] at h
    split at h
    · simp only [Except.ok.injEq, Prod.mk.injEq] at h
      exact ⟨rfl, h.2.symm, h.1.symm⟩
    · cases h

theorem declare_suits (h : m.declare name type visibility training = .ok (m', id)) :
    training.suits type = true := by
  rw [declare, (declare_eq_ok h).1] at h
  by_contra refused
  rw [if_neg refused] at h
  cases h

theorem declare_of_free {m : Module α} (name : String) (type : TensorType α)
    (visibility : Visibility) (training : Training α) (suits : training.suits type = true)
    (free : m.find? name = none) :
    m.declare name type visibility training = .ok ({ m with
      vars := m.vars.push ⟨name, type, visibility, training, (training.draw type m.generator).1⟩
      generator := (training.draw type m.generator).2 }, ⟨m.vars.size⟩) := by
  simp only [declare, free, suits, if_true]

theorem declare_var? (h : m.declare name type visibility training = .ok (m', id)) (i : VarId) :
    m'.var? i = if i = id then some ⟨name, type, visibility, training,
      (training.draw type m.generator).1⟩ else m.var? i := by
  obtain ⟨-, rfl, rfl⟩ := declare_eq_ok h
  obtain ⟨i⟩ := i
  simp only [var?, Array.getElem?_push, VarId.mk.injEq]

theorem declare_covers (h : m.declare name type visibility training = .ok (m', id)) :
    m'.Covers m := by
  intro i v hv
  refine ⟨v, ?_, .refl v⟩
  rw [declare_var? h, if_neg, hv]
  rintro rfl
  obtain ⟨-, rfl, -⟩ := declare_eq_ok h
  exact absurd (Array.getElem?_eq_some_iff.mp hv).1 (Nat.lt_irrefl _)

theorem Sound.declare (sound : m.Sound)
    (h : m.declare name type visibility training = .ok (m', id)) : m'.Sound := by
  have free := find?_eq_none_iff.mp (declare_eq_ok h).1
  constructor
  · intro i j v w hv hw e
    rw [declare_var? h] at hv hw
    split at hv <;> split at hw
    · next hi hj => rw [hi, hj]
    · cases hv
      exact absurd e.symm (free j w hw)
    · cases hw
      exact absurd e (free i v hv)
    · exact sound.distinct i j v w hv hw e
  · intro i v hv comparable
    rw [declare_var? h] at hv
    split at hv
    · cases hv
      rw [Training.draw_type]
      exact comparable
    · exact sound.initial i v hv comparable

/-- The variable that is found or declared has the type that was asked for. -/
theorem findOrDeclare_eq_ok (h : m.findOrDeclare name type visibility training = .ok (m', id)) :
    (m' = m ∧ ∃ v, m.var? id = some v ∧ (v.type == type) = true) ∨
      m.declare name type visibility training = .ok (m', id) := by
  rw [findOrDeclare] at h
  cases found : m.find? name with
  | none => exact .inr (by simpa [found] using h)
  | some i =>
    simp only [found] at h
    split at h
    · next same =>
      cases h
      obtain ⟨v, hv, -⟩ := find?_eq_some found
      exact .inl ⟨rfl, v, hv, by simpa [hv] using same⟩
    · cases h

theorem Sound.findOrDeclare (sound : m.Sound)
    (h : m.findOrDeclare name type visibility training = .ok (m', id)) : m'.Sound := by
  rcases findOrDeclare_eq_ok h with ⟨rfl, -⟩ | declared
  · exact sound
  · exact sound.declare declared

omit [Scalar α] in
theorem putVariable_var? {v w : Variable α} (hv : m.var? id = some v) (i : VarId) :
    (m.putVariable id w).var? i = if i = id then some w else m.var? i := by
  have bound : id.index < m.vars.size := (Array.getElem?_eq_some_iff.mp hv).1
  obtain ⟨i⟩ := i
  obtain ⟨id⟩ := id
  simp only [var?, putVariable, Array.getElem?_setIfInBounds, VarId.mk.injEq]
  by_cases e : i = id
  · subst e
    rw [if_pos rfl, if_pos bound, if_pos rfl]
  · rw [if_neg (Ne.symm e), if_neg e]

omit [Scalar α] in
theorem putVariable_covers {v w : Variable α} (hv : m.var? id = some v) (alike : w.Alike v) :
    (m.putVariable id w).Covers m := by
  intro i u hu
  rw [putVariable_var? hv]
  split
  · next e =>
    subst e
    rw [hv] at hu
    cases hu
    exact ⟨w, rfl, alike⟩
  · exact ⟨u, hu, .refl u⟩

theorem Sound.putVariable (sound : m.Sound) {v w : Variable α} (hv : m.var? id = some v)
    (alike : w.Alike v) (fits : w.type.Comparable → (w.initial.type == w.type) = true) :
    (m.putVariable id w).Sound := by
  have known : ∀ i u, (m.putVariable id w).var? i = some u →
      ∃ u', m.var? i = some u' ∧ u.name = u'.name := by
    intro i u hu
    rw [putVariable_var? hv] at hu
    split at hu
    · next e =>
      cases hu
      exact ⟨v, e ▸ hv, alike.name⟩
    · exact ⟨u, hu, rfl⟩
  constructor
  · intro i j u u' hu hu' e
    obtain ⟨a, ha, hua⟩ := known i u hu
    obtain ⟨b, hb, hub⟩ := known j u' hu'
    exact sound.distinct i j a b ha hb (by rw [← hua, ← hub, e])
  · intro i u hu comparable
    rw [putVariable_var? hv] at hu
    split at hu
    · cases hu
      exact fits comparable
    · exact sound.initial i u hu comparable

/-! ## Keeping a graph proper -/

variable {f : GraphId}

/-- The graph is left alone and no variable changes its type. -/
theorem Proper.frame (proper : m.Proper f) (sound : m'.Sound) (covers : m'.Covers m)
    (same : ∀ g, m'.graph? f = some g → m.graph? f = some g) : m'.Proper f where
  sound := sound
  graph g hg := (proper.graph g (same g hg)).mono covers
  layers g hg := proper.layers g (same g hg)

theorem Proper.declare (proper : m.Proper f)
    (h : m.declare name type visibility training = .ok (m', id)) : m'.Proper f := by
  refine proper.frame (proper.sound.declare h) (declare_covers h) fun g hg => ?_
  obtain ⟨-, -, rfl⟩ := declare_eq_ok h
  exact hg

omit [Scalar α] in
theorem putGraph_graph? {g g' : Graph α} (hg : m.graph? f = some g) :
    (m.putGraph f g').graph? f = some g' := by
  have bound : f.index < m.graphs.size := (Array.getElem?_eq_some_iff.mp hg).1
  simp only [graph?, putGraph, Array.getElem?_setIfInBounds, bound, if_true]

omit [Scalar α] in
theorem putGraph_graph?_ne {other : GraphId} {g : Graph α} (h : other ≠ f) :
    (m.putGraph other g).graph? f = m.graph? f := by
  have apart : other.index ≠ f.index := fun e => h (congrArg GraphId.mk e)
  rw [graph?, putGraph, Array.getElem?_setIfInBounds_ne apart, graph?]

theorem setInitial_eq_ok {t : Tensor α} (h : m.setInitial id t = .ok m') :
    ∃ v, m.var? id = some v ∧ (t.type == v.type) = true ∧
      m' = m.putVariable id { v with initial := t } := by
  cases hv : m.var? id with
  | none => simp [Module.setInitial, var, hv, bind, Except.bind] at h
  | some v =>
    simp only [Module.setInitial, var, hv, bind, Except.bind] at h
    split at h
    · next fits =>
      cases h
      exact ⟨v, rfl, fits, rfl⟩
    · cases h

omit [Scalar α] in
theorem fillInitial_eq_ok {value : α} (h : m.fillInitial id value = .ok m') :
    ∃ v, m.var? id = some v ∧
      m' = m.putVariable id { v with initial := v.initial.refill value } := by
  cases hv : m.var? id with
  | none => simp [Module.fillInitial, var, hv, bind, Except.bind] at h
  | some v =>
    simp only [Module.fillInitial, var, hv, bind, Except.bind, Except.ok.injEq] at h
    exact ⟨v, rfl, h.symm⟩

theorem Sound.setInitial (sound : m.Sound) {t : Tensor α} (h : m.setInitial id t = .ok m') :
    m'.Sound := by
  obtain ⟨v, hv, fits, rfl⟩ := setInitial_eq_ok h
  exact sound.putVariable hv ⟨rfl, rfl, rfl⟩ fun _ => fits

theorem Sound.fillInitial (sound : m.Sound) {value : α} (h : m.fillInitial id value = .ok m') :
    m'.Sound := by
  obtain ⟨v, hv, rfl⟩ := fillInitial_eq_ok h
  exact sound.putVariable hv ⟨rfl, rfl, rfl⟩ (sound.initial id v hv)

theorem Proper.setInitial (proper : m.Proper f) {t : Tensor α} (h : m.setInitial id t = .ok m') :
    m'.Proper f := by
  have sound := proper.sound.setInitial h
  obtain ⟨v, hv, -, rfl⟩ := setInitial_eq_ok h
  exact proper.frame sound (putVariable_covers hv ⟨rfl, rfl, rfl⟩) fun g hg => hg

theorem Proper.fillInitial (proper : m.Proper f) {value : α}
    (h : m.fillInitial id value = .ok m') : m'.Proper f := by
  have sound := proper.sound.fillInitial h
  obtain ⟨v, hv, rfl⟩ := fillInitial_eq_ok h
  exact proper.frame sound (putVariable_covers hv ⟨rfl, rfl, rfl⟩) fun g hg => hg

theorem Proper.putOther (proper : m.Proper f) {other : GraphId} {g : Graph α} (h : other ≠ f) :
    (m.putGraph other g).Proper f :=
  proper.frame ⟨proper.sound.distinct, proper.sound.initial⟩ (.refl m) fun _ hg' =>
    (putGraph_graph?_ne h).symm.trans hg'

/-- The graph is changed into another proper graph of layers. -/
theorem Proper.putGraph (proper : m.Proper f) {g g' : Graph α} (hg : m.graph? f = some g)
    (hg' : g'.Proper m) (layers : ∀ n ∈ g'.nodes, n.kind.isLayer = true) :
    (m.putGraph f g').Proper f := by
  have only : ∀ h, (m.putGraph f g').graph? f = some h → h = g' := by
    intro h hh
    rw [putGraph_graph? hg] at hh
    exact (Option.some.inj hh).symm
  refine ⟨⟨proper.sound.distinct, proper.sound.initial⟩, fun h hh => ?_, fun h hh => ?_⟩
  · rw [only h hh]
    exact hg'.mono (.refl m)
  · rw [only h hh]
    exact layers

end Module
end NeuralGraph
