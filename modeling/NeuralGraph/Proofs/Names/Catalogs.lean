import Mathlib.Data.List.Nodup
import NeuralGraph.Proofs.Engine.Operations

/-!
# Catalogs

The variables of a module, the nodes of a graph and the locations of an arena are catalogs: entries under
different names, numbered in the order in which they were made, that are found by searching for a name.
An index of names can be kept beside them, in which each new entry is put under the name and the number
that its call returns.  Whatever is called, the index knows exactly what the search finds.
-/

namespace NeuralGraph
set_option autoImplicit false

/-- The numbers of names.  The latest counts if a name was put in twice. -/
abbrev NameIndex := List (String × Nat)

/-- What a call may do to names: nothing, or it adds a new one at the end and returns its number. -/
inductive Catalog.Makes (names : List String) : Option (String × Nat) → List String → Prop
  | nothing : Makes names none names
  | entry {name : String} : name ∉ names →
    Makes names (some (name, names.length)) (names ++ [name])

/-- States with named entries, and calls that may be refused or make an entry, whose name and number they
return. -/
structure Catalog (σ κ ε : Type) where
  /-- What the entries are called, in the order of their numbers. -/
  names : σ → List String
  find? : σ → String → Option Nat
  call : σ → κ → Except ε (σ × Option (String × Nat))
  find?_eq : ∀ s name, find? s name = (names s).idxOf? name
  makes : ∀ {s c r}, call s c = .ok r → Catalog.Makes (names s) r.2 (names r.1)

namespace Catalog
variable {σ κ ε : Type} (t : Catalog σ κ ε)

/-- The name of entry number `i`. -/
def name? (s : σ) (i : Nat) : Option String := (t.names s)[i]?

/-- The state and its index after a call.  A call that is refused leaves both. -/
def record (k : σ × NameIndex) (c : κ) : σ × NameIndex :=
  match t.call k.1 c with
  | .ok (s, entry) => (s, entry.toList ++ k.2)
  | .error _ => k

def recordAll (k : σ × NameIndex) (calls : List κ) : σ × NameIndex := calls.foldl t.record k

/-- The index knows of each name where it stands. -/
structure Indexed (k : σ × NameIndex) : Prop where
  distinct : (t.names k.1).Nodup
  lookup : ∀ name, k.2.lookup name = (t.names k.1).idxOf? name

variable {t} {k : σ × NameIndex}

/-! ## One call -/

theorem record_cases (t : Catalog σ κ ε) (k : σ × NameIndex) (c : κ) :
    (∃ e, t.call k.1 c = .error e ∧ t.record k c = k) ∨
      ∃ r, t.call k.1 c = .ok r ∧ t.record k c = (r.1, r.2.toList ++ k.2) := by
  rw [record]
  cases t.call k.1 c with
  | error e => exact .inl ⟨e, rfl, rfl⟩
  | ok r => exact .inr ⟨r, rfl, rfl⟩

theorem idxOf?_concat {names : List String} {name : String} (free : name ∉ names) (other : String) :
    (names ++ [name]).idxOf? other =
      if other = name then some names.length else names.idxOf? other := by
  rw [List.idxOf?, List.findIdx?_append, List.findIdx?_singleton, ← List.idxOf?]
  by_cases e : other = name
  · subst e
    simp [List.idxOf?_eq_none_iff.mpr free]
  · simp [e, Ne.symm e]

theorem Makes.nodup {names names' : List String} {entry : Option (String × Nat)}
    (makes : Makes names entry names') (distinct : names.Nodup) : names'.Nodup := by
  cases makes with
  | nothing => exact distinct
  | entry free => exact List.concat_eq_append ▸ distinct.concat free

/-- An index of the names before, with the entry put in, is one of the names after. -/
theorem Makes.lookup {names names' : List String} {entry : Option (String × Nat)} {index : NameIndex}
    (makes : Makes names entry names') (known : ∀ name, index.lookup name = names.idxOf? name)
    (name : String) : (entry.toList ++ index).lookup name = names'.idxOf? name := by
  cases makes with
  | nothing => exact known name
  | @entry new free =>
    rw [idxOf?_concat free, ← known, Option.toList_some, List.singleton_append, List.lookup_cons]
    by_cases e : name = new
    · simp [e]
    · simp [e, beq_false_of_ne e]

/-- Entries are only made at the end. -/
theorem Makes.isPrefix {names names' : List String} {entry : Option (String × Nat)}
    (makes : Makes names entry names') : names <+: names' := by
  cases makes with
  | nothing => exact List.prefix_rfl
  | entry _ => exact List.prefix_append _ _

theorem Indexed.record (indexed : t.Indexed k) (c : κ) : t.Indexed (t.record k c) := by
  obtain ⟨e, -, same⟩ | ⟨r, called, after⟩ := t.record_cases k c
  · rwa [same]
  · rw [after]
    exact ⟨(t.makes called).nodup indexed.distinct, (t.makes called).lookup indexed.lookup⟩

/-- What calls keep when they succeed is also kept where they are refused. -/
theorem record_induction {P : σ → Prop} (step : ∀ s c r, P s → t.call s c = .ok r → P r.1)
    (hk : P k.1) (c : κ) : P (t.record k c).1 := by
  obtain ⟨e, -, same⟩ | ⟨r, called, after⟩ := t.record_cases k c
  · rwa [same]
  · rw [after]
    exact step _ _ _ hk called

/-! ## Any calls -/

theorem recordAll_append (t : Catalog σ κ ε) (k : σ × NameIndex) (calls calls' : List κ) :
    t.recordAll k (calls ++ calls') = t.recordAll (t.recordAll k calls) calls' := List.foldl_append

theorem recordAll_concat {s : σ} {calls : List κ} {c : κ} {r : σ × Option (String × Nat)}
    (h : (t.recordAll k calls).1 = s) (called : t.call s c = .ok r) :
    (t.recordAll k (calls ++ [c])).1 = r.1 := by
  rw [recordAll_append, Catalog.recordAll, List.foldl_cons, List.foldl_nil, Catalog.record, h, called]

theorem Indexed.recordAll (indexed : t.Indexed k) (calls : List κ) :
    t.Indexed (t.recordAll k calls) := by
  induction calls generalizing k with
  | nil => exact indexed
  | cons c calls ih => exact ih (indexed.record c)

theorem recordAll_induction {P : σ → Prop} (step : ∀ s c r, P s → t.call s c = .ok r → P r.1)
    (hk : P k.1) (calls : List κ) : P (t.recordAll k calls).1 := by
  induction calls generalizing k with
  | nil => exact hk
  | cons c calls ih => exact ih (record_induction step hk c)

/-- A state and its index after some calls are exact, and remain so. -/
structure Exact (t : Catalog σ κ ε) (k : σ × NameIndex) : Prop where
  distinct : ∀ i j name, t.name? k.1 i = some name → t.name? k.1 j = some name → i = j
  /-- The index knows the names of all entries, and no others. -/
  indexed : ∀ name i, k.2.lookup name = some i ↔ t.name? k.1 i = some name
  searched : ∀ name, t.find? k.1 name = k.2.lookup name
  /-- A new entry gets the number that comes after those of all entries, and stands there. -/
  numbered : ∀ c s name i, t.call k.1 c = .ok (s, some (name, i)) →
    (∀ j, t.name? k.1 j ≠ none ↔ j < i) ∧ t.name? s i = some name
  /-- Numbers are never given to other names. -/
  lasts : ∀ calls i name, t.name? k.1 i = some name → t.name? (t.recordAll k calls).1 i = some name
  refused : ∀ c e, t.call k.1 c = .error e → t.record k c = k

theorem Indexed.exact (indexed : t.Indexed k) : t.Exact k where
  distinct i j name hi hj :=
    (List.getElem?_inj (List.getElem?_eq_some_iff.mp hi).1 indexed.distinct).mp (hi.trans hj.symm)
  indexed name i := by
    rw [indexed.lookup, name?, List.idxOf?_eq_some_iff, List.getElem?_eq_some_iff]
    constructor
    · rintro ⟨lt, same, -⟩
      exact ⟨lt, same⟩
    · rintro ⟨lt, same⟩
      refine ⟨lt, same, fun j before same' => ?_⟩
      have e : j = i := (List.Nodup.getElem_inj_iff indexed.distinct).mp (same'.trans same.symm)
      exact absurd before (e ▸ Nat.lt_irrefl j)
  searched name := by rw [t.find?_eq, indexed.lookup]
  numbered c s name i called := by
    have makes := t.makes called
    simp only [name?]
    generalize t.names s = names at makes ⊢
    cases makes
    exact ⟨fun j => by rw [Ne, List.getElem?_eq_none_iff, Nat.not_le], List.getElem?_concat_length⟩
  lasts calls i name h := by
    -- Names are only added at the end, so those before remain a prefix.
    obtain ⟨more, names⟩ := t.recordAll_induction (P := fun (s : σ) => t.names k.1 <+: t.names s)
      (fun _ _ _ before called => before.trans (t.makes called).isPrefix) List.prefix_rfl calls
    rw [name?, ← names, List.getElem?_append_left (List.getElem?_eq_some_iff.mp h).1]
    exact h
  refused c e called := by rw [Catalog.record, called]

/-- A catalog without entries, and an empty index. -/
theorem exact_recordAll (t : Catalog σ κ ε) {s : σ} (empty : t.names s = []) (calls : List κ) :
    t.Exact (t.recordAll (s, []) calls) := by
  refine (Indexed.recordAll ⟨?_, fun name => ?_⟩ calls).exact
  · rw [empty]
    exact List.nodup_nil
  · rw [empty]
    rfl

/-! ## Entries of arrays -/

section
variable {β : Type} (xs : Array β) (called : β → String)

theorem findIdx?_called (name : String) : (xs.findIdx? fun (x : β) => called x == name) =
    (xs.toList.map called).idxOf? name := by
  obtain ⟨xs⟩ := xs
  rw [List.idxOf?, List.findIdx?_map, List.findIdx?_toArray]
  rfl

theorem makes_push (x : β) (free : called x ∉ xs.toList.map called) :
    Makes (xs.toList.map called) (some (called x, xs.size)) ((xs.push x).toList.map called) := by
  have size : xs.size = (xs.toList.map called).length := by
    rw [List.length_map, Array.length_toList]
  rw [Array.toList_push, List.map_append, List.map_singleton, size]
  exact .entry free

/-- An entry is replaced by one of the same name. -/
theorem makes_set {xs : Array β} {called : β → String} {i : Nat} {x y : β} (hx : xs[i]? = some x)
    (same : called y = called x) :
    Makes (xs.toList.map called) none ((xs.setIfInBounds i y).toList.map called) := by
  have names : (xs.setIfInBounds i y).toList.map called = xs.toList.map called := by
    refine List.ext_getElem? fun j => ?_
    rw [List.getElem?_map, List.getElem?_map, Array.getElem?_toList, Array.getElem?_toList,
      Array.getElem?_setIfInBounds]
    by_cases own : i = j
    · subst own
      rw [if_pos rfl, if_pos (Array.getElem?_eq_some_iff.mp hx).1, hx, Option.map_some,
        Option.map_some, same]
    · rw [if_neg own]
  exact names ▸ .nothing

end

end Catalog

variable {α : Type}

/-! ## Variables -/

namespace Module

/-- Single changes of a module. -/
inductive Call (α : Type) where
  | declare (name : String) (type : TensorType α) (visibility : Visibility) (training : Training α)
  | findOrDeclare (name : String) (type : TensorType α) (visibility : Visibility)
    (training : Training α)
  | setInitial (id : VarId) (t : Tensor α)
  | fillInitial (id : VarId) (value : α)
  | insertGraph (g : Graph α)
  | putGraph (f : GraphId) (g : Graph α)

/-- The module after the call, and the variable that is new. -/
def Call.apply [Scalar α] (m : Module α) :
    Call α → Except (Error α) (Module α × Option (String × Nat))
  | declare name type visibility training =>
    (m.declare name type visibility training).map fun (r : Module α × VarId) =>
      (r.1, some (name, r.2.index))
  | findOrDeclare name type visibility training =>
    (m.findOrDeclare name type visibility training).map fun (r : Module α × VarId) =>
      (r.1, if (m.find? name).isSome then none else some (name, r.2.index))
  | setInitial id t => (m.setInitial id t).map fun (m' : Module α) => (m', none)
  | fillInitial id value => (m.fillInitial id value).map fun (m' : Module α) => (m', none)
  | insertGraph g => (m.insertGraph g).map fun (r : Module α × GraphId) => (r.1, none)
  | putGraph f g => .ok (m.putGraph f g, none)

/-- What the variables are called, in the order of their numbers. -/
def varNames (m : Module α) : List String := m.vars.toList.map Variable.name

variable {m m' : Module α}

theorem find?_eq_idxOf? (m : Module α) (name : String) :
    (m.find? name).map VarId.index = m.varNames.idxOf? name := by
  rw [find?, Option.map_map, varNames, ← Catalog.findIdx?_called]
  exact Option.map_id'

variable [Scalar α] {name : String} {type : TensorType α} {visibility : Visibility}
  {training : Training α} {id : VarId}

theorem makes_declare (h : m.declare name type visibility training = .ok (m', id)) :
    Catalog.Makes m.varNames (some (name, id.index)) m'.varNames := by
  obtain ⟨free, rfl, rfl⟩ := declare_eq_ok h
  have absent : name ∉ m.varNames := by
    rw [← List.idxOf?_eq_none_iff, ← find?_eq_idxOf?, free]
    rfl
  exact Catalog.makes_push m.vars Variable.name ⟨name, type, visibility, training, _⟩ absent

theorem Call.makes {c : Call α} {r : Module α × Option (String × Nat)} (h : c.apply m = .ok r) :
    Catalog.Makes m.varNames r.2 r.1.varNames := by
  cases c with
  | declare name type visibility training =>
    obtain ⟨r, done, rfl⟩ := exists_of_map_eq_ok h
    exact makes_declare done
  | findOrDeclare name type visibility training =>
    obtain ⟨r, done, rfl⟩ := exists_of_map_eq_ok h
    cases found : m.find? name with
    | none =>
      rw [Module.findOrDeclare, found] at done
      exact makes_declare done
    | some id =>
      rcases findOrDeclare_eq_ok done with ⟨same, -⟩ | declared
      · exact same ▸ .nothing
      · rw [(declare_eq_ok declared).1] at found
        cases found
  | setInitial id t =>
    obtain ⟨m', done, rfl⟩ := exists_of_map_eq_ok h
    obtain ⟨v, hv, -, rfl⟩ := setInitial_eq_ok done
    exact Catalog.makes_set hv rfl
  | fillInitial id value =>
    obtain ⟨m', done, rfl⟩ := exists_of_map_eq_ok h
    obtain ⟨v, hv, rfl⟩ := fillInitial_eq_ok done
    exact Catalog.makes_set hv rfl
  | insertGraph g =>
    obtain ⟨r, done, rfl⟩ := exists_of_map_eq_ok h
    obtain ⟨same, -⟩ := insertGraph_eq_ok done
    exact same ▸ .nothing
  | putGraph f g =>
    cases h
    exact .nothing

/-- The variables of a module. -/
def catalog : Catalog (Module α) (Call α) (Error α) where
  names := varNames
  find? m name := (m.find? name).map VarId.index
  call := Call.apply
  find?_eq := find?_eq_idxOf?
  makes := Call.makes

end Module

/-! ## Nodes -/

namespace Graph

/-- Changes of a graph. -/
inductive Call (α : Type) where
  | push (name : String) (kind : NodeKind α) (inputs : List Ref) (type : Option (TensorType α))
  | rename (name : String)
  | mark (inPlace : Bool)

/-- The graph after the call, and the node that is new. -/
def Call.apply (g : Graph α) : Call α → Except (Error α) (Graph α × Option (String × Nat))
  | push name kind inputs type =>
    (g.push name kind inputs type).map fun (r : Graph α × NodeId) =>
      (r.1, some (g.freshName name, r.2.index))
  | rename name => .ok ({ g with name := name }, none)
  | mark inPlace => .ok ({ g with inPlace := inPlace }, none)

/-- What the nodes are called, in the order of their numbers. -/
def nodeNames (g : Graph α) : List String := g.nodes.toList.map Node.name

variable {g : Graph α} {c : Call α}

theorem find?_eq_idxOf? (g : Graph α) (name : String) :
    (g.find? name).map NodeId.index = g.nodeNames.idxOf? name := by
  rw [find?, Option.map_map, nodeNames, ← Catalog.findIdx?_called]
  exact Option.map_id'

theorem mem_nodeNames {name : String} : name ∈ g.nodeNames ↔ g.hasName name = true := by
  rw [hasName_eq_true_iff, nodeNames, List.mem_map]
  simp only [Array.mem_toList_iff]

theorem Call.makes {r : Graph α × Option (String × Nat)} (h : c.apply g = .ok r) :
    Catalog.Makes g.nodeNames r.2 r.1.nodeNames := by
  cases c with
  | push base kind inputs type =>
    obtain ⟨⟨g', id⟩, done, rfl⟩ := exists_of_map_eq_ok h
    obtain ⟨rfl, rfl⟩ := push_eq done
    have absent : g.freshName base ∉ g.nodeNames := by
      rw [mem_nodeNames, g.freshName_fresh base]
      exact Bool.false_ne_true
    exact Catalog.makes_push g.nodes Node.name ⟨g.freshName base, kind, inputs, type⟩ absent
  | rename name =>
    cases h
    exact .nothing
  | mark inPlace =>
    cases h
    exact .nothing

/-- The nodes of a graph. -/
def catalog : Catalog (Graph α) (Call α) (Error α) where
  names := nodeNames
  find? g name := (g.find? name).map NodeId.index
  call := Call.apply
  find?_eq := find?_eq_idxOf?
  makes := Call.makes

end Graph

/-! ## Locations -/

namespace Arena

/-- Changes of an arena: new locations, and other tags or contents for one that exists. -/
inductive Call (α : Type) where
  | create (name : String) (type : TensorType α) (mutability : Mutability) (visibility : Visibility)
  | createHolding (name : String) (type : TensorType α) (mutability : Mutability)
    (visibility : Visibility) (payload : Tensor α)
  | change (id : LocationId) (f : Location α → Except (Error α) (Location α))
    (named : ∀ l k, f l = .ok k → k.name = l.name)

/-- The arena after the call, and the location that is new. -/
def Call.apply [Scalar α] (a : Arena α) :
    Call α → Except (Error α) (Arena α × Option (String × Nat))
  | create name type mutability visibility =>
    (a.create name type mutability visibility).map fun (r : Arena α × LocationId) =>
      (r.1, some (name, r.2.index))
  | createHolding name type mutability visibility payload =>
    (a.createHolding name type mutability visibility payload).map fun (r : Arena α × LocationId) =>
      (r.1, some (name, r.2.index))
  | change id f _ => (a.update id f).map fun (b : Arena α) => (b, none)

/-- What the locations are called, in the order of their numbers. -/
def locationNames (a : Arena α) : List String := a.locations.toList.map Location.name

variable {a b : Arena α}

theorem find?_eq_idxOf? (a : Arena α) (name : String) :
    (a.find? name).map LocationId.index = a.locationNames.idxOf? name := by
  rw [find?, Option.map_map, locationNames, ← Catalog.findIdx?_called]
  exact Option.map_id'

theorem makes_insert {l : Location α} {id : LocationId} (h : a.insert l = .ok (b, id)) :
    Catalog.Makes a.locationNames (some (l.name, id.index)) b.locationNames := by
  obtain ⟨free, rfl, rfl⟩ := insert_eq_ok_iff.mp h
  have absent : l.name ∉ a.locationNames := by
    rw [← List.idxOf?_eq_none_iff, ← find?_eq_idxOf?, free]
    rfl
  exact Catalog.makes_push a.locations Location.name l absent

variable [Scalar α] {c : Call α}

theorem Call.makes {r : Arena α × Option (String × Nat)} (h : c.apply a = .ok r) :
    Catalog.Makes a.locationNames r.2 r.1.locationNames := by
  cases c with
  | create name type mutability visibility =>
    obtain ⟨r, done, rfl⟩ := exists_of_map_eq_ok h
    exact makes_insert done
  | createHolding name type mutability visibility payload =>
    obtain ⟨r, done, rfl⟩ := exists_of_map_eq_ok h
    rw [Arena.createHolding] at done
    split at done
    · exact makes_insert done
    · cases done
  | change id f named =>
    obtain ⟨b, done, rfl⟩ := exists_of_map_eq_ok h
    obtain ⟨l, k, hl, hk, rfl⟩ := exists_of_update_eq_ok done
    exact Catalog.makes_set hl (named l k hk)

/-- The locations of an arena. -/
def catalog : Catalog (Arena α) (Call α) (Error α) where
  names := locationNames
  find? a name := (a.find? name).map LocationId.index
  call := Call.apply
  find?_eq := find?_eq_idxOf?
  makes := Call.makes

end Arena

/-! ## Changes made of calls -/

namespace Module
variable [Scalar α] {m m' : Module α}

/-- Calls lead from one module to the other. -/
def ByCalls (m m' : Module α) : Prop :=
  ∃ calls : List (Call α), ∀ index, (catalog.recordAll (m, index) calls).1 = m'

instance byCalls_isPreorder : IsPreorder (Module α) ByCalls where
  refl _ := ⟨[], fun _ => rfl⟩
  trans m m' m'' := by
    rintro ⟨calls, first⟩ ⟨calls', second⟩
    refine ⟨calls ++ calls', fun index => ?_⟩
    rw [Catalog.recordAll_append]
    have middle : catalog.recordAll (m, index) calls =
        (m', (catalog.recordAll (m, index) calls).2) := Prod.ext (first index) rfl
    rw [middle]
    exact second _

theorem ByCalls.single {c : Call α} (h : (c.apply m).map Prod.fst = .ok m') : m.ByCalls m' := by
  obtain ⟨⟨_, entry⟩, applied, rfl⟩ := exists_of_map_eq_ok h
  exact ⟨[] ++ [c], fun _ => Catalog.recordAll_concat rfl applied⟩

end Module

namespace Build
open NeuralGraph.Module
variable [Scalar α] {β : Type}

/-- A change that succeeds only as a call does. -/
theorem byCalls_map {f : Module α → Except (Error α) (Module α)} {c : Call α}
    (h : ∀ m, c.apply m = (f m).map fun (m' : Module α) => (m', none)) :
    Leads ByCalls (attempt fun (m : Module α) => (f m).map fun (m' : Module α) => (m', ())) := by
  refine leads_attempt fun m m' _ done => ?_
  obtain ⟨m₁, changed, entry⟩ := exists_of_map_eq_ok done
  cases entry
  refine .single (c := c) ?_
  rw [h, changed]
  rfl

theorem byCalls_newVariable (name : String) (type : TensorType α) (visibility : Visibility)
    (training : Training α) : Leads ByCalls (newVariable name type visibility training) := by
  refine leads_attempt fun m m' id done => .single (c := .declare name type visibility training) ?_
  rw [Call.apply, done]
  rfl

theorem byCalls_findOrDeclare (name : String) (type : TensorType α) (visibility : Visibility)
    (training : Training α) : Leads ByCalls
      (attempt fun (m : Module α) => m.findOrDeclare name type visibility training) := by
  refine leads_attempt fun m m' id done =>
    .single (c := .findOrDeclare name type visibility training) ?_
  rw [Call.apply, done]
  rfl

/-- For the variables a new node is a change of its graph. -/
theorem byCalls_node (f : GraphId) (name : String) (kind : NodeKind α) (inputs : List Ref)
    (type : Option (TensorType α)) : Leads ByCalls (node f name kind inputs type) :=
  leads_node fun _ _ g' _ _ _ => .single (c := .putGraph f g') rfl

/-- Layers, differentiation and all other changes consist of calls, also where they fail halfway. -/
theorem Edits.byCalls {x : Build α β} (edits : x.Edits) : Leads ByCalls x := by
  cases edits with
  | declare name type visibility training => exact byCalls_newVariable name type visibility training
  | findOrDeclare name type visibility training =>
    exact byCalls_findOrDeclare name type visibility training
  | setInitial id t => exact byCalls_map (c := .setInitial id t) fun _ => rfl
  | fillInitial id value => exact byCalls_map (c := .fillInitial id value) fun _ => rfl
  | @insertGraph g _ =>
    refine leads_attempt fun m m' f done => .single (c := .insertGraph g) ?_
    rw [Call.apply, done]
    rfl
  | @putGraph f g _ =>
    refine leads_attempt fun m m' _ done => .single (c := .putGraph f g) ?_
    cases done
    rfl
  | node f name kind inputs type => exact byCalls_node f name kind inputs type
  | layer creates =>
    exact creates.leads ⟨byCalls_newVariable, fun name kind inputs type _ =>
      byCalls_node _ name kind inputs type⟩
  | differentiate f rule =>
    exact leads_differentiation (fun name type => byCalls_findOrDeclare name type _ _) f rule

end Build
end NeuralGraph
