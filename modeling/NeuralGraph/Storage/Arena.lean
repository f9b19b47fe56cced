import NeuralGraph.Error

/-!
# Storage

A location is a named tensor with tags.  An arena is a sequence of locations with different names;
it only grows, so the number of a location never changes.
-/

namespace NeuralGraph
set_option autoImplicit false

structure Location (α : Type) where
  name : String
  mutability : Mutability
  visibility : Visibility
  payload : Tensor α

namespace Location
variable {α : Type}

def type (l : Location α) : TensorType α := l.payload.type

def isConstant (l : Location α) : Bool := l.mutability == .constant

def isExposed (l : Location α) : Bool := l.visibility == .exposed

def withMutability (l : Location α) (m : Mutability) : Location α := { l with mutability := m }

def withVisibility (l : Location α) (v : Visibility) : Location α := { l with visibility := v }

/-- The location with new contents, which `f` makes from the old ones. -/
def overwrite (l : Location α) (f : Tensor α → Except (TensorFault α) (Tensor α)) :
    Except (Error α) (Location α) :=
  match f l.payload with
  | .ok payload => .ok { l with payload := payload }
  | .error fault => .error (.tensor fault)

end Location

structure Arena (α : Type) where
  locations : Array (Location α)

namespace Arena
variable {α : Type}

def empty : Arena α := ⟨#[]⟩

def size (a : Arena α) : Nat := a.locations.size

def get? (a : Arena α) (id : LocationId) : Option (Location α) := a.locations[id.index]?

/-- The number of the location with this name. -/
def find? (a : Arena α) (name : String) : Option LocationId :=
  (a.locations.findIdx? fun (l : Location α) => l.name == name).map LocationId.mk

def named? (a : Arena α) (name : String) : Option (Location α) := (a.find? name).bind a.get?

def get (a : Arena α) (id : LocationId) : Except (Error α) (Location α) :=
  match a.get? id with
  | some l => .ok l
  | none => .error (.unknownLocation (.id id))

/-- The arena with one more location at its end, unless the name is taken. -/
def insert (a : Arena α) (l : Location α) : Except (Error α) (Arena α × LocationId) :=
  match a.find? l.name with
  | some _ => .error (.duplicateName l.name .storage)
  | none => .ok (⟨a.locations.push l⟩, ⟨a.size⟩)

/-- A new location that holds zeros. -/
def create [Scalar α] (a : Arena α) (name : String) (type : TensorType α)
    (mutability : Mutability) (visibility : Visibility) :
    Except (Error α) (Arena α × LocationId) :=
  a.insert ⟨name, mutability, visibility, .zeros type⟩

/-- A new location that holds `payload`, which must have the declared type. -/
def createHolding [Scalar α] (a : Arena α) (name : String) (type : TensorType α)
    (mutability : Mutability) (visibility : Visibility) (payload : Tensor α) :
    Except (Error α) (Arena α × LocationId) :=
  if payload.type == type then a.insert ⟨name, mutability, visibility, payload⟩
  else .error (.payload name type payload.type)

/-- The arena with another location in the place of one that it has. -/
def put (a : Arena α) (id : LocationId) (l : Location α) : Arena α :=
  ⟨a.locations.setIfInBounds id.index l⟩

/-- The arena with a location changed by `f`. -/
def update (a : Arena α) (id : LocationId)
    (f : Location α → Except (Error α) (Location α)) : Except (Error α) (Arena α) := do
  let l ← a.get id
  let l' ← f l
  .ok (a.put id l')

@[simp] theorem size_put (a : Arena α) (id : LocationId) (l : Location α) :
    (a.put id l).size = a.size := by
  simp [put, size]

theorem get?_put_self (a : Arena α) {id : LocationId} (l : Location α) (h : id.index < a.size) :
    (a.put id l).get? id = some l := by
  have h' : id.index < a.locations.size := h
  simp [put, get?, h']

theorem get?_put_ne (a : Arena α) {id other : LocationId} (l : Location α) (h : id ≠ other) :
    (a.put id l).get? other = a.get? other := by
  have h' : id.index ≠ other.index := by
    intro e
    cases id
    cases other
    exact h (congrArg LocationId.mk e)
  simp [put, get?, h']

theorem lt_size_of_get? {a : Arena α} {id : LocationId} {l : Location α}
    (h : a.get? id = some l) : id.index < a.size := by
  obtain ⟨hlt, _⟩ := Array.getElem?_eq_some_iff.1 h
  exact hlt

end Arena

/-! ## Both arenas -/

/-- What a running program can reach. -/
structure Memory (α : Type) where
  activations : Arena α
  weights : Arena α

namespace Memory
variable {α : Type}

def locate? (m : Memory α) : Value → Option (Location α)
  | .weight id => m.weights.get? id
  | .activation id => m.activations.get? id

def locate (m : Memory α) : Value → Except (Error α) (Location α)
  | .weight id => m.weights.get id
  | .activation id => m.activations.get id

def put (m : Memory α) (value : Value) (l : Location α) : Memory α :=
  match value with
  | .weight id => { m with weights := m.weights.put id l }
  | .activation id => { m with activations := m.activations.put id l }

/-- The memory with a location changed by `f`. -/
def update (m : Memory α) (value : Value)
    (f : Location α → Except (Error α) (Location α)) : Except (Error α) (Memory α) := do
  let l ← m.locate value
  let l' ← f l
  .ok (m.put value l')

theorem locate_eq_ok_iff {m : Memory α} {value : Value} {l : Location α} :
    m.locate value = .ok l ↔ m.locate? value = some l := by
  cases value with
  | weight id =>
    simp only [locate, locate?, Arena.get]
    cases m.weights.get? id <;> simp
  | activation id =>
    simp only [locate, locate?, Arena.get]
    cases m.activations.get? id <;> simp

theorem locate?_put_self (m : Memory α) {value : Value} {l k : Location α}
    (h : m.locate? value = some k) : (m.put value l).locate? value = some l := by
  cases value with
  | weight id => exact Arena.get?_put_self _ _ (Arena.lt_size_of_get? h)
  | activation id => exact Arena.get?_put_self _ _ (Arena.lt_size_of_get? h)

theorem locate?_put_ne (m : Memory α) {value other : Value} (l : Location α) (h : value ≠ other) :
    (m.put value l).locate? other = m.locate? other := by
  cases value with
  | weight id =>
    cases other with
    | weight id' => exact Arena.get?_put_ne _ _ fun (e : id = id') => h (congrArg Value.weight e)
    | activation id' => rfl
  | activation id =>
    cases other with
    | weight id' => rfl
    | activation id' =>
      exact Arena.get?_put_ne _ _ fun (e : id = id') => h (congrArg Value.activation e)

end Memory
end NeuralGraph
