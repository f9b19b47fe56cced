/-!
# Names of storage

Locations are numbered within their arena; a value names a location in one of the two arenas that an
instruction can reach.  Tags say whether instructions may write a location and whether callers may
touch it.
-/

namespace NeuralGraph
set_option autoImplicit false

/-- Whether instructions may write a location once it holds its value. -/
inductive Mutability where
  | constant
  | mutable
  deriving DecidableEq, Repr

/-- Whether callers may bind and read a location. -/
inductive Visibility where
  | exposed
  | hidden
  deriving DecidableEq, Repr

/-- The number of a location in its arena. -/
structure LocationId where
  index : Nat
  deriving DecidableEq, Repr

/-- A location that an instruction can name. -/
inductive Value where
  /-- In the storage that outlives programs. -/
  | weight (id : LocationId)
  /-- In the storage of one program. -/
  | activation (id : LocationId)
  deriving DecidableEq, Repr

namespace Value

def isActivation : Value → Bool
  | weight _ => false
  | activation _ => true

/-- Weights come before activations, then the number decides. -/
def precedes : Value → Value → Bool
  | weight a, weight b => a.index < b.index
  | weight _, activation _ => true
  | activation _, weight _ => false
  | activation a, activation b => a.index < b.index

end Value

/-! ## Text -/

def Mutability.text : Mutability → String
  | .constant => "const"
  | .mutable => "mut"

def Visibility.text : Visibility → String
  | .exposed => "public"
  | .hidden => "private"

def Value.text : Value → String
  | .weight id => s!"%w{id.index}"
  | .activation id => s!"%a{id.index}"

/-- The value spelled out, for messages. -/
def Value.longText : Value → String
  | .weight id => s!"Weight(LocationId({id.index}))"
  | .activation id => s!"Activation(LocationId({id.index}))"

end NeuralGraph
