import NeuralGraph.Program.SignatureFault

/-!
# Signatures

Which operand types suit an instruction.  The rules are stated on types alone: they decide before a
program runs whether the shapes of all operands agree.
-/

namespace NeuralGraph
set_option autoImplicit false
variable {α : Type}

namespace Signature

/-- Refuses for `fault` unless the condition holds. -/
def require (condition : Bool) (fault : SignatureFault α) : Except (SignatureFault α) Unit :=
  if condition then .ok () else .error fault

/-- All types have the dimensions of the first. -/
def sameDims (types : List (TensorType α)) : Except (SignatureFault α) Unit :=
  match types with
  | [] => .ok ()
  | first :: rest =>
    require (rest.all fun (t : TensorType α) => t.dims == first.dims) (.shapes types)

end Signature

namespace TensorType

/-- The dimensions of an image of this type under a window, with `channels` channels. -/
def slidDims? (t : TensorType α) (w : Window) (channels : Nat) : Option (List Nat) :=
  match t.dims with
  | [batch, height, width, _] => do
    let outHeight ← w.positions? height
    let outWidth ← w.positions? width
    some [batch, outHeight, outWidth, channels]
  | _ => none

/-- The number of channels of an image, 0 if it is none. -/
def channels (t : TensorType α) : Nat := t.dims.getD 3 0

/-- Whether these are labels for `rows` rows. -/
def labelsFor (t : TensorType α) (rows : Nat) : Bool :=
  t.element == .index && t.dims == [rows, 1]

/-- The dimensions that a shuffle gives a value of this type, if it has all the axes. -/
def shuffledDims? (t : TensorType α) (shuffle : List Nat) : Option (List Nat) :=
  shuffle.mapM fun (axis : Nat) => t.dims[axis]?

end TensorType

namespace Signature

def convolution (input filter output : TensorType α) (w : Window) :
    Except (SignatureFault α) Unit := do
  require (input.rank == 4 && filter.rank == 4) (.convolutionRanks input filter)
  require (filter.dims.tail == [w.kernel, w.kernel, input.channels]) (.filter filter input w)
  require (input.slidDims? w filter.rows == some output.dims)
    (.convolutionOutput output input filter)

def softmax (result scores labels : TensorType α) : Except (SignatureFault α) Unit := do
  sameDims [result, scores]
  require (result.rank == 2 && labels.labelsFor result.rows) (.softmax result labels)

/-- Whether operands of these types, the destination first, suit an operator. -/
def operator (op : Operator α) (types : List (TensorType α)) : Except (SignatureFault α) Unit :=
  match op, types with
  | .unary _, ts | .binary _, ts | .select, ts | .reluGradient, ts
  | .responseNormalizationGradient _, ts => sameDims ts
  | .responseNormalization _, d :: ts => do
    sameDims (d :: ts)
    require (d.rank == 4) (.notImage d)
  | .matMul, [d, a, b] =>
    require (match a.dims, b.dims with
      | [n, k], [k', m] => k == k' && d.dims == [n, m]
      | _, _ => false) (.product d a b)
  | .dense, [d, x, w, b] =>
    require (match w.dims, b.dims with
      | [k, m], [m'] => Nat.ble 2 x.rank && x.rowSize == k && m == m' && d.dims == [x.rows, m]
      | _, _ => false) (.layer d x w b)
  | .addToRows, [d, x, s] =>
    require (d.dims == x.dims && !x.dims.isEmpty && x.dims.tail == s.dims) (.addToRows x s)
  | .sumRows, [d, x] =>
    require (!x.dims.isEmpty && x.dims.tail == d.dims) (.reduce d x)
  | .convolution w, [d, x, f, b] => do
    convolution x f d w
    require (b.dims == [f.rows]) (.bias b f)
  | .convolutionInputGradient w, [d, f, g] => convolution d f g w
  | .convolutionFilterGradient w, [d, x, g] => convolution x d g w
  | .pool _ w, [d, x] => require (x.slidDims? w x.channels == some d.dims) (.pooled d x)
  | .maxPoolGradient w, [d, x, g] => do
    sameDims [d, x]
    require (x.slidDims? w x.channels == some g.dims) (.pooledGradient g x)
  | .averagePoolGradient w, [d, g] =>
    require (d.slidDims? w d.channels == some g.dims) (.pooledGradient g d)
  | .softmax, [d, x, l] => softmax d x l
  | .softmaxGradient, [d, y, l] => softmax d y l
  | .gather, [d, x, i] =>
    require (i.element == .index && !x.dims.isEmpty && d.dims == i.dims ++ x.dims.tail)
      (.gather d x i)
  | .transpose shuffle, [d, x] =>
    require (shuffle.length == x.rank && x.shuffledDims? shuffle == some d.dims)
      (.transpose d x shuffle)
  | .convert c, [d, x] => do
    sameDims [d, x]
    require
      (match c with
        | .quantize => d.isQuantized && x.element == .float
        | .dequantize => d.element == .float && x.isQuantized
        | .rescale => d.isQuantized && x.isQuantized)
      (.convert c d x)
  | op, types => .error (.count (op.arity + 1) types.length)

/-- Whether operands of these types, in the order of the instruction, suit its kind. -/
def instruction [Scalar α] (kind : Opcode α) (types : List (TensorType α)) :
    Except (SignatureFault α) Unit :=
  match kind, types with
  | .splat _, [_] => .ok ()
  | .copy, [d, s] => require (d == s) (.copy d s)
  | .reshape, [d, s] => require (d.size == s.size) (.reshape d s)
  | .update _, [w, g, v] => do
    sameDims [w, g, v]
    require (w.element == .float && g.element == .float && v.element == .float) .updateElements
  | .compute op, types => operator op types
  | kind, types => .error (.count kind.layout.length types.length)

end Signature
end NeuralGraph
