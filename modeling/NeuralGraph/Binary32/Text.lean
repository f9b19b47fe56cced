import NeuralGraph.Binary32.Shortest

/-!
# Writing a binary32

`text` writes the shortest decimal in positional notation, however long that is.  `longText` always
writes a fraction part, and leaves positional notation for an exponent outside `10 ^ -4 … 10 ^ 16`.
-/

namespace NeuralGraph.Binary32
set_option autoImplicit false

/-- Positional notation with at least `places` digits after the point. -/
def Decimal.positional (d : Decimal) (places : Nat) : String :=
  let digits : List Char := (toString d.digits).toList ++ List.replicate d.exponent.toNat '0'
  let after : Nat := (-d.exponent).toNat
  let padded : List Char := List.replicate (after + 1 - digits.length) '0' ++ digits
  let whole : List Char := padded.take (padded.length - after)
  let part : List Char := padded.drop (padded.length - after)
  let part : List Char := part ++ List.replicate (places - part.length) '0'
  if part.isEmpty then String.ofList whole
  else String.ofList (whole ++ ['.'] ++ part)

/-- One digit before the point, the rest after it, and a power of ten. -/
def Decimal.scientific (d : Decimal) : String :=
  let digits : List Char := (toString d.digits).toList
  let power : Int := d.exponent + ((digits.length - 1 : Nat) : Int)
  let mantissa : List Char :=
    match digits with
    | [] => []
    | [c] => [c]
    | c :: rest => c :: '.' :: rest
  String.ofList mantissa ++ "e" ++ toString power

/-- The text of a binary32 whose magnitude is written by `write`. -/
def textWith (write : Decimal → String) (x : Float32) : String :=
  if x.isNaN then "NaN"
  else
    let magnitude : String := if x.isInf then "inf" else write (shortest x)
    if isNegative x then "-" ++ magnitude else magnitude

/-- The shortest text that reads back, in positional notation. -/
def text (x : Float32) : String :=
  textWith (fun (d : Decimal) => d.positional 0) x

/-- The shortest text that reads back and cannot be taken for an integer. -/
def longText (x : Float32) : String :=
  let positional : Bool :=
    decide (units x = 0) || (decide (x.abs < 1e16) && !decide (x.abs < 1e-4))
  textWith (fun (d : Decimal) => if positional then d.positional 1 else d.scientific) x

end NeuralGraph.Binary32
