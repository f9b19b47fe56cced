/-!
# Windows

The square window that convolution and pooling slide over images stored by row, column and channel.
-/

namespace NeuralGraph
set_option autoImplicit false

/-- The side of the window, the distance between its positions, and the width of the border of
padding around the image. -/
structure Window where
  kernel : Nat
  stride : Nat
  pad : Nat
  deriving DecidableEq, Repr

namespace Window

/-- The number of positions along a side of `extent` pixels, if the window has any. -/
def positions? (w : Window) (extent : Nat) : Option Nat :=
  if w.stride = 0 ∨ w.kernel = 0 ∨ extent + 2 * w.pad < w.kernel then none
  else some ((extent + 2 * w.pad - w.kernel) / w.stride + 1)

/-- The pixel that the padded coordinate `at_` falls on, if it is not in the border. -/
def pixel? (w : Window) (extent at_ : Nat) : Option Nat :=
  if w.pad ≤ at_ ∧ at_ - w.pad < extent then some (at_ - w.pad) else none

theorem pixel?_lt {w : Window} {extent p y : Nat} (h : w.pixel? extent p = some y) :
    y < extent := by
  simp only [pixel?] at h
  split at h
  · simp only [Option.some.injEq] at h
    omega
  · simp at h

/-- The three numbers by name. -/
def text (w : Window) : String := s!"k={w.kernel}, s={w.stride}, p={w.pad}"

end Window
end NeuralGraph
