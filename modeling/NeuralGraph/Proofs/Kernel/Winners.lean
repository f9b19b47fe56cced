import NeuralGraph.Proofs.Binary32.Order
import NeuralGraph.Proofs.Exact.Pooling

/-!
# Winners of max pooling

Under each window the first of the largest elements wins: its value is the output, and the gradient
of the output is added to it.  The two kernels look for it differently, one keeps the largest value
so far and starts from the least finite number, the other keeps its place and starts from none.  They
agree on all elements that are numbers but negative infinity, which the least finite number beats.
-/

namespace NeuralGraph
set_option autoImplicit false
variable {α : Type}
open Binary32 (rank upper)

/-! ## The first largest element -/

/-- `j` is the first of the positions in the list where `value` is largest. -/
def FirstLargest (value : Nat → Int) (positions : List Nat) (j : Nat) : Prop :=
  ∃ before after, positions = before ++ j :: after ∧ (∀ i ∈ before, value i < value j) ∧
    ∀ i ∈ after, value i ≤ value j

namespace FirstLargest
variable {value : Nat → Int} {positions : List Nat} {i j : Nat}

theorem le (h : FirstLargest value positions j) (hi : i ∈ positions) : value i ≤ value j := by
  obtain ⟨before, after, rfl, smaller, notLarger⟩ := h
  rcases List.mem_append.mp hi with hi | hi
  · exact (smaller i hi).le
  · rcases List.mem_cons.mp hi with rfl | hi
    · exact le_rfl
    · exact notLarger i hi

theorem mem (h : FirstLargest value positions j) : j ∈ positions := by
  obtain ⟨before, after, rfl, -⟩ := h
  simp

theorem kept (h : FirstLargest value positions j) (hi : value i ≤ value j) :
    FirstLargest value (positions ++ [i]) j := by
  obtain ⟨before, after, rfl, smaller, notLarger⟩ := h
  refine ⟨before, after ++ [i], by simp, smaller, fun k hk => ?_⟩
  rcases List.mem_append.mp hk with hk | hk
  · exact notLarger k hk
  · rwa [List.mem_singleton.mp hk]

theorem beaten (h : FirstLargest value positions j) (hi : value j < value i) :
    FirstLargest value (positions ++ [i]) i :=
  ⟨positions, [], rfl, fun _ hk => (h.le hk).trans_lt hi, by simp⟩

end FirstLargest

namespace Kernel
variable {x : DenseArray Float32}

theorem firstLargest_concat (x : DenseArray Float32) (positions : List Nat) (i : Nat) :
    firstLargest x (positions ++ [i]) =
      match firstLargest x positions with
      | none => some i
      | some j => if Scalar.lt (x.get j) (x.get i) then some i else some j := by
  rw [firstLargest, List.foldl_concat]
  rfl

theorem largest_concat (xs : List Float32) (v : Float32) :
    largest (xs ++ [v]) = upper (largest xs) v := by
  rw [largest, largest, List.foldl_concat, upper]

/-- All elements are numbers, infinities among them. -/
def Numbers (x : DenseArray Float32) : Prop := ∀ v ∈ x.data, v.isNaN = false

instance instDecidableNumbers : Decidable (Numbers x) :=
  inferInstanceAs (Decidable (∀ v ∈ x.data, v.isNaN = false))

theorem Numbers.get (numbers : Numbers x) (i : Nat) : (x.get i).isNaN = false := by
  by_cases bound : i < x.data.size
  · rw [DenseArray.get, Array.getD_eq_getD_getElem?, Array.getElem?_eq_getElem bound]
    exact numbers _ (Array.getElem_mem bound)
  · rw [DenseArray.get, Array.getD_eq_getD_getElem?, Array.getElem?_eq_none (not_lt.mp bound)]
    rfl

section
variable (numbers : Numbers x)
include numbers

theorem lt_get_iff (i j : Nat) :
    Scalar.lt (x.get i) (x.get j) = true ↔ rank (x.get i) < rank (x.get j) :=
  Binary32.lt_iff_rank (numbers.get i) (numbers.get j)

/-- The place of the best element so far is that of the first largest. -/
theorem firstLargest_spec (positions : List Nat) :
    match firstLargest x positions with
    | none => positions = []
    | some j => FirstLargest (fun (i : Nat) => rank (x.get i)) positions j := by
  induction positions using List.reverseRecOn with
  | nil => rfl
  | append_singleton positions i ih =>
    rw [firstLargest_concat]
    split at ih
    · subst ih
      exact ⟨[], [], rfl, by simp, by simp⟩
    · next j _ =>
      by_cases larger : Scalar.lt (x.get j) (x.get i) = true
      · simp only [if_pos larger]
        exact ih.beaten ((lt_get_iff numbers j i).mp larger)
      · simp only [if_neg larger]
        exact ih.kept (not_lt.mp fun lt => larger ((lt_get_iff numbers j i).mpr lt))

/-- The best value so far is that of the first largest, unless the least finite number is larger. -/
theorem largest_eq (positions : List Nat) : largest (positions.map x.get) =
    match firstLargest x positions with
    | none => Scalar.lowest
    | some j => upper Scalar.lowest (x.get j) := by
  induction positions using List.reverseRecOn with
  | nil => rfl
  | append_singleton positions i ih =>
    rw [List.map_append, List.map_singleton, largest_concat, firstLargest_concat, ih]
    cases firstLargest x positions with
    | none => rfl
    | some j =>
      dsimp only
      -- The least finite number moves from the start of the walk to its end.
      rw [Binary32.upper_assoc Binary32.isNaN_lowest (numbers.get j) (numbers.get i)]
      by_cases larger : Scalar.lt (x.get j) (x.get i) = true
      · simp only [upper, if_pos larger]
      · simp only [upper, if_neg larger]

end
end Kernel

/-! ## Taps in scan order -/

/-- The row `ky` and the column `kx` of a window at the output row `oy` and column `ox` fall on an
image of these sides. -/
structure Window.Covers (w : Window) (height width oy ox ky kx : Nat) : Prop where
  kernelRow : ky < w.kernel
  kernelColumn : kx < w.kernel
  row : w.pad ≤ oy * w.stride + ky ∧ oy * w.stride + ky < height + w.pad
  column : w.pad ≤ ox * w.stride + kx ∧ ox * w.stride + kx < width + w.pad

/-- The coordinates of the image element under the row `ky` and the column `kx` of a window. -/
def Window.under (w : Window) (b oy ox c ky kx : Nat) : List Nat :=
  [b, oy * w.stride + ky - w.pad, ox * w.stride + kx - w.pad, c]

namespace Sliding
variable {s : Sliding} {b oy ox c ky kx : Nat}

/-- The image element under a tap of a window, counted row by row. -/
def tapAt (s : Sliding) (site : PoolSite) (tap : Nat) : Option Nat := do
  let y ← s.row? site.row (tap / s.window.kernel)
  let x ← s.column? site.column (tap % s.window.kernel)
  some (s.inputOffset site.batch y x site.channel)

theorem taps_eq (site : PoolSite) : s.taps site =
    (List.range (s.window.kernel * s.window.kernel)).filterMap (s.tapAt site) := rfl

theorem pixel?_eq_some {w : Window} {extent p y : Nat} : w.pixel? extent p = some y ↔
    (w.pad ≤ p ∧ p < extent + w.pad) ∧ y = p - w.pad := by
  rw [Window.pixel?]
  split
  · rw [Option.some.injEq]
    omega
  · simp only [reduceCtorEq, false_iff]
    omega

theorem tapAt_eq_some {tap j : Nat} (inside : tap < s.window.kernel * s.window.kernel) :
    s.tapAt ⟨b, oy, ox, c⟩ tap = some j ↔
      s.window.Covers s.height s.width oy ox (tap / s.window.kernel) (tap % s.window.kernel) ∧
        j = DenseArray.position (s.window.under b oy ox c (tap / s.window.kernel)
          (tap % s.window.kernel)) (DenseArray.strides s.inputDims) := by
  have side : 0 < s.window.kernel := Nat.pos_of_lt_mul_left inside
  simp only [tapAt, Option.bind_eq_bind, Option.bind_eq_some_iff, row?, column?, pixel?_eq_some,
    Option.some.injEq, Window.under, inputDims, DenseArray.position_image, inputOffset]
  constructor
  · rintro ⟨y, ⟨row, rfl⟩, x, ⟨column, rfl⟩, rfl⟩
    exact ⟨⟨Nat.div_lt_of_lt_mul inside, Nat.mod_lt tap side, row, column⟩, rfl⟩
  · rintro ⟨covers, rfl⟩
    exact ⟨_, ⟨covers.row, rfl⟩, _, ⟨covers.column, rfl⟩, rfl⟩

theorem site_eq (hoy : oy < s.outHeight) (hox : ox < s.outWidth) (hc : c < s.channels) :
    s.site (DenseArray.position [b, oy, ox, c] (DenseArray.strides s.pooledDims)) =
      ⟨b, oy, ox, c⟩ := by
  rw [pooledDims, outputDims, DenseArray.position_image, site]
  simp only [cell_div hc, cell_mod hc, cell_div hox, cell_mod hox, cell_div hoy, cell_mod hoy]

theorem tapAt_of_covers (covers : s.window.Covers s.height s.width oy ox ky kx) :
    ky * s.window.kernel + kx < s.window.kernel * s.window.kernel ∧
      s.tapAt ⟨b, oy, ox, c⟩ (ky * s.window.kernel + kx) =
        some (DenseArray.position (s.window.under b oy ox c ky kx)
          (DenseArray.strides s.inputDims)) := by
  have inside := cell_lt covers.kernelRow covers.kernelColumn
  refine ⟨inside, (tapAt_eq_some inside).mpr ?_⟩
  rw [cell_div covers.kernelColumn, cell_mod covers.kernelColumn]
  exact ⟨covers, rfl⟩

theorem taps_eq_nil (padding : ∀ ky kx, ¬s.window.Covers s.height s.width oy ox ky kx) :
    s.taps ⟨b, oy, ox, c⟩ = [] := by
  rw [taps_eq, List.filterMap_eq_nil_iff]
  intro tap inside
  refine Option.eq_none_iff_forall_ne_some.mpr fun j h => ?_
  exact padding _ _ ((tapAt_eq_some (List.mem_range.mp inside)).mp h).1

end Sliding

/-- What stands before and after an entry comes from smaller and from larger numbers. -/
theorem filterMap_range_split {f : Nat → Option Nat} {n j : Nat} {before after : List Nat}
    (h : (List.range n).filterMap f = before ++ j :: after) :
    ∃ t, t < n ∧ f t = some j ∧ (∀ u i, u < t → f u = some i → i ∈ before) ∧
      ∀ u i, u < n → t < u → f u = some i → i ∈ after := by
  obtain ⟨l₁, l₂, whole, rfl, rest⟩ := List.filterMap_eq_append_iff.mp h
  obtain ⟨skipped, t, l₃, rfl, none, here, rfl⟩ := List.filterMap_eq_cons_iff.mp rest
  have ordered := List.pairwise_lt_range (n := n)
  rw [whole, ← List.append_assoc, List.pairwise_append, List.pairwise_cons] at ordered
  obtain ⟨-, ⟨later, -⟩, earlier⟩ := ordered
  have place : ∀ u, u < n → u ∈ l₁ ∨ u ∈ skipped ∨ u = t ∨ u ∈ l₃ := fun u hu => by
    have mem := List.mem_range.mpr hu
    rw [whole] at mem
    simpa using mem
  have bound : t < n := List.mem_range.mp (by rw [whole]; simp)
  refine ⟨t, bound, here, fun u i hu hi => ?_, fun u i hu htu hi => ?_⟩
  · rcases place u (hu.trans bound) with mem | mem | rfl | mem
    · exact List.mem_filterMap.mpr ⟨u, mem, hi⟩
    · rw [none u mem] at hi
      cases hi
    · exact absurd hu (lt_irrefl _)
    · exact absurd (later u mem) (lt_asymm hu)
  · rcases place u hu with mem | mem | rfl | mem
    · exact absurd (earlier u (List.mem_append_left _ mem) t List.mem_cons_self) (lt_asymm htu)
    · exact absurd (earlier u (List.mem_append_right _ mem) t List.mem_cons_self) (lt_asymm htu)
    · exact absurd htu (lt_irrefl _)
    · exact List.mem_filterMap.mpr ⟨u, mem, hi⟩

namespace Kernel

/-- The element under the row `ky` and the column `kx` of a window is the first of the largest that
the window covers, row by row. -/
structure Wins (x : DenseArray Float32) (w : Window) (height width b oy ox c ky kx : Nat) :
    Prop where
  covers : w.Covers height width oy ox ky kx
  largest : ∀ ky' kx', w.Covers height width oy ox ky' kx' →
    ¬x.element (w.under b oy ox c ky kx) < x.element (w.under b oy ox c ky' kx')
  first : ∀ ky' kx', w.Covers height width oy ox ky' kx' → ky' < ky ∨ ky' = ky ∧ kx' < kx →
    x.element (w.under b oy ox c ky' kx') < x.element (w.under b oy ox c ky kx)

section
variable {s : Sliding} {x : DenseArray Float32} (image : x.dims = s.inputDims)
  {b oy ox c : Nat} (hb : b < s.batch) (hc : c < s.channels)
include image hb hc

theorem element_under {ky kx : Nat} (covers : s.window.Covers s.height s.width oy ox ky kx) :
    x.element (s.window.under b oy ox c ky kx) = x.get (DenseArray.position
      (s.window.under b oy ox c ky kx) (DenseArray.strides s.inputDims)) := by
  have row := covers.row
  have column := covers.column
  rw [DenseArray.element_eq, image]
  rw [image]
  exact .cons hb (.cons (by omega) (.cons (by omega) (.cons hc .nil)))

variable (numbers : Numbers x)
include numbers

theorem wins_of_firstLargest {j : Nat}
    (found : FirstLargest (fun (i : Nat) => rank (x.get i)) (s.taps ⟨b, oy, ox, c⟩) j) :
    ∃ ky kx, Wins x s.window s.height s.width b oy ox c ky kx ∧
      j = DenseArray.position (s.window.under b oy ox c ky kx) (DenseArray.strides x.dims) := by
  have bound := fun {i : Nat} => found.le (i := i)
  obtain ⟨before, after, split, smaller, -⟩ := found
  obtain ⟨t, inside, here, earlier, -⟩ := filterMap_range_split split
  obtain ⟨covers, rfl⟩ := (Sliding.tapAt_eq_some inside).mp here
  refine ⟨_, _, ⟨covers, fun ky' kx' covers' => ?_, fun ky' kx' covers' scanned => ?_⟩,
    by rw [image]⟩
  · rw [element_under image hb hc covers, element_under image hb hc covers',
      ← Binary32.scalar_lt_iff, Binary32.lt_iff_rank (numbers.get _) (numbers.get _), not_lt]
    obtain ⟨inside', there⟩ := Sliding.tapAt_of_covers covers'
    exact bound (List.mem_filterMap.mpr ⟨_, List.mem_range.mpr inside', there⟩)
  · rw [element_under image hb hc covers, element_under image hb hc covers',
      ← Binary32.scalar_lt_iff, Binary32.lt_iff_rank (numbers.get _) (numbers.get _)]
    obtain ⟨inside', there⟩ := Sliding.tapAt_of_covers covers'
    refine smaller _ (earlier _ _ ?_ there)
    -- Row by row, what is scanned before has the smaller tap number.
    rcases scanned with row | ⟨rfl, column⟩
    · exact (cell_lt row covers'.kernelColumn).trans_le (Nat.div_mul_le_self t s.window.kernel)
    · calc t / s.window.kernel * s.window.kernel + kx'
          < t / s.window.kernel * s.window.kernel + t % s.window.kernel :=
            Nat.add_lt_add_left column _
        _ = t := Nat.div_add_mod' t s.window.kernel

theorem exists_winner (covered : ∃ ky kx, s.window.Covers s.height s.width oy ox ky kx) :
    ∃ ky kx, Wins x s.window s.height s.width b oy ox c ky kx ∧
      firstLargest x (s.taps ⟨b, oy, ox, c⟩) =
        some (DenseArray.position (s.window.under b oy ox c ky kx)
          (DenseArray.strides x.dims)) := by
  have spec := firstLargest_spec numbers (s.taps ⟨b, oy, ox, c⟩)
  cases found : firstLargest x (s.taps ⟨b, oy, ox, c⟩) with
  | none =>
    rw [found] at spec
    obtain ⟨ky, kx, covers⟩ := covered
    obtain ⟨inside, there⟩ := Sliding.tapAt_of_covers covers
    have mem := List.mem_filterMap.mpr ⟨_, List.mem_range.mpr inside, there⟩
    rw [← Sliding.taps_eq, spec] at mem
    cases mem
  | some j =>
    rw [found] at spec
    obtain ⟨ky, kx, wins, rfl⟩ := wins_of_firstLargest image hb hc numbers spec
    exact ⟨ky, kx, wins, rfl⟩

end

/-! ## Gradients -/

section
variable [Scalar α]

theorem get_foldl_addAt {winner : Nat → Option Nat} {value : Nat → α} {sites : List Nat}
    {a : DenseArray α} (bounds : ∀ o ∈ sites, ∀ j, winner o = some j → j < volume a.dims)
    (i : Nat) :
    (sites.foldl (fun (a : DenseArray α) (o : Nat) =>
      match winner o with
      | some j => a.addAt j (value o)
      | none => a) a).get i =
    (sites.filter fun (o : Nat) => winner o = some i).foldl
      (fun (acc : α) (o : Nat) => acc + value o) (a.get i) := by
  induction sites generalizing a with
  | nil => rfl
  | cons o sites ih =>
    have later : ∀ o' ∈ sites, ∀ j, winner o' = some j → j < volume a.dims :=
      fun o' ho' => bounds o' (List.mem_cons_of_mem _ ho')
    rw [List.foldl_cons]
    cases won : winner o with
    | none =>
      rw [ih later, List.filter_cons_of_neg (by simp [won])]
    | some j =>
      have bound := bounds o List.mem_cons_self j won
      dsimp only
      rw [ih (a := a.addAt j (value o)) later, DenseArray.addAt, DenseArray.get_set _ bound]
      by_cases here : j = i
      · subst here
        rw [if_pos rfl, List.filter_cons_of_pos (by simp [won]), List.foldl_cons]
      · rw [if_neg here, List.filter_cons_of_neg (by simp [won, here])]

end

/-! ## Both kernels -/

section
variable (s : Sliding) (x g : DenseArray Float32)

/-- The place that wins the window of an output. -/
def winner (o : Nat) : Option Nat := firstLargest x (s.taps (s.site o))

/-- The largest values under the windows. -/
def pooledMaxima : DenseArray Float32 :=
  .ofFn s.pooledDims fun (o : Nat) => largest ((s.taps (s.site o)).map x.get)

/-- The gradients of all windows are added to their winners. -/
def routed : DenseArray Float32 :=
  (List.range (volume s.pooledDims)).foldl
    (fun (image : DenseArray Float32) (o : Nat) =>
      match winner s x o with
      | some j => image.addAt j (g.get o)
      | none => image)
    (.zeros s.inputDims)

theorem routed_dims : (routed s x g).dims = s.inputDims := by
  refine foldl_dims _ (fun image o => ?_) _ _
  split <;> rfl

variable {s x}

theorem winner_lt (numbers : Numbers x) {o j : Nat} (ho : o < volume s.pooledDims)
    (won : winner s x o = some j) : j < volume s.inputDims := by
  have spec := firstLargest_spec numbers (s.taps (s.site o))
  rw [← winner, won] at spec
  obtain ⟨hb, hc⟩ := Sliding.site_lt ho
  exact Sliding.mem_taps_lt hb hc spec.mem

theorem routed_get (numbers : Numbers x) {i : Nat} : (routed s x g).get i =
    ((List.range (volume s.pooledDims)).filter fun (o : Nat) => winner s x o = some i).foldl
      (fun (acc : Float32) (o : Nat) => acc + g.get o) 0 := by
  rw [routed, get_foldl_addAt, DenseArray.get_zeros]
  intro o ho j won
  exact winner_lt numbers (List.mem_range.mp ho) won

theorem pooledMaxima_element {b oy ox c : Nat} (numbers : Numbers x) (hb : b < s.batch)
    (hoy : oy < s.outHeight) (hox : ox < s.outWidth) (hc : c < s.channels) {j : Nat}
    (won : firstLargest x (s.taps ⟨b, oy, ox, c⟩) = some j) :
    (pooledMaxima s x).element [b, oy, ox, c] =
      if x.get j = Scalar.negInfinity then Scalar.lowest else x.get j := by
  have within : DenseArray.Within [b, oy, ox, c] s.pooledDims :=
    .cons hb (.cons hoy (.cons hox (.cons hc .nil)))
  have value := largest_eq numbers (s.taps ⟨b, oy, ox, c⟩)
  rw [won] at value
  rw [DenseArray.element_eq within, pooledMaxima, DenseArray.ofFn_dims,
    DenseArray.get_ofFn _ _ (DenseArray.position_lt within), Sliding.site_eq hoy hox hc, value]
  exact Binary32.upper_lowest (numbers.get j)

end

end Kernel

/-- Ties, an infinity of each sign and, with the window of `peaks_winners`, padding. -/
def peaks : DenseArray Float32 :=
  ⟨[1, 2, 2, 1], #[Scalar.negInfinity, 2, 2, Float32.ofBits 0x7f800000], rfl⟩

/-- One gradient for each window of two pixels by two that reaches over the border. -/
def peakGradients : DenseArray Float32 := ⟨[1, 3, 3, 1], #[1, 2, 3, 4, 5, 6, 7, 8, 9], rfl⟩

/-- A single pixel, of negative infinity. -/
def pit : DenseArray Float32 := ⟨[1, 1, 1, 1], #[Scalar.negInfinity], rfl⟩

end NeuralGraph
