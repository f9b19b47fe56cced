import NeuralGraph.Proofs.Exact.Pairing

/-!
# Images and patches

A patch matrix holds, for each window position and each tap of the window, the element of the image
that the tap falls on, and zero where it falls on the border.  Adding patches back into an image is
the adjoint of taking patches: both sides of the pairing are sums over all window positions and taps,
however the windows overlap.
-/

namespace NeuralGraph
set_option autoImplicit false
variable {α : Type}

theorem cell_inj {m r j r' j' : Nat} (hj : j < m) (hj' : j' < m) (h : r * m + j = r' * m + j') :
    r = r' ∧ j = j' := by
  constructor
  · rw [← cell_div (r := r) hj, h, cell_div hj']
  · rw [← cell_mod (r := r) hj, h, cell_mod hj']

/-! ## Elements of arrays -/

namespace DenseArray

theorem offset?_eq {coords dims : List Nat} (within : Within coords dims) :
    offset? dims coords = some (position coords (strides dims)) := by
  induction within with
  | nil => rfl
  | cons hc _ ih => rw [offset?, if_pos hc, ih, Option.map_some, strides, position]

variable [Zero α]

theorem at?_eq {a : DenseArray α} {coords : List Nat} (within : Within coords a.dims) :
    a.at? coords = some (a.get (position coords (strides a.dims))) := by
  have bound : position coords (strides a.dims) < a.data.size := by
    rw [a.size_eq]
    exact position_lt within
  rw [at?, offset?_eq within, Option.bind_some, get, Array.getElem?_eq_getElem bound]
  simp [bound]

/-- The element at these coordinates, zero where there is none. -/
def element (a : DenseArray α) (coords : List Nat) : α := (a.at? coords).getD 0

theorem element_eq {a : DenseArray α} {coords : List Nat} (within : Within coords a.dims) :
    a.element coords = a.get (position coords (strides a.dims)) := by
  rw [element, at?_eq within, Option.getD_some]

theorem position_image (b y x c n height width channels : Nat) :
    position [b, y, x, c] (strides [n, height, width, channels]) =
      ((b * height + y) * width + x) * channels + c := by
  simp only [position, strides, volume_cons, volume_nil]
  ring

theorem get_zeros (dims : List Nat) (i : Nat) : (zeros dims : DenseArray α).get i = 0 := by
  by_cases bound : i < volume dims
  · exact get_fill dims 0 bound
  · simp [get, zeros, fill, ofFn, bound]

theorem get_set {a : DenseArray α} {i : Nat} (value : α) (bound : i < volume a.dims) (j : Nat) :
    (a.set i value).get j = if i = j then value else a.get j := by
  rw [← a.size_eq] at bound
  rw [get, set, Array.getD_eq_getD_getElem?, Array.getElem?_setIfInBounds, if_pos bound]
  split
  · rfl
  · rw [get, Array.getD_eq_getD_getElem?]

/-- Where elements are written one after the other, an element has a value if all that is written to
it is this value and it had this value before or is written to. -/
theorem get_foldl_set {β : Type} {place : β → Nat} {value : β → α} {ts : List β} {a : DenseArray α}
    {j : Nat} {v : α} (bounds : ∀ t ∈ ts, place t < volume a.dims)
    (agree : ∀ t ∈ ts, place t = j → value t = v) (start : a.get j = v ∨ ∃ t ∈ ts, place t = j) :
    (ts.foldl (fun (a : DenseArray α) (t : β) => a.set (place t) (value t)) a).get j = v := by
  induction ts generalizing a with
  | nil =>
    rcases start with old | ⟨t, ht, -⟩
    · exact old
    · cases ht
  | cons t ts ih =>
    have bound := bounds t List.mem_cons_self
    rw [List.foldl_cons]
    refine ih (fun t' ht' => bounds t' (List.mem_cons_of_mem _ ht'))
      (fun t' ht' => agree t' (List.mem_cons_of_mem _ ht')) ?_
    rw [get_set _ bound]
    by_cases here : place t = j
    · rw [if_pos here]
      exact .inl (agree t List.mem_cons_self here)
    · rw [if_neg here]
      rcases start with old | ⟨t', ht', there⟩
      · exact .inl old
      · rcases List.mem_cons.mp ht' with rfl | later
        · exact absurd there here
        · exact .inr ⟨t', later, there⟩

end DenseArray

section
variable [RingScalar α] {f : Nat → α}

/-- The inner product of two arrays of equal dimensions. -/
def DenseArray.inner (a b : DenseArray α) : α := pairing (volume a.dims) a.get b.get

theorem DenseArray.get_addAt {a : DenseArray α} {i : Nat} (value : α) (bound : i < volume a.dims)
    (j : Nat) : (a.addAt i value).get j = a.get j + if i = j then value else 0 := by
  rw [addAt, get_set _ bound]
  split
  · next here => rw [here]
  · rw [add_zero]

theorem pairing_addAt {a : DenseArray α} {i : Nat} (value : α) (bound : i < volume a.dims) :
    pairing (volume a.dims) f (a.addAt i value).get =
      pairing (volume a.dims) f a.get + f i * value := by
  rw [pairing_congr (fun _ _ => rfl) fun j _ => DenseArray.get_addAt value bound j, pairing_add,
    pairing, pairing]
  simp [bound]

/-- What the steps of a loop add to a pairing, the loop adds in sum. -/
theorem pairing_foldl {β : Type} {dims : List Nat} {step : DenseArray α → β → DenseArray α}
    {gain : β → α} {bs : List β} {a : DenseArray α} (ha : a.dims = dims)
    (kept : ∀ a b, (step a b).dims = a.dims)
    (gains : ∀ a, ∀ b ∈ bs, a.dims = dims → pairing (volume dims) f (step a b).get =
      pairing (volume dims) f a.get + gain b) :
    pairing (volume dims) f (bs.foldl step a).get =
      pairing (volume dims) f a.get + (bs.map gain).sum := by
  induction bs generalizing a with
  | nil => simp
  | cons b bs ih =>
    rw [List.foldl_cons, ih ((kept a b).trans ha) fun a b' hb' =>
      gains a b' (List.mem_cons_of_mem _ hb'), gains a b List.mem_cons_self ha, List.map_cons,
      List.sum_cons, add_assoc]

theorem pairing_zeros (size : Nat) (dims : List Nat) :
    pairing size f (DenseArray.zeros dims).get = 0 := by
  rw [pairing_congr (fun _ _ => rfl) fun i _ => DenseArray.get_zeros dims i, pairing_zero]

/-- The pairing with an image that elements are added into. -/
theorem pairing_foldl_addAt {β : Type} {dims : List Nat} {place : β → Nat} {value : β → α}
    {bs : List β} {a : DenseArray α} (ha : a.dims = dims)
    (bounds : ∀ b ∈ bs, place b < volume dims) :
    pairing (volume dims) f
        (bs.foldl (fun (a : DenseArray α) (b : β) => a.addAt (place b) (value b)) a).get =
      pairing (volume dims) f a.get + (bs.map fun (b : β) => f (place b) * value b).sum := by
  refine pairing_foldl ha (fun _ _ => rfl) fun a b hb ha => ?_
  subst ha
  exact pairing_addAt (value b) (bounds b hb)

theorem sum_map_range (n : Nat) (f : Nat → α) :
    ((List.range n).map f).sum = ∑ i ∈ Finset.range n, f i := by
  induction n with
  | zero => rfl
  | succ n ih => simp [List.range_succ, Finset.sum_range_succ, ih]

theorem sum_flatMap_range {β : Type} (n : Nat) (list : Nat → List β) (f : β → α) :
    (((List.range n).flatMap list).map f).sum = ∑ i ∈ Finset.range n, ((list i).map f).sum := by
  rw [← sum_map_range, List.map_flatMap, List.flatMap, List.sum_flatten, List.map_map]
  rfl

end

/-! ## Windows over images -/

namespace Sliding

/-- The number of a window position. -/
def patchNumber (s : Sliding) (b oy ox : Nat) : Nat := (b * s.outHeight + oy) * s.outWidth + ox

/-- The number of a tap of the window. -/
def tapNumber (s : Sliding) (ky kx c : Nat) : Nat := (ky * s.window.kernel + kx) * s.channels + c

/-- The place of a tap in the patch matrix. -/
def cell (s : Sliding) (b oy ox ky kx c : Nat) : Nat :=
  s.patchNumber b oy ox * s.patchSize + s.tapNumber ky kx c

/-- `f` of the row and the column that a tap falls on, zero on the border. -/
def onImage [Zero α] (s : Sliding) (oy ox ky kx : Nat) (f : Nat → Nat → α) : α :=
  match s.row? oy ky, s.column? ox kx with
  | some y, some x => f y x
  | _, _ => 0

variable {s : Sliding} {b oy ox ky kx c : Nat}

theorem patchNumber_lt (hb : b < s.batch) (hoy : oy < s.outHeight) (hox : ox < s.outWidth) :
    s.patchNumber b oy ox < s.patches := cell_lt (cell_lt hb hoy) hox

theorem tapNumber_lt (hky : ky < s.window.kernel) (hkx : kx < s.window.kernel)
    (hc : c < s.channels) : s.tapNumber ky kx c < s.patchSize := cell_lt (cell_lt hky hkx) hc

theorem inputOffset_lt {y x : Nat} (hb : b < s.batch) (hy : y < s.height) (hx : x < s.width)
    (hc : c < s.channels) : s.inputOffset b y x c < volume s.inputDims := by
  have bound := cell_lt (cell_lt (cell_lt hb hy) hx) hc
  simpa only [inputDims, inputOffset, volume_cons, volume_nil, Nat.mul_one, ← Nat.mul_assoc]
    using bound

theorem row?_lt {y : Nat} (h : s.row? oy ky = some y) : y < s.height := Window.pixel?_lt h

theorem column?_lt {x : Nat} (h : s.column? ox kx = some x) : x < s.width := Window.pixel?_lt h

/-- Where a tap falls on the image, by the row and the column of the window and the padding. -/
theorem onImage_eq [Zero α] (f : Nat → Nat → α) : s.onImage oy ox ky kx f =
    if (s.window.pad ≤ oy * s.window.stride + ky ∧
        oy * s.window.stride + ky < s.height + s.window.pad) ∧
      s.window.pad ≤ ox * s.window.stride + kx ∧
        ox * s.window.stride + kx < s.width + s.window.pad
    then f (oy * s.window.stride + ky - s.window.pad) (ox * s.window.stride + kx - s.window.pad)
    else 0 := by
  have inside : ∀ p extent, (s.window.pad ≤ p ∧ p - s.window.pad < extent) ↔
      (s.window.pad ≤ p ∧ p < extent + s.window.pad) := fun p extent => by omega
  rw [onImage, row?, column?, Window.pixel?, Window.pixel?]
  simp only [inside]
  split_ifs with rows columns both both <;> simp_all

/-- A window position and a tap of the window. -/
structure Tap (s : Sliding) (b oy ox ky kx c : Nat) : Prop where
  batch : b < s.batch
  row : oy < s.outHeight
  column : ox < s.outWidth
  kernelRow : ky < s.window.kernel
  kernelColumn : kx < s.window.kernel
  channel : c < s.channels

theorem mem_patchTaps {t : PatchTap} : t ∈ s.patchTaps ↔
    ∃ b oy ox ky kx c y x, s.Tap b oy ox ky kx c ∧ s.row? oy ky = some y ∧
      s.column? ox kx = some x ∧
      t = ⟨s.patchNumber b oy ox, s.tapNumber ky kx c, s.inputOffset b y x c⟩ := by
  simp only [patchTaps, patch, patchRow, List.mem_flatMap, List.mem_range, Option.mem_toList,
    List.mem_map]
  constructor
  · rintro ⟨b, hb, oy, hoy, ox, hox, ky, hky, y, hy, kx, hkx, x, hx, c, hc, rfl⟩
    exact ⟨b, oy, ox, ky, kx, c, y, x, ⟨hb, hoy, hox, hky, hkx, hc⟩, hy, hx, rfl⟩
  · rintro ⟨b, oy, ox, ky, kx, c, y, x, ⟨hb, hoy, hox, hky, hkx, hc⟩, hy, hx, rfl⟩
    exact ⟨b, hb, oy, hoy, ox, hox, ky, hky, y, hy, kx, hkx, x, hx, c, hc, rfl⟩

theorem Tap.cell_lt (tap : s.Tap b oy ox ky kx c) :
    s.cell b oy ox ky kx c < s.patches * s.patchSize :=
  NeuralGraph.cell_lt (patchNumber_lt tap.batch tap.row tap.column)
    (tapNumber_lt tap.kernelRow tap.kernelColumn tap.channel)

/-- No two taps have one place in the patch matrix. -/
theorem Tap.unique {b' oy' ox' ky' kx' c' : Nat} (tap : s.Tap b oy ox ky kx c)
    (tap' : s.Tap b' oy' ox' ky' kx' c')
    (same : s.cell b oy ox ky kx c = s.cell b' oy' ox' ky' kx' c') :
    b = b' ∧ oy = oy' ∧ ox = ox' ∧ ky = ky' ∧ kx = kx' ∧ c = c' := by
  obtain ⟨patch, number⟩ := cell_inj (tapNumber_lt tap.kernelRow tap.kernelColumn tap.channel)
    (tapNumber_lt tap'.kernelRow tap'.kernelColumn tap'.channel) same
  obtain ⟨row, column⟩ := cell_inj tap.column tap'.column patch
  obtain ⟨kernel, channel⟩ := cell_inj tap.channel tap'.channel number
  obtain ⟨rfl, rfl⟩ := cell_inj tap.row tap'.row row
  obtain ⟨rfl, rfl⟩ := cell_inj tap.kernelColumn tap'.kernelColumn kernel
  exact ⟨rfl, rfl, column, rfl, rfl, channel⟩

end Sliding

namespace Kernel
variable {s : Sliding}

/-- A patch matrix holds the padded image as the windows see it. -/
theorem patchMatrix_get [Scalar α] (image : DenseArray α) {b oy ox ky kx c : Nat}
    (tap : s.Tap b oy ox ky kx c) : (patchMatrix s image).get (s.cell b oy ox ky kx c) =
      s.onImage oy ox ky kx fun (y x : Nat) => image.get (s.inputOffset b y x c) := by
  refine DenseArray.get_foldl_set (fun t ht => ?_) (fun t ht place => ?_) ?_
  · obtain ⟨_, _, _, _, _, _, _, _, tap', -, -, rfl⟩ := Sliding.mem_patchTaps.mp ht
    rw [DenseArray.zeros_dims, volume_matrix]
    exact tap'.cell_lt
  -- what is written to this place comes from this tap
  · obtain ⟨_, _, _, _, _, _, y, x, tap', hy, hx, rfl⟩ := Sliding.mem_patchTaps.mp ht
    obtain ⟨rfl, rfl, rfl, rfl, rfl, rfl⟩ := tap'.unique tap place
    rw [Sliding.onImage, hy, hx]
  -- on the border nothing is written, and the zero is right
  · rw [DenseArray.get_zeros, Sliding.onImage]
    cases hy : s.row? oy ky with
    | none => exact .inl rfl
    | some y =>
      cases hx : s.column? ox kx with
      | none => exact .inl rfl
      | some x =>
        exact .inr ⟨_, Sliding.mem_patchTaps.mpr ⟨b, oy, ox, ky, kx, c, y, x, tap, hy, hx, rfl⟩, rfl⟩

end Kernel

/-! ## Sums over taps -/

section
variable [RingScalar α]

namespace Sliding

theorem onImage_mul (s : Sliding) (oy ox ky kx : Nat) (f : Nat → Nat → α) (v : α) :
    s.onImage oy ox ky kx f * v = s.onImage oy ox ky kx fun (y x : Nat) => f y x * v := by
  rw [onImage, onImage]
  split
  · rfl
  · exact zero_mul v

/-- The sum over all window positions and taps. -/
def sumTaps (s : Sliding) (f : Nat → Nat → Nat → Nat → Nat → Nat → α) : α :=
  ∑ b ∈ Finset.range s.batch, ∑ oy ∈ Finset.range s.outHeight, ∑ ox ∈ Finset.range s.outWidth,
    ∑ ky ∈ Finset.range s.window.kernel, ∑ kx ∈ Finset.range s.window.kernel,
      ∑ c ∈ Finset.range s.channels, f b oy ox ky kx c

variable (s : Sliding)

theorem sum_patches (f : Nat → α) : ∑ p ∈ Finset.range s.patches, f p =
    ∑ b ∈ Finset.range s.batch, ∑ oy ∈ Finset.range s.outHeight, ∑ ox ∈ Finset.range s.outWidth,
      f (s.patchNumber b oy ox) := by
  rw [patches, sum_blocks, sum_blocks]
  rfl

theorem sum_taps (f : Nat → α) : ∑ t ∈ Finset.range s.patchSize, f t =
    ∑ ky ∈ Finset.range s.window.kernel, ∑ kx ∈ Finset.range s.window.kernel,
      ∑ c ∈ Finset.range s.channels, f (s.tapNumber ky kx c) := by
  rw [patchSize, sum_blocks, sum_blocks]
  rfl

theorem sum_patch (b oy ox : Nat) (f : PatchTap → α) : ((s.patch b oy ox).map f).sum =
    ∑ ky ∈ Finset.range s.window.kernel, ∑ kx ∈ Finset.range s.window.kernel,
      ∑ c ∈ Finset.range s.channels, s.onImage oy ox ky kx fun (y x : Nat) =>
        f ⟨s.patchNumber b oy ox, s.tapNumber ky kx c, s.inputOffset b y x c⟩ := by
  rw [patch, sum_flatMap_range]
  refine Finset.sum_congr rfl fun ky _ => ?_
  simp only [onImage]
  cases s.row? oy ky with
  | none => simp
  | some y =>
    rw [Option.toList_some, List.flatMap_singleton, patchRow, sum_flatMap_range]
    refine Finset.sum_congr rfl fun kx _ => ?_
    cases s.column? ox kx with
    | none => simp
    | some x =>
      rw [Option.toList_some, List.flatMap_singleton, List.map_map, sum_map_range]
      rfl

theorem sum_patchTaps (f : PatchTap → α) : (s.patchTaps.map f).sum =
    s.sumTaps fun (b oy ox ky kx c : Nat) => s.onImage oy ox ky kx fun (y x : Nat) =>
      f ⟨s.patchNumber b oy ox, s.tapNumber ky kx c, s.inputOffset b y x c⟩ := by
  simp only [patchTaps, sum_flatMap_range, sum_patch, sumTaps]

end Sliding

namespace Kernel
variable (s : Sliding) (image : DenseArray α)

theorem pairing_patchMatrix (h : Nat → α) :
    pairing (s.patches * s.patchSize) (patchMatrix s image).get h =
      s.sumTaps fun (b oy ox ky kx c : Nat) =>
        (s.onImage oy ox ky kx fun (y x : Nat) => image.get (s.inputOffset b y x c)) *
          h (s.cell b oy ox ky kx c) := by
  rw [pairing_cells, Sliding.sum_patches]
  refine Finset.sum_congr rfl fun b hb => Finset.sum_congr rfl fun oy hoy =>
    Finset.sum_congr rfl fun ox hox => ?_
  rw [Sliding.sum_taps]
  refine Finset.sum_congr rfl fun ky hky => Finset.sum_congr rfl fun kx hkx =>
    Finset.sum_congr rfl fun c hc => ?_
  rw [Finset.mem_range] at hb hoy hox hky hkx hc
  have element := patchMatrix_get image (s := s) ⟨hb, hoy, hox, hky, hkx, hc⟩
  exact congrArg (· * h (s.cell b oy ox ky kx c)) element

theorem pairing_addPatches (patches : DenseArray α) :
    pairing (volume s.inputDims) image.get (addPatches s patches).get =
      s.sumTaps fun (b oy ox ky kx c : Nat) =>
        (s.onImage oy ox ky kx fun (y x : Nat) => image.get (s.inputOffset b y x c)) *
          patches.get (s.cell b oy ox ky kx c) := by
  have bounds : ∀ t ∈ s.patchTaps, t.offset < volume s.inputDims := by
    intro t ht
    obtain ⟨_, _, _, _, _, _, y, x, tap, hy, hx, rfl⟩ := Sliding.mem_patchTaps.mp ht
    exact Sliding.inputOffset_lt tap.batch (Sliding.row?_lt hy) (Sliding.column?_lt hx) tap.channel
  refine (pairing_foldl_addAt rfl bounds).trans ?_
  rw [pairing_zeros, zero_add, Sliding.sum_patchTaps]
  simp only [Sliding.onImage_mul]
  rfl

/-- Adding patches back into an image is the adjoint of taking patches. -/
theorem pairing_patches (patches : DenseArray α) :
    pairing (s.patches * s.patchSize) (patchMatrix s image).get patches.get =
      pairing (volume s.inputDims) image.get (addPatches s patches).get :=
  (pairing_patchMatrix s image patches.get).trans (pairing_addPatches s image patches).symm

end Kernel

end

end NeuralGraph
