import Mathlib
import NeuralGraph.Proofs.Engine.Histories
import NeuralGraph.Proofs.Engine.Runs

/-!
# Runs in batches

A run in batches is a run for each iteration in turn.  The run of one iteration binds to every location a
tensor of its type, the slice of the given tensor whose rows it takes around the end.
-/

namespace NeuralGraph
set_option autoImplicit false
variable {α : Type} [Scalar α]

/-! ## Slices -/

namespace TensorType
variable {target source : TensorType α}

theorem acceptsRows_iff : target.acceptsRows source = true ↔
    target.dims ≠ [] ∧ source.rank = target.rank ∧ source.dims.tail = target.dims.tail ∧
      source.sameElements target = true := by
  simp [acceptsRows, and_assoc]

/-- A type that rows are accepted for is equal to itself: its scale has been compared. -/
theorem comparable_of_acceptsRows [PartialEquivBEq α] (accepts : target.acceptsRows source = true) :
    (target == target) = true := by
  obtain ⟨-, -, -, same⟩ := acceptsRows_iff.mp accepts
  simp only [sameElements, Bool.and_eq_true] at same
  exact beq_iff.mpr ⟨rfl, rfl, BEq.trans (BEq.symm same.1.2) same.1.2, rfl⟩

omit [Scalar α] in
theorem volume_dims {t : TensorType α} (h : t.dims ≠ []) : volume t.dims = t.rows * t.rowSize := by
  obtain ⟨d, dims, same⟩ := List.exists_cons_of_ne_nil h
  rw [rows, rowSize, same]
  rfl

end TensorType

namespace Tensor

/-- The elements of row `r`. -/
def row (t : Tensor α) (r : Nat) : List α :=
  (List.range t.type.rowSize).map fun (c : Nat) => t.array.get (r * t.type.rowSize + c)

/-- The `s` rows of a tensor from `start` on, counted around its end, are the rows of the slice. -/
def Slices (source : Tensor α) (start : Nat) (s : Tensor α) : Prop :=
  ∀ r < s.type.rows, s.row r = source.row ((start + r) % source.type.rows)

variable {t source s : Tensor α} {start : Nat}

theorem Slices.get (slices : source.Slices start s) (size : source.type.rowSize = s.type.rowSize)
    {r c : Nat} (hr : r < s.type.rows) (hc : c < s.type.rowSize) :
    s.array.get (r * s.type.rowSize + c) =
      source.array.get ((start + r) % source.type.rows * s.type.rowSize + c) := by
  have rows := slices r hr
  rw [row, row, size, List.map_inj_left] at rows
  exact rows c (List.mem_range.mpr hc)

theorem assign_of_slices [PartialEquivBEq α] (accepts : t.type.acceptsRows source.type = true)
    (nonempty : source.type.rows ≠ 0) (type : s.type = t.type) (slices : source.Slices start s) :
    t.assign s = t.assignRows source (start % source.type.rows) := by
  have same : (t.type == s.type) = true := by
    rw [type]
    exact TensorType.comparable_of_acceptsRows accepts
  obtain ⟨dims, -, tail, -⟩ := TensorType.acceptsRows_iff.mp accepts
  have size : source.type.rowSize = s.type.rowSize := by
    rw [type, TensorType.rowSize, TensorType.rowSize, tail]
  simp only [assign, dif_pos same, assignRows, accepts, Bool.not_true, Bool.false_eq_true, if_false,
    nonempty, refillWith, Except.ok.injEq]
  congr 1
  refine DenseArray.ext_get (s.fits.trans (congrArg TensorType.dims type)) fun i hi => ?_
  rw [s.fits, type] at hi
  rw [DenseArray.get_ofFn _ _ hi, Nat.mod_add_mod]
  rw [TensorType.volume_dims dims] at hi
  have positive : 0 < t.type.rowSize := Nat.pos_of_mul_pos_left (Nat.zero_lt_of_lt hi)
  have row := slices.get size (r := i / t.type.rowSize) (c := i % t.type.rowSize)
    (by rw [type]; exact Nat.div_lt_of_lt_mul (Nat.mul_comm _ _ ▸ hi))
    (by rw [type]; exact Nat.mod_lt _ positive)
  rw [type, Nat.div_add_mod'] at row
  exact row

/-- There is a slice of every type whose rows are as long. -/
theorem exists_slice (type : TensorType α) (dims : type.dims ≠ [])
    (size : source.type.rowSize = type.rowSize) (start : Nat) :
    ∃ s : Tensor α, s.type = type ∧ source.Slices start s := by
  refine ⟨.ofFn type fun (i : Nat) => source.array.get
    ((start + i / type.rowSize) % source.type.rows * type.rowSize + i % type.rowSize), rfl,
      fun r hr => ?_⟩
  rw [row, row, size]
  refine List.map_congr_left fun c hc => ?_
  have hc : c < type.rowSize := List.mem_range.mp hc
  have inside : r * type.rowSize + c < volume type.dims := by
    rw [TensorType.volume_dims dims]
    calc r * type.rowSize + c < (r + 1) * type.rowSize := by rw [Nat.succ_mul]; omega
      _ ≤ type.rows * type.rowSize := Nat.mul_le_mul_right _ hr
  refine (DenseArray.get_ofFn _ _ inside).trans ?_
  rw [Nat.mul_comm r, Nat.mul_add_div (Nat.zero_lt_of_lt hc), Nat.div_eq_of_lt hc, Nat.add_zero,
    Nat.mul_add_mod_self_left, Nat.mod_eq_of_lt hc]

end Tensor

/-! ## Bindings of one iteration -/

omit [Scalar α] in
theorem Arena.overwrite_congr {a : Arena α} {name : String}
    {f g : Tensor α → Except (TensorFault α) (Tensor α)}
    (h : ∀ l, a.named? name = some l → f l.payload = g l.payload) :
    a.overwrite name f = a.overwrite name g := by
  cases found : a.find? name with
  | none => simp only [overwrite, found]
  | some id =>
    obtain ⟨l, hl⟩ := find?_located found
    have same := h l (by rw [named?, found]; exact hl)
    rw [overwrite_eq found hl, overwrite_eq found hl, Location.overwrite, Location.overwrite, same]

namespace Engine
variable {e e' : Engine α} {bindings slices : List (Binding α)} {i : Nat} {mode : Mode}

/-- The tensor of the location's type for one iteration: with `n` rows in the location, its rows are
those of the given tensor from row `i * n` on, counted around its end. -/
def IsSlice (e : Engine α) (i : Nat) (b s : Binding α) : Prop :=
  s.name = b.name ∧ ∃ l, e.store.arena.named? b.name = some l ∧ s.tensor.type = l.type ∧
    b.tensor.Slices (i * l.type.rows) s.tensor

theorem exists_slices (accepted : e.checkBindings acceptsBatch bindings = .ok ()) (i : Nat) :
    ∃ slices, List.Forall₂ (e.IsSlice i) bindings slices := by
  rw [checkBindings_iff] at accepted
  induction bindings with
  | nil => exact ⟨[], .nil⟩
  | cons b rest ih =>
    obtain ⟨⟨l, named, -, accepts⟩, later⟩ := List.forall_mem_cons.mp accepted
    obtain ⟨dims, -, tail, -⟩ := TensorType.acceptsRows_iff.mp (Bool.and_eq_true_iff.mp accepts).1
    obtain ⟨s, type, slices⟩ := b.tensor.exists_slice l.type dims
      (by rw [TensorType.rowSize, TensorType.rowSize, tail]) (i * l.type.rows)
    obtain ⟨rest', all⟩ := ih later
    exact ⟨⟨b.name, s⟩ :: rest', .cons ⟨rfl, l, named, type, slices⟩ all⟩

theorem assignEach_slices [PartialEquivBEq α] (accepted : e.checkBindings acceptsBatch bindings = .ok ())
    (are : List.Forall₂ (e.IsSlice i) bindings slices) {a : Arena α} (peers : a.Peers e.store.arena) :
    a.overwriteEach (fun b old =>
        old.assignRows b.tensor (i * old.type.rows % b.tensor.type.rows)) bindings =
      a.assignEach slices := by
  rw [checkBindings_iff] at accepted
  induction are generalizing a with
  | nil => rfl
  | @cons b s rest rest' slice are ih =>
    obtain ⟨⟨l, named, -, accepts⟩, later⟩ := List.forall_mem_cons.mp accepted
    obtain ⟨name, l', named', type, slices⟩ := slice
    obtain rfl : l = l' := Option.some.inj (named.symm.trans named')
    have copies : a.overwrite b.name (fun (old : Tensor α) =>
        old.assignRows b.tensor (i * old.type.rows % b.tensor.type.rows)) =
          a.overwrite s.name fun (old : Tensor α) => old.assign s.tensor := by
      rw [name]
      refine Arena.overwrite_congr fun k hk => ?_
      have same := peers.named? b.name
      rw [hk, named] at same
      cases same with
      | some same =>
        have alike : k.payload.type = l.type := same.type
        simp only [acceptsBatch, Bool.and_eq_true, Nat.blt_eq] at accepts
        rw [← alike] at accepts slices type
        exact (Tensor.assign_of_slices accepts.1 accepts.2.ne' type slices).symm
    rw [Arena.assignEach, Arena.overwriteEach, Arena.overwriteEach, copies]
    cases done : a.overwrite s.name fun (old : Tensor α) => old.assign s.tensor with
    | error error => rfl
    | ok a' =>
      exact ih later ((Arena.overwrite_peers (fun _ _ => Tensor.assign_type) done).trans peers)

theorem checkBindings_slices [PartialEquivBEq α]
    (accepted : e.checkBindings acceptsBatch bindings = .ok ())
    (are : List.Forall₂ (e.IsSlice i) bindings slices) :
    e.checkBindings (fun (target source : TensorType α) => source == target) slices = .ok () := by
  rw [checkBindings_iff] at accepted
  rw [checkBindings_iff]
  induction are with
  | nil => exact fun _ h => absurd h List.not_mem_nil
  | cons slice are ih =>
    obtain ⟨⟨l, named, exposed, accepts⟩, later⟩ := List.forall_mem_cons.mp accepted
    obtain ⟨name, l', named', type, -⟩ := slice
    obtain rfl : l = l' := Option.some.inj (named.symm.trans named')
    refine List.forall_mem_cons.mpr ⟨⟨l, name ▸ named, exposed, ?_⟩, ih later⟩
    rw [type]
    exact TensorType.comparable_of_acceptsRows (Bool.and_eq_true_iff.mp accepts).1

/-! ## Iterations -/

/-- The second engine differs from the first one in the contents of locations and in its units. -/
structure Steady (e e' : Engine α) : Prop where
  active : e'.active = e.active
  peers : e'.store.arena.Peers e.store.arena

instance steady_isPreorder : IsPreorder (Engine α) Steady where
  refl e := ⟨rfl, .refl e.store.arena⟩
  trans _ _ _ h h' := ⟨h'.active.trans h.active, h'.peers.trans h.peers⟩

theorem steady_bindRows (i : Nat) (bindings : List (Binding α)) :
    Leads Steady (bindRows i bindings) := by
  intro e
  rw [run_bindRows]
  exact ⟨rfl, Arena.overwriteEach_peers (fun _ _ _ => Tensor.assignRows_type) bindings e.store.arena⟩

theorem steady_executeActive : Leads Steady (executeActive : Operate α Unit) := by
  intro e
  rcases after_executeActive e with same | ⟨u, ran⟩
  · rw [same]
    exact refl_of Steady e
  · rw [ran]
    refine ⟨active_ran e u _, ?_⟩
    rw [store_ran]
    exact (execute_peers u.program.instructions.toList (u.program.memory e.store.arena)).weights

theorem run_slices [PartialEquivBEq α] (active : e.active = some mode)
    (accepted : e.checkBindings acceptsBatch bindings = .ok ())
    (are : List.Forall₂ (e.IsSlice i) bindings slices) (steady : e.Steady e') :
    (run slices).run.run e' = (bindRows i bindings >>= fun _ => executeActive).run.run e' := by
  rw [run, run_bind, run_check (steady.active.trans active), checkBindings_peers _ steady.peers,
    checkBindings_slices accepted are]
  dsimp only
  rw [run_bind, run_bind, run_bindAll, run_bindRows, assignEach_slices accepted are steady.peers]

theorem runIterations_eq [PartialEquivBEq α] (active : e.active = some mode)
    (accepted : e.checkBindings acceptsBatch bindings = .ok ()) {slices : Nat → List (Binding α)}
    (count : Nat) (are : ∀ j, i ≤ j → j < i + count → List.Forall₂ (e.IsSlice j) bindings (slices j))
    (steady : e.Steady e') :
    (runIterations bindings count i).run.run e' =
      (forM (List.range' i count) fun (j : Nat) => run (slices j)).run.run e' := by
  induction count generalizing i e' with
  | zero => rfl
  | succ count ih =>
    have first := run_slices active accepted (are i (Nat.le_refl i) (by omega)) steady
    -- the slices of later iterations suit the engine that the run leaves, whose locations are the same
    have next : e.Steady ((run (slices i)).run.run e').2 := by
      rw [first]
      exact trans_of Steady steady
        (leads_bind (steady_bindRows i bindings) (fun _ => steady_executeActive) e')
    have split : runIterations bindings (count + 1) i =
        (bindRows i bindings >>= fun _ => executeActive) >>= fun _ =>
          runIterations bindings count (i + 1) := by
      rw [bind_assoc]
      rfl
    rw [List.range'_succ, List.forM_cons, split, run_bind, ← first, run_bind]
    generalize (run (slices i)).run.run e' = r at next
    obtain ⟨result, e''⟩ := r
    cases result with
    | error error => rfl
    | ok _ => exact ih (fun j low high => are j (by omega) (by omega)) next

/-- A run in batches whose bindings are accepted is a run with the slices of each iteration in turn, up to
the first that fails.  There are slices for every iteration. -/
theorem runBatches_eq [PartialEquivBEq α] (active : e.active = some mode)
    (accepted : e.checkBindings acceptsBatch bindings = .ok ()) (count : Nat) :
    (∀ i, ∃ slices, List.Forall₂ (e.IsSlice i) bindings slices) ∧
      ∀ slices : Nat → List (Binding α),
        (∀ i < count, List.Forall₂ (e.IsSlice i) bindings (slices i)) →
          (runBatches count bindings).run.run e =
            (forM (List.range count) fun (i : Nat) => run (slices i)).run.run e := by
  refine ⟨exists_slices accepted, fun slices are => ?_⟩
  rw [runBatches, run_bind, List.range_eq_range']
  simp only [ask, run_carry, active, Option.isNone_some, Bool.false_eq_true, if_false, accepted]
  exact runIterations_eq active accepted count (fun j _ high => are j (by omega)) (refl_of Steady e)

end Engine

/-! ## A tally -/

section
open Engine

/-- A unit that adds rows to a total, two at a time. -/
def tallyEngine : Engine Int :=
  let declare (name : String) : Operate Int VarId :=
    build (Build.newVariable name (.float [2, 1]) .exposed .untrained)
  (ofModule (.ofSeed 0)).after (build (Build.attempt fun (m : Module Int) => m.addGraph "tally"))
    |>.after (declare "x")
    |>.after (declare "total")
    |>.after (build (Build.binary ⟨0⟩ "sum" .add (.var ⟨0⟩) (.var ⟨1⟩)))
    |>.after (build (Build.saveTo ⟨0⟩ "store" (.node ⟨0⟩) ⟨1⟩))
    |>.after (compile .infer ⟨0⟩)

def tallyBindings : List (Binding Int) := [⟨"x", .ofFn (.float [3, 1]) fun (i : Nat) => (i : Int) + 1⟩]

/-- What an engine has in the total. -/
def tallied (e : Engine Int) : Option (Array Int) := (e.read "total").toOption.map Tensor.data

/-- Of the three rows, two iterations take the first two, and the third with the first. -/
theorem tallyEngine_runBatches : tallyEngine.active = some .infer ∧
    ∃ slices : Nat → List (Binding Int),
      (∀ i, List.Forall₂ (tallyEngine.IsSlice i) tallyBindings (slices i)) ∧
      (runBatches 2 tallyBindings).run.run tallyEngine =
        (forM (List.range 2) fun (i : Nat) => run (slices i)).run.run tallyEngine ∧
      tallied (tallyEngine.after (runBatches 2 tallyBindings)) = some #[4, 3] := by
  have active : tallyEngine.active = some .infer := by decide +kernel
  have accepted : tallyEngine.checkBindings acceptsBatch tallyBindings = .ok () :=
    eq_ok_of_isOk (by decide +kernel)
  obtain ⟨exist, equal⟩ := runBatches_eq active accepted 2
  choose slices are using exist
  exact ⟨active, slices, are, equal slices fun i _ => are i, by decide +kernel⟩

end
end NeuralGraph
