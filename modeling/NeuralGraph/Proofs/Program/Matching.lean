import NeuralGraph.Proofs.Program.Growth
import NeuralGraph.Proofs.Program.Stepping

/-!
# Steps over matched values

Two instructions of one kind may use different activations.  Over the same weights, they are accepted
alike if their operands are matched: the same weights, or activations of one type.  If moreover the
operands that they read hold the same tensors, their steps leave the same weights, the same tensors in
what they write, and both succeed or both fail.
-/

namespace NeuralGraph
set_option autoImplicit false
variable {α : Type}

/-! ## Matched values -/

/-- Mutable locations of one type. -/
structure Location.Mates (l k : Location α) : Prop where
  left : l.isConstant = false
  right : k.isConstant = false
  type : l.type = k.type

/-- Mutable locations that hold one tensor. -/
structure Location.Copies (l k : Location α) : Prop where
  left : l.isConstant = false
  right : k.isConstant = false
  payload : l.payload = k.payload

theorem Location.Copies.mates {l k : Location α} (h : l.Copies k) : l.Mates k :=
  ⟨h.left, h.right, congrArg Tensor.type h.payload⟩

/-- One weight, or two activations whose locations are related. -/
inductive Matched (R : Location α → Location α → Prop) (a b : Arena α) : Value → Value → Prop
  | weight (id : LocationId) : Matched R a b (.weight id) (.weight id)
  | activation {i j : LocationId} {l k : Location α} :
    a.get? i = some l → b.get? j = some k → R l k → Matched R a b (.activation i) (.activation j)

namespace Matched
variable {R S : Location α → Location α → Prop} {a b a' b' : Arena α} {v w : Value}

theorem imp (h : Matched R a b v w) (h' : ∀ l k, R l k → S l k) : Matched S a b v w := by
  cases h with
  | weight id => exact .weight id
  | activation hl hk r => exact .activation hl hk (h' _ _ r)

theorem flip (h : Matched Location.Mates a b v w) : Matched Location.Mates b a w v := by
  cases h with
  | weight id => exact .weight id
  | activation hl hk mates => exact .activation hk hl ⟨mates.right, mates.left, mates.type.symm⟩

theorem mono (h : Matched Location.Mates a b v w) (left : a'.Covers a) (right : b'.Covers b) :
    Matched Location.Mates a' b' v w := by
  cases h with
  | weight id => exact .weight id
  | activation hl hk mates =>
    obtain ⟨l, hl', l_alike⟩ := left _ _ hl
    obtain ⟨k, hk', k_alike⟩ := right _ _ hk
    exact .activation hl' hk' ⟨l_alike.isConstant.trans mates.left,
      k_alike.isConstant.trans mates.right, l_alike.type.trans (mates.type.trans k_alike.type.symm)⟩

/-- Over the same weights, matched values are both found or both absent. -/
theorem locate {m n : Memory α} (h : Matched R m.activations n.activations v w)
    (weights : m.weights = n.weights) (refl : ∀ l, R l l) :
    Together R (m.locate v) (n.locate w) := by
  cases h with
  | weight id =>
    simp only [Memory.locate, weights]
    cases n.weights.get id with
    | ok l => exact .ok (refl l)
    | error e => exact .error
  | activation hl hk r =>
    simp only [Memory.locate, Arena.get, hl, hk]
    exact .ok r

end Matched

/-! ## Checks -/

namespace Instruction

/-- Two operands with one direction, which are matched and defined if they are read. -/
structure Agrees (m n : Memory α) (defined defined' : List LocationId) (o p : Operand) : Prop where
  direction : o.direction = p.direction
  matched : Matched Location.Mates m.activations n.activations o.value p.value
  left : o.direction.reads = true → isDefined defined o.value = true
  right : p.direction.reads = true → isDefined defined' p.value = true

theorem Agrees.flip {m n : Memory α} {defined defined' : List LocationId} {o p : Operand}
    (h : Agrees m n defined defined' o p) : Agrees n m defined' defined p o :=
  ⟨h.direction.symm, h.matched.flip, h.right, h.left⟩

theorem OperandFits.agree {kind : Opcode α} {m n : Memory α} {defined defined' : List LocationId}
    {o p : Operand} {l : Location α} (weights : m.weights = n.weights)
    (agrees : Agrees m n defined defined' o p) (fits : OperandFits kind m defined o l) :
    ∃ k, OperandFits kind n defined' p k ∧ k.type = l.type := by
  obtain ⟨direction, matched, -, right⟩ := agrees
  obtain ⟨located, -, writable⟩ := fits
  obtain ⟨v, d⟩ := o
  obtain ⟨w, d'⟩ := p
  obtain rfl : d = d' := direction
  cases matched with
  | weight id =>
    refine ⟨l, ⟨?_, right, fun hw hc => ?_⟩, rfl⟩
    · simpa only [Memory.locate?, weights] using located
    · obtain ⟨-, activation, -⟩ := writable hw hc
      cases activation
  | activation hl hk mates =>
    rename_i k
    obtain rfl := Option.some.inj (hl.symm.trans located)
    refine ⟨k, ⟨hk, right, fun _ hc => ?_⟩, mates.type.symm⟩
    rw [mates.right] at hc
    cases hc

theorem operands_agree {kind : Opcode α} {m n : Memory α} {defined defined' : List LocationId}
    {os ps : List Operand} {ls : List (Location α)} (weights : m.weights = n.weights)
    (agree : List.Forall₂ (Agrees m n defined defined') os ps)
    (fit : List.Forall₂ (OperandFits kind m defined) os ls) :
    ∃ ks, List.Forall₂ (OperandFits kind n defined') ps ks ∧
      ks.map Location.type = ls.map Location.type ∧
      ps.map Operand.direction = os.map Operand.direction := by
  induction agree generalizing ls with
  | nil =>
    cases fit
    exact ⟨[], .nil, rfl, rfl⟩
  | cons first _ ih =>
    cases fit with
    | cons fits rest =>
      obtain ⟨k, hk, type⟩ := fits.agree weights first
      obtain ⟨ks, all, types, directions⟩ := ih rest
      exact ⟨k :: ks, .cons hk all, by rw [List.map_cons, List.map_cons, type, types],
        by rw [List.map_cons, List.map_cons, directions, first.direction]⟩

variable [Scalar α]

/-- Instructions whose operands agree are accepted alike. -/
theorem check_agree {i j : Instruction α} {m n : Memory α} {defined defined' : List LocationId}
    (kind : i.kind = j.kind) (weights : m.weights = n.weights)
    (agree : List.Forall₂ (Agrees m n defined defined') i.operands j.operands)
    (h : i.check m defined = .ok ()) : j.check n defined' = .ok () := by
  obtain ⟨ls, directions, operands, signature⟩ := check_eq_ok_iff.mp h
  obtain ⟨ks, fit, types, same⟩ := operands_agree weights agree operands
  refine check_eq_ok_iff.mpr ⟨ks, ?_, kind ▸ fit, ?_⟩
  · rw [same, directions, kind]
  · rw [← kind, types]
    exact signature

theorem check_together {i j : Instruction α} {m n : Memory α} {defined defined' : List LocationId}
    (kind : i.kind = j.kind) (weights : m.weights = n.weights)
    (agree : List.Forall₂ (Agrees m n defined defined') i.operands j.operands) :
    Together (fun _ _ => True) (i.check m defined) (j.check n defined') := by
  cases hi : i.check m defined with
  | ok u =>
    rw [check_agree kind weights agree hi]
    exact .ok trivial
  | error e =>
    cases hj : j.check n defined' with
    | ok u =>
      have flipped := List.Forall₂.flip (agree.imp fun _ _ h => h.flip)
      rw [check_agree kind.symm weights.symm flipped hj] at hi
      cases hi
    | error e' => exact .error

/-! ## Steps -/

/-- What storing one tensor in matched locations leaves: the same weights, the locations copies of
each other, and so all others that were. -/
structure Kept (m n m' n' : Memory α) (v w : Value) : Prop where
  weights : m'.weights = n'.weights
  stored : Matched Location.Copies m'.activations n'.activations v w
  others : ∀ x y, Matched Location.Copies m.activations n.activations x y → (x = v ↔ y = w) →
    Matched Location.Copies m'.activations n'.activations x y

theorem store_together {i j : Instruction α} {m n : Memory α} {v w : Value}
    (kind : i.kind = j.kind) (weights : m.weights = n.weights)
    (target : Matched Location.Mates m.activations n.activations v w) (a : PlacedArray α) :
    Together (fun m' n' => Kept m n m' n' v w) (i.store m v a) (j.store n w a) := by
  cases target with
  | weight id =>
    simp only [store, kind, Memory.locate, weights]
    cases n.weights.get id with
    | error e => exact .error
    | ok l =>
      simp only [bind, Except.bind]
      split
      · exact .error
      · split
        · refine .ok ⟨?_, .weight id, fun x y h _ => h⟩
          simp only [Memory.put, weights]
        · exact .error
  | activation hl hk mates =>
    rename_i p q l k
    have left : m.locate (.activation p) = .ok l := Memory.locate_eq_ok_iff.mpr hl
    have right : n.locate (.activation q) = .ok k := Memory.locate_eq_ok_iff.mpr hk
    simp only [store, left, right, bind, Except.bind, mates.left, mates.right, Bool.false_and,
      Bool.false_eq_true, if_false, mates.type]
    split
    · next fits =>
      have self : Matched Location.Copies
          (m.put (.activation p) { l with payload := .encoded k.type a fits }).activations
          (n.put (.activation q) { k with payload := .encoded k.type a fits }).activations
          (.activation p) (.activation q) :=
        .activation (Arena.get?_put_self _ _ (Arena.lt_size_of_get? hl))
          (Arena.get?_put_self _ _ (Arena.lt_size_of_get? hk)) ⟨mates.left, mates.right, rfl⟩
      refine .ok ⟨weights, self, fun x y h same => ?_⟩
      by_cases own : x = .activation p
      · rw [own, same.mp own]
        exact self
      · have other : y ≠ .activation q := fun e => own (same.mpr e)
        cases h with
        | weight id => exact .weight id
        | activation hx hy copies =>
          refine .activation ?_ ?_ copies
          · rw [← hx]
            exact Arena.get?_put_ne _ _ fun e => own (congrArg Value.activation e.symm)
          · rw [← hy]
            exact Arena.get?_put_ne _ _ fun e => other (congrArg Value.activation e.symm)
    · exact .error

/-- Two outcomes with the same weights, both good or both bad. -/
def SameOutcome (r s : Memory α × Option (Error α)) : Prop :=
  r.1.weights = s.1.weights ∧ r.2.isSome = s.2.isSome

theorem storeAll_together {i j : Instruction α} {m n : Memory α} (kind : i.kind = j.kind)
    (weights : m.weights = n.weights) (targets : List ((Value × Value) × PlacedArray α))
    (matched : ∀ t ∈ targets, Matched Location.Mates m.activations n.activations t.1.1 t.1.2) :
    let r := i.storeAll (targets.map fun t => (t.1.1, t.2)) m
    let s := j.storeAll (targets.map fun t => (t.1.2, t.2)) n
    SameOutcome r s ∧ (r.2 = none → ∀ x y, Matched Location.Copies m.activations n.activations x y →
      (∀ t ∈ targets, x = t.1.1 ↔ y = t.1.2) →
      Matched Location.Copies r.1.activations s.1.activations x y) := by
  induction targets generalizing m n with
  | nil => exact ⟨⟨weights, rfl⟩, fun _ x y h _ => h⟩
  | cons t targets ih =>
    have stores := store_together kind weights (matched t List.mem_cons_self) t.2
    simp only [List.map_cons, storeAll]
    cases hm : i.store m t.1.1 t.2 with
    | error e =>
      rw [hm] at stores
      generalize j.store n t.1.2 t.2 = r at stores
      cases stores
      exact ⟨⟨weights, rfl⟩, fun h => absurd h (by simp)⟩
    | ok m' =>
      rw [hm] at stores
      cases hn : j.store n t.1.2 t.2 with
      | error e =>
        rw [hn] at stores
        cases stores
      | ok n' =>
        rw [hn] at stores
        cases stores with
        | ok kept =>
          have left := (Memory.covers_iff.mp (store_covers hm)).1
          have right := (Memory.covers_iff.mp (store_covers hn)).1
          obtain ⟨outcome, copies⟩ := ih kept.weights fun u hu =>
            (matched u (List.mem_cons_of_mem _ hu)).mono left right
          refine ⟨outcome, fun done x y h same => ?_⟩
          exact copies done x y (kept.others x y h (same t List.mem_cons_self)) fun u hu =>
            same u (List.mem_cons_of_mem _ hu)

/-! ### Instructions that write one value -/

omit [Scalar α] in
/-- All instructions but updates write one value and read the others. -/
theorem layout_first {kind : Opcode α} (other : ∀ rule, kind ≠ .update rule) :
    ∃ count, kind.layout = .output :: List.replicate count .input := by
  cases kind with
  | copy => exact ⟨1, rfl⟩
  | splat value => exact ⟨0, rfl⟩
  | compute op => exact ⟨op.arity, rfl⟩
  | reshape => exact ⟨1, rfl⟩
  | update rule => exact absurd rfl (other rule)

omit [Scalar α] in
theorem ofValues_first {name : String} {kind : Opcode α} {count : Nat}
    (layout : kind.layout = .output :: List.replicate count .input) (v : Value) (xs : List Value) :
    (ofValues name kind (v :: xs)).operands =
      ⟨v, .output⟩ :: xs.map fun (x : Value) => ⟨x, .input⟩ := by
  simp only [ofValues, List.zipIdx_cons, List.map_cons, layout, List.getD_cons_zero,
    List.cons.injEq, true_and]
  apply List.ext_getElem
  · simp
  · intro i h1 h2
    simp only [List.getElem_map, List.getElem_zipIdx, Nat.zero_add, Operand.mk.injEq, true_and,
      Nat.add_comm 1 i, List.getD_cons_succ]
    rw [List.getD_eq_getElem?_getD, List.getElem?_replicate]
    split <;> rfl

/-- Of the value that is only written the results take the type alone. -/
theorem results_first {kind : Opcode α} {count : Nat}
    (layout : kind.layout = .output :: List.replicate count .input) {t u : Tensor α}
    (type : t.type = u.type) (ts : List (Tensor α)) :
    results kind (t :: ts) = results kind (u :: ts) := by
  have dims : t.dims = u.dims := congrArg TensorType.dims type
  cases kind with
  | copy => rcases ts with _ | ⟨x, _ | ⟨y, ts⟩⟩ <;> rfl
  | splat value =>
    rcases ts with _ | ⟨x, ts⟩
    · simp only [results, dims]
    · rfl
  | compute op => simp only [results, dims]
  | reshape =>
    rcases ts with _ | ⟨x, _ | ⟨y, ts⟩⟩
    · rfl
    · simp only [results, dims]
    · rfl
  | update rule => simp [Opcode.layout] at layout

theorem results_single {kind : Opcode α} {count : Nat}
    (layout : kind.layout = .output :: List.replicate count .input) {ts : List (Tensor α)}
    {arrays : List (PlacedArray α)} (h : results kind ts = .ok arrays) : ∃ a, arrays = [a] := by
  unfold results at h
  split at h
  · exact ⟨_, (Except.ok.inj h).symm⟩
  · exact ⟨_, (Except.ok.inj h).symm⟩
  · next target source =>
    obtain ⟨a, -, same⟩ := exists_of_map_eq_ok h
    exact ⟨_, same.symm⟩
  · next op target sources =>
    obtain ⟨a, -, same⟩ := exists_of_map_eq_ok h
    exact ⟨_, same.symm⟩
  · simp [Opcode.layout] at layout
  · cases h

/-- The values of an instruction with one result, in two memories: the one that it writes has
locations of one type, the others hold the same tensors. -/
structure FirstMatched (m n : Memory α) (v w : Value) (xs ys : List Value) : Prop where
  weights : m.weights = n.weights
  target : Matched Location.Mates m.activations n.activations v w
  sources : List.Forall₂ (Matched Location.Copies m.activations n.activations) xs ys

theorem evaluate_first (name name' : String) {kind : Opcode α} {count : Nat}
    (layout : kind.layout = .output :: List.replicate count .input) {m n : Memory α} {v w : Value}
    {xs ys : List Value} (matched : FirstMatched m n v w xs ys) :
    Together (fun arrays arrays' => arrays = arrays' ∧ ∃ a, arrays = [a])
      ((ofValues name kind (v :: xs)).evaluate m) ((ofValues name' kind (w :: ys)).evaluate n) := by
  have head : Together (fun (l k : Location α) => l.type = k.type) (m.locate v) (n.locate w) :=
    (matched.target.imp fun _ _ mates => mates.type).locate matched.weights fun _ => rfl
  have rest : Together (List.Forall₂ fun (l k : Location α) => l.payload = k.payload)
      ((xs.map fun (x : Value) => (⟨x, .input⟩ : Operand)).mapM fun (o : Operand) => m.locate o.value)
      ((ys.map fun (y : Value) => (⟨y, .input⟩ : Operand)).mapM
        fun (o : Operand) => n.locate o.value) := by
    refine Together.mapM ?_
    rw [List.forall₂_map_left_iff, List.forall₂_map_right_iff]
    exact matched.sources.imp fun x y h =>
      (h.imp fun _ _ copies => copies.payload).locate matched.weights fun _ => rfl
  simp only [evaluate, ofValues_first layout, List.mapM_cons]
  generalize m.locate v = r, n.locate w = r' at head
  cases head with
  | error => exact .error
  | ok type =>
    simp only [bind, Except.bind]
    generalize (xs.map fun (x : Value) => (⟨x, .input⟩ : Operand)).mapM
        (fun (o : Operand) => m.locate o.value) = r,
      (ys.map fun (y : Value) => (⟨y, .input⟩ : Operand)).mapM
        (fun (o : Operand) => n.locate o.value) = r' at rest
    cases rest with
    | error => exact .error
    | ok payloads =>
      rename_i l k ls ks
      have same : ls.map Location.payload = ks.map Location.payload := by
        clear type
        induction payloads with
        | nil => rfl
        | cons payload _ ih => rw [List.map_cons, List.map_cons, payload, ih]
      have lengths : ls.length = ks.length := List.Forall₂.length_eq payloads
      have exchanged : results kind (l.payload :: ks.map Location.payload) =
          results kind (k.payload :: ks.map Location.payload) := results_first layout type _
      have kinds : ∀ (name : String) (vs : List Value), (ofValues name kind vs).kind = kind :=
        fun _ _ => rfl
      simp only [pure, Except.pure, List.length_cons, lengths, List.map_cons, same, kinds, exchanged]
      split
      · exact .error
      · cases found : results kind (k.payload :: ks.map Location.payload) with
        | error e => exact .error
        | ok arrays => exact .ok ⟨rfl, results_single layout found⟩

omit [Scalar α] in
theorem written_first {name : String} {kind : Opcode α} {count : Nat}
    (layout : kind.layout = .output :: List.replicate count .input) (v : Value) (xs : List Value) :
    (ofValues name kind (v :: xs)).written = [v] := by
  simp only [written, ofValues_first layout]
  rw [List.filter_cons_of_pos (by rfl), List.filter_eq_nil_iff.mpr]
  · rfl
  · intro o ho
    obtain ⟨x, -, rfl⟩ := List.mem_map.mp ho
    simp [Direction.writes]

theorem step_first {name name' : String} {kind : Opcode α} {count : Nat}
    (layout : kind.layout = .output :: List.replicate count .input) {m n : Memory α} {v w : Value}
    {xs ys : List Value} (matched : FirstMatched m n v w xs ys) :
    let r := (ofValues name kind (v :: xs)).step m
    let s := (ofValues name' kind (w :: ys)).step n
    SameOutcome r s ∧ (r.2 = none → Kept m n r.1 s.1 v w) := by
  have evaluated := evaluate_first name name' layout matched
  simp only [step, written_first layout]
  generalize (ofValues name kind (v :: xs)).evaluate m = r,
    (ofValues name' kind (w :: ys)).evaluate n = r' at evaluated
  cases evaluated with
  | error => exact ⟨⟨matched.weights, rfl⟩, fun h => absurd h (by simp)⟩
  | ok arrays =>
    obtain ⟨rfl, a, rfl⟩ := arrays
    have stores := store_together (i := ofValues name kind (v :: xs))
      (j := ofValues name' kind (w :: ys)) rfl matched.weights matched.target a
    simp only [List.zip_cons_cons, List.zip_nil_right, storeAll]
    generalize (ofValues name kind (v :: xs)).store m v a = r,
      (ofValues name' kind (w :: ys)).store n w a = r' at stores
    cases stores with
    | error => exact ⟨⟨matched.weights, rfl⟩, fun h => absurd h (by simp)⟩
    | ok kept => exact ⟨⟨kept.weights, rfl⟩, fun _ => kept⟩

/-! ### Updates -/

theorem evaluate_copies {i j : Instruction α} {m n : Memory α} (kind : i.kind = j.kind)
    (weights : m.weights = n.weights)
    (operands : List.Forall₂ (fun (o p : Operand) =>
      Matched Location.Copies m.activations n.activations o.value p.value) i.operands j.operands) :
    Together Eq (i.evaluate m) (j.evaluate n) := by
  have located : Together (List.Forall₂ fun (l k : Location α) => l.payload = k.payload)
      (i.operands.mapM fun (o : Operand) => m.locate o.value)
      (j.operands.mapM fun (o : Operand) => n.locate o.value) :=
    Together.mapM (operands.imp fun _ _ h =>
      (h.imp fun _ _ copies => copies.payload).locate weights fun _ => rfl)
  simp only [evaluate]
  generalize i.operands.mapM (fun (o : Operand) => m.locate o.value) = r,
    j.operands.mapM (fun (o : Operand) => n.locate o.value) = r' at located
  cases located with
  | error => exact .error
  | ok payloads =>
    rename_i ls ks
    have same : ls.map Location.payload = ks.map Location.payload := by
      induction payloads with
      | nil => rfl
      | cons payload _ ih => rw [List.map_cons, List.map_cons, payload, ih]
    have lengths : ls.length = ks.length := List.Forall₂.length_eq payloads
    simp only [bind, Except.bind, lengths, kind, same]
    split
    · exact .error
    · cases results j.kind (ks.map Location.payload) with
      | error e => exact .error
      | ok arrays => exact .ok rfl

theorem step_update_matched (name name' : String) (rule : UpdateRule α) {m n : Memory α}
    {u g v u' g' v' : Value} (weights : m.weights = n.weights)
    (operands : List.Forall₂ (Matched Location.Copies m.activations n.activations)
      [u, g, v] [u', g', v']) :
    let r := (ofValues name (.update rule) [u, g, v]).step m
    let s := (ofValues name' (.update rule) [u', g', v']).step n
    SameOutcome r s ∧ (r.2 = none → ∀ x y, Matched Location.Copies m.activations n.activations x y →
      (x = u ↔ y = u') → (x = v ↔ y = v') →
      Matched Location.Copies r.1.activations s.1.activations x y) := by
  obtain ⟨hu, hg, hv⟩ : Matched Location.Copies m.activations n.activations u u' ∧
      Matched Location.Copies m.activations n.activations g g' ∧
      Matched Location.Copies m.activations n.activations v v' := by simpa using operands
  have evaluated := evaluate_copies (i := ofValues name (.update rule) [u, g, v])
    (j := ofValues name' (.update rule) [u', g', v']) rfl weights (.cons hu (.cons hg (.cons hv .nil)))
  have written : (ofValues name (.update rule) [u, g, v]).written = [u, v] := rfl
  have written' : (ofValues name' (.update rule) [u', g', v']).written = [u', v'] := rfl
  simp only [step, written, written']
  generalize (ofValues name (.update rule) [u, g, v]).evaluate m = r,
    (ofValues name' (.update rule) [u', g', v']).evaluate n = r' at evaluated
  cases evaluated with
  | error => exact ⟨⟨weights, rfl⟩, fun h => absurd h (by simp)⟩
  | ok same =>
    subst same
    rename_i arrays
    have pairs := storeAll_together (i := ofValues name (.update rule) [u, g, v])
      (j := ofValues name' (.update rule) [u', g', v']) rfl weights
      ([(u, u'), (v, v')].zip arrays) fun t ht => by
        rcases List.mem_pair.mp (List.of_mem_zip ht).1 with h | h
        · rw [h]
          exact hu.imp fun _ _ copies => copies.mates
        · rw [h]
          exact hv.imp fun _ _ copies => copies.mates
    have left : ([(u, u'), (v, v')].zip arrays).map (fun t => (t.1.1, t.2)) = [u, v].zip arrays := by
      rcases arrays with _ | ⟨a, _ | ⟨b, arrays⟩⟩ <;> rfl
    have right : ([(u, u'), (v, v')].zip arrays).map (fun t => (t.1.2, t.2)) = [u', v'].zip arrays := by
      rcases arrays with _ | ⟨a, _ | ⟨b, arrays⟩⟩ <;> rfl
    rw [left, right] at pairs
    refine ⟨pairs.1, fun done x y h first second => pairs.2 done x y h fun t ht => ?_⟩
    rcases List.mem_pair.mp (List.of_mem_zip ht).1 with e | e
    · rw [e]
      exact first
    · rw [e]
      exact second

end Instruction

end NeuralGraph
