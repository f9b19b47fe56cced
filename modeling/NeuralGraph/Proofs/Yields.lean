import Mathlib.Data.List.Forall2
import Mathlib.Order.Defs.Unbundled

/-!
# Computations that may fail

`Yields x s b s'`: from the state `s` the computation `x` succeeds with `b` and leaves the state
`s'`.  `Leads R x`: whatever comes out of `x`, the state that it leaves is related to the one that it
found.  `Coupled Q x s y t`: from `s` and `t` both computations succeed, with results and states in
the relation `Q`, or both fail.  `Echoes R x`: from related states `x` has one outcome.  The laws below
take a computation apart into its steps, so that no proof opens the monad.
-/

namespace NeuralGraph
set_option autoImplicit false
variable {ε σ β γ : Type}

theorem exists_eq_ok {r : Except ε β} (h : r.isOk = true) : ∃ b, r = .ok b := by
  cases r with
  | error e => cases h
  | ok b => exact ⟨b, rfl⟩

theorem eq_ok_of_isOk {r : Except ε Unit} (h : r.isOk = true) : r = .ok () := by
  obtain ⟨_, rfl⟩ := exists_eq_ok h
  rfl

theorem exists_of_map_eq_ok {x : Except ε β} {f : β → γ} {c : γ} (h : x.map f = .ok c) :
    ∃ b, x = .ok b ∧ f b = c := by
  cases x with
  | error e => cases h
  | ok b => exact ⟨b, rfl, Except.ok.inj h⟩

theorem mapM_eq_ok_of_forall₂ {f : β → Except ε γ} {bs : List β} {cs : List γ}
    (h : List.Forall₂ (fun (b : β) (c : γ) => f b = .ok c) bs cs) : bs.mapM f = .ok cs := by
  induction h with
  | nil => rfl
  | cons hb _ ih =>
    rw [List.mapM_cons, hb, ih]
    rfl

theorem forall₂_of_mapM_eq_ok {f : β → Except ε γ} {bs : List β} {cs : List γ}
    (h : bs.mapM f = .ok cs) : List.Forall₂ (fun (b : β) (c : γ) => f b = .ok c) bs cs := by
  induction bs generalizing cs with
  | nil =>
    cases h
    exact .nil
  | cons b bs ih =>
    rw [List.mapM_cons] at h
    cases hb : f b with
    | error e => simp [hb, bind, Except.bind] at h
    | ok c =>
      cases hr : bs.mapM f with
      | error e => simp [hb, hr, bind, Except.bind] at h
      | ok rest =>
        simp only [hb, hr, bind, Except.bind, pure, Except.pure, Except.ok.injEq] at h
        subst h
        exact .cons hb (ih hr)

/-! ## Computations over a state -/

theorem run_bind (x : ExceptT ε (StateM σ) β) (f : β → ExceptT ε (StateM σ) γ) (s : σ) :
    (x >>= f).run.run s =
      match x.run.run s with
      | (.ok b, s₁) => (f b).run.run s₁
      | (.error e, s₁) => (.error e, s₁) := by
  simp only [ExceptT.run_bind, StateT.run_bind]
  generalize x.run.run s = r
  obtain ⟨r, s₁⟩ := r
  cases r <;> rfl

/-- From `s` the computation succeeds with `b` and leaves `s'`. -/
def Yields (x : ExceptT ε (StateM σ) β) (s : σ) (b : β) (s' : σ) : Prop :=
  x.run.run s = (.ok b, s')

theorem exists_yields {x : ExceptT ε (StateM σ) β} {s : σ} (h : (x.run.run s).1.isOk = true) :
    ∃ b s', Yields x s b s' := by
  generalize run : x.run.run s = r at h
  obtain ⟨r, s'⟩ := r
  cases r with
  | error e => cases h
  | ok b => exact ⟨b, s', run⟩

@[simp] theorem yields_pure {a b : β} {s s' : σ} :
    Yields (pure a : ExceptT ε (StateM σ) β) s b s' ↔ a = b ∧ s = s' := by
  constructor
  · intro h
    cases h
    exact ⟨rfl, rfl⟩
  · rintro ⟨rfl, rfl⟩
    rfl

@[simp] theorem yields_throw {e : ε} {b : β} {s s' : σ} :
    ¬Yields (throw e : ExceptT ε (StateM σ) β) s b s' := by
  intro h
  cases h

theorem yields_bind {x : ExceptT ε (StateM σ) β} {f : β → ExceptT ε (StateM σ) γ} {s s' : σ}
    {c : γ} : Yields (x >>= f) s c s' ↔ ∃ b s₁, Yields x s b s₁ ∧ Yields (f b) s₁ c s' := by
  rw [Yields, run_bind]
  constructor
  · intro h
    generalize hx : x.run.run s = r at h
    obtain ⟨r, s₁⟩ := r
    cases r with
    | error e => cases h
    | ok b => exact ⟨b, s₁, hx, h⟩
  · rintro ⟨b, s₁, hx, hf⟩
    rw [Yields] at hx
    rw [hx]
    exact hf

theorem Yields.run_bind {x : ExceptT ε (StateM σ) β} {f : β → ExceptT ε (StateM σ) γ} {b : β}
    {s s' : σ} (h : Yields x s b s') : (x >>= f).run.run s = (f b).run.run s' := by
  rw [NeuralGraph.run_bind, show x.run.run s = _ from h]

@[simp] theorem yields_mapM_nil {f : β → ExceptT ε (StateM σ) γ} {s s' : σ} {cs : List γ} :
    Yields (List.mapM f []) s cs s' ↔ [] = cs ∧ s = s' := by
  rw [List.mapM_nil, yields_pure]

theorem yields_mapM_cons {f : β → ExceptT ε (StateM σ) γ} {b : β} {bs : List β} {s s' : σ}
    {cs : List γ} :
    Yields (List.mapM f (b :: bs)) s cs s' ↔
      ∃ c s₁ rest, Yields (f b) s c s₁ ∧ Yields (List.mapM f bs) s₁ rest s' ∧ c :: rest = cs := by
  rw [List.mapM_cons, yields_bind]
  constructor
  · rintro ⟨c, s₁, h1, h2⟩
    obtain ⟨rest, s₂, h3, h4⟩ := yields_bind.mp h2
    obtain ⟨rfl, rfl⟩ := yields_pure.mp h4
    exact ⟨c, s₁, rest, h1, h3, rfl⟩
  · rintro ⟨c, s₁, rest, h1, h2, rfl⟩
    exact ⟨c, s₁, h1, yields_bind.mpr ⟨rest, s', h2, yields_pure.mpr ⟨rfl, rfl⟩⟩⟩

@[simp] theorem yields_forM_nil {f : β → ExceptT ε (StateM σ) PUnit} {s s' : σ} {u : PUnit} :
    Yields (forM ([] : List β) f) s u s' ↔ s = s' := by
  rw [List.forM_nil, yields_pure]
  simp

theorem yields_forM_cons {f : β → ExceptT ε (StateM σ) PUnit} {b : β} {bs : List β} {s s' : σ}
    {u : PUnit} :
    Yields (forM (b :: bs) f) s u s' ↔
      ∃ s₁, Yields (f b) s ⟨⟩ s₁ ∧ Yields (forM bs f) s₁ ⟨⟩ s' := by
  rw [List.forM_cons, yields_bind]
  constructor
  · rintro ⟨_, s₁, h1, h2⟩
    exact ⟨s₁, h1, h2⟩
  · rintro ⟨s₁, h1, h2⟩
    exact ⟨_, s₁, h1, h2⟩

/-! ## Whatever comes out -/

/-- The state that the computation leaves is related to the one that it found. -/
def Leads (R : σ → σ → Prop) (x : ExceptT ε (StateM σ) β) : Prop := ∀ s, R s (x.run.run s).2

theorem Leads.of_yields {R : σ → σ → Prop} {x : ExceptT ε (StateM σ) β} {s s' : σ} {b : β}
    (leads : Leads R x) (h : Yields x s b s') : R s s' := by
  have left := leads s
  rw [Yields] at h
  rwa [h] at left

section
variable {R : σ → σ → Prop} [IsPreorder σ R]

theorem leads_pure (b : β) : Leads R (pure b : ExceptT ε (StateM σ) β) := refl_of R

theorem leads_throw (e : ε) : Leads R (throw e : ExceptT ε (StateM σ) β) := refl_of R

theorem leads_bind {x : ExceptT ε (StateM σ) β} {f : β → ExceptT ε (StateM σ) γ} (h : Leads R x)
    (h' : ∀ b, Leads R (f b)) : Leads R (x >>= f) := by
  intro s
  have first := h s
  rw [run_bind]
  generalize x.run.run s = r at first ⊢
  obtain ⟨r, s₁⟩ := r
  cases r with
  | error e => exact first
  | ok b => exact trans_of R first (h' b s₁)

theorem leads_mapM {f : β → ExceptT ε (StateM σ) γ} {bs : List β} (h : ∀ b, Leads R (f b)) :
    Leads R (bs.mapM f) := by
  induction bs with
  | nil => exact leads_pure []
  | cons b bs ih =>
    rw [List.mapM_cons]
    exact leads_bind (h b) fun _ => leads_bind ih fun _ => leads_pure _

theorem leads_forM {f : β → ExceptT ε (StateM σ) PUnit} {bs : List β} (h : ∀ b, Leads R (f b)) :
    Leads R (forM bs f) := by
  induction bs with
  | nil => exact leads_pure PUnit.unit
  | cons b bs ih =>
    rw [List.forM_cons]
    exact leads_bind (h b) fun _ => ih

end

/-! ## Two computations side by side -/

/-- Both succeed, with results in the relation `S`, or both fail. -/
inductive Together {ε ε' β γ : Type} (S : β → γ → Prop) : Except ε β → Except ε' γ → Prop
  | ok {b : β} {c : γ} : S b c → Together S (.ok b) (.ok c)
  | error {e : ε} {e' : ε'} : Together S (.error e) (.error e')

theorem Together.mapM {β' γ' : Type} {S : β' → γ' → Prop} {f : β → Except ε β'}
    {f' : γ → Except ε γ'} {bs : List β} {cs : List γ}
    (h : List.Forall₂ (fun (b : β) (c : γ) => Together S (f b) (f' c)) bs cs) :
    Together (List.Forall₂ S) (bs.mapM f) (cs.mapM f') := by
  induction h with
  | nil => exact .ok .nil
  | @cons b c bs cs first _ ih =>
    rw [List.mapM_cons, List.mapM_cons]
    generalize f b = r, f' c = r' at first
    cases first with
    | error => exact .error
    | ok first =>
      simp only [bind, Except.bind]
      generalize bs.mapM f = r, cs.mapM f' = r' at ih
      cases ih with
      | error => exact .error
      | ok rest => exact .ok (.cons first rest)

/-- From `s` and `t` both computations succeed, with results and states in the relation `Q`, or both
fail. -/
inductive Coupled (Q : β → σ → γ → σ → Prop) (x : ExceptT ε (StateM σ) β) (s : σ)
    (y : ExceptT ε (StateM σ) γ) (t : σ) : Prop
  | ok {b : β} {s' : σ} {c : γ} {t' : σ} :
    Yields x s b s' → Yields y t c t' → Q b s' c t' → Coupled Q x s y t
  | error {e e' : ε} {s' t' : σ} :
    x.run.run s = (.error e, s') → y.run.run t = (.error e', t') → Coupled Q x s y t

section
variable {β' γ' : Type} {x : ExceptT ε (StateM σ) β} {y : ExceptT ε (StateM σ) γ}
  {Q Q' : β → σ → γ → σ → Prop} {s t : σ}

theorem Coupled.imp (h : Coupled Q x s y t) (h' : ∀ b s' c t', Q b s' c t' → Q' b s' c t') :
    Coupled Q' x s y t := by
  cases h with
  | ok hx hy hq => exact .ok hx hy (h' _ _ _ _ hq)
  | error hx hy => exact .error hx hy

theorem coupled_pure {b : β} {c : γ} (h : Q b s c t) :
    Coupled Q (pure b : ExceptT ε (StateM σ) β) s (pure c) t := .ok rfl rfl h

theorem coupled_throw {e e' : ε} :
    Coupled Q (throw e : ExceptT ε (StateM σ) β) s (throw e') t := .error rfl rfl

theorem coupled_bind {R : β' → σ → γ' → σ → Prop} {f : β → ExceptT ε (StateM σ) β'}
    {f' : γ → ExceptT ε (StateM σ) γ'} (h : Coupled Q x s y t)
    (h' : ∀ b s' c t', Q b s' c t' → Coupled R (f b) s' (f' c) t') :
    Coupled R (x >>= f) s (y >>= f') t := by
  cases h with
  | ok hx hy hq =>
    rename_i b s' c t'
    cases h' b s' c t' hq with
    | ok hf hf' hr =>
      exact .ok (yields_bind.mpr ⟨b, s', hx, hf⟩) (yields_bind.mpr ⟨c, t', hy, hf'⟩) hr
    | error hf hf' =>
      rw [Yields] at hx hy
      exact .error (by rw [run_bind, hx]; exact hf) (by rw [run_bind, hy]; exact hf')
  | error hx hy =>
    exact .error (by rw [run_bind, hx]) (by rw [run_bind, hy])

end

/-! ## One outcome from related states -/

/-- From related states the computation has the same outcome, and it leaves related states. -/
def Echoes (R : σ → σ → Prop) (x : ExceptT ε (StateM σ) β) : Prop :=
  ∀ s t, R s t → (x.run.run t).1 = (x.run.run s).1 ∧ R (x.run.run s).2 (x.run.run t).2

section
variable {R : σ → σ → Prop}

theorem echoes_pure (b : β) : Echoes R (pure b : ExceptT ε (StateM σ) β) :=
  fun _ _ related => ⟨rfl, related⟩

theorem echoes_bind {x : ExceptT ε (StateM σ) β} {f : β → ExceptT ε (StateM σ) γ} (h : Echoes R x)
    (h' : ∀ b, Echoes R (f b)) : Echoes R (x >>= f) := by
  intro s t related
  obtain ⟨same, left⟩ := h s t related
  rw [run_bind, run_bind]
  generalize x.run.run s = r, x.run.run t = q at same left
  obtain ⟨r, s₁⟩ := r
  obtain ⟨q, t₁⟩ := q
  obtain rfl : q = r := same
  cases q with
  | error e => exact ⟨rfl, left⟩
  | ok b => exact h' b s₁ t₁ left

end

end NeuralGraph
