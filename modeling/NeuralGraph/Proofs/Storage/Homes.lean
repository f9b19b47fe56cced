import NeuralGraph.Lowering
import NeuralGraph.Proofs.Storage.Covering

/-!
# Homes of variables

A weight storage is sound if every variable that has a location has one of its own.  Allocation keeps
it sound, and keeps every location and every home that there is.
-/

namespace NeuralGraph
set_option autoImplicit false

theorem lookup_snoc {β γ : Type} [DecidableEq β] (xs : List (β × γ)) (b key : β) (c : γ) :
    (xs ++ [(key, c)]).lookup b = (xs.lookup b).or (if b = key then some c else none) := by
  rw [List.lookup_append, List.lookup_cons, List.lookup_nil]
  by_cases h : b = key
  · simp [h]
  · rw [if_neg h, beq_false_of_ne h]

theorem lookup_cons_if {β γ : Type} [DecidableEq β] (xs : List (β × γ)) (b key : β) (c : γ) :
    ((key, c) :: xs).lookup b = if b = key then some c else xs.lookup b := by
  rw [List.lookup_cons]
  by_cases h : b = key
  · simp [h]
  · rw [if_neg h, beq_false_of_ne h]

namespace WeightStorage
variable {α : Type}

/-- Homes exist, and no two variables share one. -/
structure Sound (s : WeightStorage α) : Prop where
  located : ∀ v l, s.home? v = some l → ∃ k, s.arena.get? l = some k
  separate : ∀ u v l, s.home? u = some l → s.home? v = some l → u = v

/-- Everything in `s` is still there in `s'`. -/
structure Grows (s s' : WeightStorage α) : Prop where
  homes : ∀ v l, s.home? v = some l → s'.home? v = some l
  arena : s'.arena.Covers s.arena

theorem Sound.empty : (empty : WeightStorage α).Sound := by
  constructor <;> simp [home?, WeightStorage.empty]

theorem Grows.refl (s : WeightStorage α) : s.Grows s := ⟨fun _ _ h => h, .refl _⟩

theorem Grows.trans {s t u : WeightStorage α} (h : s.Grows t) (h' : t.Grows u) : s.Grows u :=
  ⟨fun v l hl => h'.homes v l (h.homes v l hl), h'.arena.trans h.arena⟩

theorem home?_append (a : Arena α) (homes : List (VarId × LocationId)) (id v : VarId)
    (l : LocationId) :
    (⟨a, homes ++ [(id, l)]⟩ : WeightStorage α).home? v =
      (homes.lookup v).or (if v = id then some l else none) := lookup_snoc homes v id l

variable [Scalar α]

/-- What allocation does: a variable with a home keeps it, any other gets a new location that holds
the initial value. -/
theorem allocate_eq_ok_iff {s s' : WeightStorage α} {id : VarId} {v : Variable α}
    {mutability : Mutability} {l : LocationId} :
    s.allocate id v mutability = .ok (s', l) ↔
      (s.home? id = some l ∧ s' = s) ∨
      (s.home? id = none ∧ (v.initial.type == v.type) = true ∧
        ∃ a, s.arena.insert ⟨v.name, mutability, v.visibility, v.initial⟩ = .ok (a, l) ∧
          s' = ⟨a, s.homes ++ [(id, l)]⟩) := by
  simp only [allocate, Arena.createHolding]
  cases s.home? id with
  | some k =>
    constructor
    · intro h
      cases h
      exact .inl ⟨rfl, rfl⟩
    · rintro (⟨h, rfl⟩ | ⟨h, -⟩)
      · cases h
        rfl
      · cases h
  | none =>
    by_cases h : (v.initial.type == v.type) = true
    · cases s.arena.insert ⟨v.name, mutability, v.visibility, v.initial⟩ with
      | error e => simp [h, bind, Except.bind]
      | ok r =>
        simp only [h, bind, Except.bind, if_true, Except.ok.injEq, Prod.mk.injEq, reduceCtorEq,
          false_and, false_or, true_and]
        constructor
        · rintro ⟨rfl, rfl⟩
          exact ⟨r.1, rfl, rfl⟩
        · rintro ⟨a, rfl, rfl⟩
          exact ⟨rfl, rfl⟩
    · simp [h, bind, Except.bind]

theorem allocate_home {s s' : WeightStorage α} {id : VarId} {v : Variable α}
    {mutability : Mutability} {l : LocationId} (h : s.allocate id v mutability = .ok (s', l)) :
    s'.home? id = some l := by
  rcases allocate_eq_ok_iff.mp h with ⟨hl, rfl⟩ | ⟨free, -, a, -, rfl⟩
  · exact hl
  · rw [home?_append, if_pos rfl]
    rw [home?] at free
    rw [free, Option.none_or]

theorem allocate_grows {s s' : WeightStorage α} {id : VarId} {v : Variable α}
    {mutability : Mutability} {l : LocationId} (h : s.allocate id v mutability = .ok (s', l)) :
    s.Grows s' := by
  rcases allocate_eq_ok_iff.mp h with ⟨-, rfl⟩ | ⟨-, -, a, ha, rfl⟩
  · exact .refl _
  · obtain ⟨-, rfl, -⟩ := Arena.insert_eq_ok_iff.mp ha
    refine ⟨fun u k hk => ?_, Arena.covers_push s.arena _⟩
    rw [home?] at hk
    rw [home?_append, hk, Option.some_or]

theorem Sound.allocate {s s' : WeightStorage α} {id : VarId} {v : Variable α}
    {mutability : Mutability} {l : LocationId} (sound : s.Sound)
    (h : s.allocate id v mutability = .ok (s', l)) : s'.Sound := by
  rcases allocate_eq_ok_iff.mp h with ⟨-, rfl⟩ | ⟨free, -, a, ha, rfl⟩
  · exact sound
  · obtain ⟨-, rfl, rfl⟩ := Arena.insert_eq_ok_iff.mp ha
    rw [home?] at free
    -- a home in the longer list is an old one, or the new one of `id`
    have cases : ∀ u k, (⟨⟨s.arena.locations.push ⟨v.name, mutability, v.visibility, v.initial⟩⟩,
          s.homes ++ [(id, ⟨s.arena.size⟩)]⟩ : WeightStorage α).home? u = some k →
        s.home? u = some k ∨ (u = id ∧ k = ⟨s.arena.size⟩) := by
      intro u k hk
      rw [home?_append] at hk
      rcases Option.or_eq_some_iff.mp hk with hk | ⟨-, hk⟩
      · exact .inl hk
      · split at hk
        · next hu => exact .inr ⟨hu, (Option.some.inj hk).symm⟩
        · cases hk
    have old : ∀ u k, s.home? u = some k → k ≠ ⟨s.arena.size⟩ := by
      rintro u k hk rfl
      obtain ⟨p, hp⟩ := sound.located u _ hk
      exact absurd (Arena.lt_size_of_get? hp) (Nat.lt_irrefl _)
    constructor
    · intro u k hk
      rcases cases u k hk with hk | ⟨-, rfl⟩
      · obtain ⟨p, hp⟩ := sound.located u k hk
        exact ⟨p, Arena.get?_push_of_some hp⟩
      · exact ⟨_, Arena.get?_push_self s.arena _⟩
    · intro u w k hu hw
      rcases cases u k hu with hu' | ⟨rfl, rfl⟩ <;> rcases cases w _ hw with hw' | ⟨rfl, hk⟩
      · exact sound.separate u w k hu' hw'
      · exact absurd hk (old u k hu')
      · exact absurd rfl (old w _ hw')
      · rfl

end WeightStorage
end NeuralGraph
