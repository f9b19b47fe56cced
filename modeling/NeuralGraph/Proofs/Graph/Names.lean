import Mathlib.Data.List.Nodup
import Mathlib.Data.List.Perm.Subperm
import NeuralGraph.Graph.Basic

/-!
# Names of nodes

Adding a node never repeats a name: the candidates for a name are one more than the nodes there are,
so one of them is free.
-/

namespace NeuralGraph
set_option autoImplicit false
variable {α : Type}

namespace Graph

/-- No two nodes share a name. -/
def DistinctNames (g : Graph α) : Prop :=
  ∀ (i j : Nat) (a b : Node α),
    g.nodes[i]? = some a → g.nodes[j]? = some b → a.name = b.name → i = j

theorem DistinctNames.empty (name : String) : (empty name : Graph α).DistinctNames := by
  intro i j a b h
  simp at h

theorem hasName_eq_true_iff {g : Graph α} {name : String} :
    g.hasName name = true ↔ ∃ n ∈ g.nodes, n.name = name := by
  simp only [hasName, find?, Option.isSome_map, Array.findIdx?_isSome, Array.any_eq_true,
    beq_iff_eq]
  constructor
  · rintro ⟨i, hi, h⟩
    exact ⟨_, Array.getElem_mem hi, h⟩
  · rintro ⟨n, hn, h⟩
    obtain ⟨i, hi, rfl⟩ := Array.getElem_of_mem hn
    exact ⟨i, hi, h⟩

/-! ## Candidates -/

theorem toString_injective {a b : Nat} (h : toString a = toString b) : a = b := by
  have digits : Nat.toDigits 10 a = Nat.toDigits 10 b := by
    rw [Nat.toString_eq_ofList_toDigits, Nat.toString_eq_ofList_toDigits] at h
    exact String.ofList_injective h
  rw [← @Nat.ofDigitChars_ten_toDigits a, digits, Nat.ofDigitChars_ten_toDigits]

theorem toString_ne_empty (a : Nat) : toString a ≠ "" := by
  intro h
  have digits : Nat.toDigits 10 a = [] := by
    rw [Nat.toString_eq_ofList_toDigits] at h
    exact String.ofList_injective h
  have zero : a = 0 := by rw [← @Nat.ofDigitChars_ten_toDigits a, digits]; rfl
  subst zero
  cases digits

theorem candidates_length (base : String) (count : Nat) :
    (candidates base count).length = count + 1 := by
  simp [candidates]

theorem candidates_nodup (base : String) (count : Nat) : (candidates base count).Nodup := by
  rw [candidates, List.nodup_cons]
  constructor
  · intro h
    obtain ⟨i, -, hi⟩ := List.mem_map.mp h
    have same : base ++ toString (i + 1) = base ++ "" := hi.trans (String.append_empty).symm
    exact toString_ne_empty _ ((String.append_right_inj base).mp same)
  · apply List.Nodup.map _ List.nodup_range
    intro i j h
    have same : i + 1 = j + 1 := toString_injective ((String.append_right_inj base).mp h)
    omega

/-! ## Fresh names -/

/-- By counting: the candidates are different and too many to be names of nodes all of them. -/
theorem exists_candidate (g : Graph α) (base : String) :
    ∃ name ∈ candidates base g.size, g.hasName name = false := by
  by_contra taken
  have all : candidates base g.size ⊆ g.nodes.toList.map Node.name := by
    intro name hname
    have has : g.hasName name = true := by
      by_contra free
      exact taken ⟨name, hname, by simpa using free⟩
    obtain ⟨n, hn, rfl⟩ := hasName_eq_true_iff.mp has
    exact List.mem_map_of_mem hn.val
  have count := (List.Nodup.subperm (candidates_nodup base g.size) all).length_le
  rw [candidates_length, List.length_map, Array.length_toList] at count
  exact absurd count (Nat.not_succ_le_self _)

theorem freshName_fresh (g : Graph α) (base : String) : g.hasName (g.freshName base) = false := by
  obtain ⟨name, hname, free⟩ := g.exists_candidate base
  rw [freshName]
  cases found : (candidates base g.size).find? fun (name : String) => !g.hasName name with
  | none =>
    have none := List.find?_eq_none.mp found name hname
    rw [free] at none
    exact absurd rfl none
  | some name =>
    rw [Option.getD_some]
    simpa using List.find?_some found

theorem DistinctNames.push {g g' : Graph α} {name : String} {kind : NodeKind α} {inputs : List Ref}
    {type : Option (TensorType α)} {id : NodeId} (distinct : g.DistinctNames)
    (h : g.push name kind inputs type = .ok (g', id)) : g'.DistinctNames := by
  obtain ⟨rfl, -⟩ := push_eq h
  have fresh : ∀ (i : Nat) (n : Node α), g.nodes[i]? = some n → n.name ≠ g.freshName name := by
    intro i n hn e
    have has := hasName_eq_true_iff.mpr ⟨n, Array.mem_of_getElem? hn, e⟩
    rw [freshName_fresh] at has
    cases has
  intro i j a b hi hj e
  simp only [Array.getElem?_push] at hi hj
  split at hi <;> split at hj
  · omega
  · cases hi
    exact absurd e.symm (fresh j b hj)
  · cases hj
    exact absurd e (fresh i a hi)
  · exact distinct i j a b hi hj e

/-! ## Other names for a graph -/

/-- The graph under another name. -/
def withName (g : Graph α) (name : String) : Graph α := { g with name := name }

/-- Nodes are added in the same way, whatever the graph is called. -/
theorem push_withName {g g' : Graph α} {name : String} {kind : NodeKind α} {inputs : List Ref}
    {type : Option (TensorType α)} {id : NodeId} (h : g.push name kind inputs type = .ok (g', id))
    (called : String) :
    (g.withName called).push name kind inputs type = .ok (g'.withName called, id) := by
  simp only [push] at h ⊢
  split at h
  · cases h
  · next arity =>
    rw [if_neg arity]
    split at h
    · cases h
    · next late =>
      have late' : (nodeInputs inputs).find?
        (fun (id : NodeId) => Nat.ble (g.withName called).size id.index) = none := late
      rw [late']
      cases h
      rfl

end Graph
end NeuralGraph
