import LayerNet.Operation.Routing
import LayerNet.Proofs.Addressing

/-!
# Routed contents — the results of an operation that only moves elements

What a routing gives is told by its map of sources alone (`Routing.compute_eq_ok_iff`): each result
is a content made of the elements gathered along it, as many as the shape asks for. A view moves
nothing, so the result has the operand's buffer (`Content.reshaped_eq_ok_iff`).
-/

namespace LayerNet

/-- Contents can only be made where there is one element for each position. -/
theorem Content.elements_of_make {values : Buffer} {shape : Shape} {c : Content}
    (made : make values shape = .ok c) :
    shape.elements = .ok values.size ∧ values.size = shape.prod := by
  obtain ⟨-, -, -, elements, -⟩ := Content.of_make_eq_ok made
  exact ⟨elements, Size.product_eq_ok elements⟩

namespace Routing

theorem results_eq_ok_iff {r : Routing} {inputs outputs : List Content} {shapes : List Shape} :
    r.results inputs shapes = .ok outputs ↔ List.Forall₂ (fun (s : Shape × Nat) output =>
      Content.make (gather (inputs.map Content.values) s.1.prod (r.source s.2)) s.1 = .ok output)
      shapes.zipIdx outputs := by
  have one (s : Shape × Nat) (output : Content) : (do
      Content.make (gather (inputs.map Content.values) (← Shape.elements s.1) (r.source s.2)) s.1
        : Checked Content) = .ok output
      ↔ Content.make (gather (inputs.map Content.values) s.1.prod (r.source s.2)) s.1
        = .ok output := by
    rw [Outcome.bind_eq_ok_iff]
    constructor
    · rintro ⟨count, elements, made⟩
      rwa [← Size.product_eq_ok elements]
    · intro made
      have elements := (Content.elements_of_make made).1
      rw [gather, Buffer.size_tabulate] at elements
      exact ⟨_, elements, made⟩
  unfold results
  rw [Outcome.mapM_eq_ok_iff]
  exact ⟨fun pairs => pairs.imp fun s o => (one s o).mp,
    fun pairs => pairs.imp fun s o => (one s o).mpr⟩

theorem compute_eq_ok_iff {r : Routing} {inputs : List Content} {shapes : List Shape}
    {c : Computed} : r.compute inputs shapes = .ok c ↔ ∃ outputs, c = ⟨outputs, r.rule, false⟩
      ∧ List.Forall₂ (fun (s : Shape × Nat) output =>
        Content.make (gather (inputs.map Content.values) s.1.prod (r.source s.2)) s.1 = .ok output)
        shapes.zipIdx outputs := by
  unfold compute
  rw [Outcome.bind_eq_ok_iff]
  simp only [results_eq_ok_iff]
  constructor
  · rintro ⟨outputs, made, same⟩
    cases same
    exact ⟨outputs, rfl, made⟩
  · rintro ⟨outputs, rfl, made⟩
    exact ⟨outputs, made, rfl⟩

/-- A routing with one result. -/
theorem compute_one_eq_ok_iff {r : Routing} {inputs : List Content} {shape : Shape}
    {c : Computed} : r.compute inputs [shape] = .ok c ↔ ∃ output, c = ⟨[output], r.rule, false⟩
      ∧ Content.make (gather (inputs.map Content.values) shape.prod (r.source 0)) shape
        = .ok output := by
  rw [compute_eq_ok_iff]
  constructor
  · rintro ⟨outputs, rfl, made⟩
    rcases made with _ | ⟨made, _ | _⟩
    exact ⟨_, rfl, made⟩
  · rintro ⟨output, rfl, made⟩
    exact ⟨[output], rfl, .cons made .nil⟩

/-- Where every element stays in place, the buffer stays. -/
theorem gather_identity (b : Buffer) : gather [b] b.size (identity.source 0) = b := by
  ext i small others
  · exact Buffer.size_tabulate _ _
  · rw [gather, Buffer.size_tabulate] at small
    simp [gather, identity, Buffer.tabulate, Buffer.element, others]

end Routing

namespace Content

variable {x : Content} {c : Computed}

theorem copy_eq_ok_iff (count : x.count = x.shape.prod) : x.copy = .ok c ↔
    ∃ output, c = ⟨[output], Routing.identity.rule, false⟩
      ∧ make x.values x.shape = .ok output := by
  have stays : Routing.gather [x.values] x.shape.prod (Routing.identity.source 0) = x.values := by
    rw [← count]
    exact Routing.gather_identity x.values
  unfold copy
  rw [Routing.compute_one_eq_ok_iff, List.map_singleton, stays]

theorem reshaped_eq_ok_iff {shape : Shape} : x.reshaped shape = .ok c ↔
    ∃ output, c = ⟨[output], Routing.identity.rule, true⟩ ∧ make x.values shape = .ok output := by
  unfold reshaped view
  simp only [Outcome.bind_eq_ok_iff]
  constructor
  · rintro ⟨_, -, count, elements, rest⟩
    split at rest
    · cases rest
    next same =>
      obtain ⟨computed, moved, rest⟩ := Outcome.bind_eq_ok_iff.mp rest
      obtain ⟨output, rfl, made⟩ := Routing.compute_one_eq_ok_iff.mp moved
      cases rest
      have whole : shape.prod = x.values.size := by
        rw [← Size.product_eq_ok elements]
        exact Classical.not_not.mp same
      rw [List.map_singleton, whole, Routing.gather_identity] at made
      exact ⟨output, rfl, made⟩
  · rintro ⟨output, rfl, made⟩
    obtain ⟨elements, whole⟩ := elements_of_make made
    have valid := (of_make_eq_ok made).2.2.1
    refine ⟨(), (Shape.validate_eq_ok_iff shape).mpr valid, _, elements, ?_⟩
    rw [if_neg (fun different : x.values.size ≠ x.count => different rfl)]
    refine Outcome.bind_eq_ok_iff.mpr ⟨_, Routing.compute_one_eq_ok_iff.mpr ⟨output, rfl, ?_⟩, rfl⟩
    rw [List.map_singleton, ← whole, Routing.gather_identity]
    exact made

end Content

end LayerNet
