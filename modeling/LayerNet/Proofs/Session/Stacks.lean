import LayerNet.Proofs.Operation.Stacks
import LayerNet.Proofs.Session.Yielding

/-!
# Stacks in a session — stacking and its inverse agree with what they are derived from

Stacking along a new axis yields what expanding every tensor at that axis and joining the results
does, and unstacking yields what splitting into parts of length one and squeezing these does. What
is unstacked is stacked to what it was (`Session.stacks_agree`). All of these end the run for tensors
with elements that are not finite, and for results with too many elements to count.
-/

namespace LayerNet

namespace Session

variable {m : Machine} {contents : List Content}

/-- Expanding finite tensors yields views of them; one that is not finite ends the run. -/
theorem expandEach_cases (regular : m.store.Regular) (recording : m.session.finalized = false)
    {xs : List TensorId} (shows : m.store.Shows xs contents) {shape : Shape}
    (alike : ∀ c ∈ contents, c.shape = shape) {axis : Nat} (inside : axis ≤ shape.rank) :
    ((∀ c ∈ contents, c.values.nonFinite? = none) → ∃ views,
      List.Forall₂ (fun c v => Content.make c.values (shape.insertIdx axis 1) = .ok v) contents views
        ∧ Yields (applyEach (.expand · axis) xs) m views)
    ∧ ((∃ c ∈ contents, c.values.nonFinite? ≠ none) → Ends (applyEach (.expand · axis) xs) m) := by
  have each (c : Content) (member : c ∈ contents) : c.expand axis
        = (fun y => ⟨[y], Routing.identity.rule, true⟩)
          <$> Content.make c.values (shape.insertIdx axis 1)
      ∧ (c.values.nonFinite? = none →
        ∃ v, Content.make c.values (shape.insertIdx axis 1) = .ok v)
      ∧ (c.values.nonFinite? ≠ none →
        Content.make c.values (shape.insertIdx axis 1) = Outcome.stop .nonFinite) := by
    obtain ⟨x, -, there⟩ := exists_rel_of_mem shows member
    obtain ⟨wf, small⟩ := Content.regular_iff.mp (regular.content there)
    obtain rfl := alike c member
    have valid := wf.valid.insertIdx inside Nat.one_pos
    have whole : List.prod (c.shape.insertIdx axis 1) = c.count := by
      rw [Shape.prod_insertIdx inside, Nat.one_mul, wf.count]
    exact ⟨Content.expand_eq wf small inside,
      Content.make_of_finite valid whole.symm (whole ▸ small),
      Content.make_of_nonFinite valid whole.symm (whole ▸ small)⟩
  refine ⟨fun finite => ?_, fun infinite => ?_⟩
  · obtain ⟨views, made, -⟩ := exists_between (Q := fun _ _ => True) <| List.forall₂_same.mpr
      fun c member => ((each c member).2.1 (finite c member)).imp fun _ made => ⟨made, trivial⟩
    refine ⟨views, made, ?_⟩
    refine yields_each recording shows (fun _ => rfl)
      (forall₂_imp_of_mem made fun c member v made x => ?_)
    exact ⟨_, (each c member).1.trans (congrArg _ made), rfl⟩
  · refine ends_each recording shows (fun _ => rfl) (fun c member => ?_) ?_
    · by_cases finite : c.values.nonFinite? = none
      · obtain ⟨v, made⟩ := (each c member).2.1 finite
        exact .inl ⟨v, fun x => ⟨_, (each c member).1.trans (congrArg _ made), rfl⟩⟩
      · exact .inr ⟨_, fun x => (each c member).1.trans (congrArg _ ((each c member).2.2 finite))⟩
    · obtain ⟨c, member, infinite⟩ := infinite
      refine ⟨c, member, .nonFinite, fun x => ?_⟩
      exact (each c member).1.trans (congrArg _ ((each c member).2.2 infinite))

/-- Stacking tensors of one shape agrees with joining them along an axis that they are given. -/
theorem stack_agrees (regular : m.store.Regular) (recording : m.session.finalized = false)
    {xs : List TensorId} (some : xs ≠ []) (shows : m.store.Shows xs contents) {shape : Shape}
    (alike : ∀ c ∈ contents, c.shape = shape) {axis : Nat} (inside : axis ≤ shape.rank) :
    Agree ((∀ c ∈ contents, c.values.nonFinite? = none) ∧ xs.length * shape.prod < Size.limit) m
      (apply (.stack xs axis))
      (do apply (.concat (← applyEach (.expand · axis) xs) axis))
      fun results => results.map Content.shape = [shape.insertIdx axis xs.length] := by
  have length : contents.length = xs.length := shows.length_eq.symm
  have some' : contents ≠ [] :=
    List.ne_nil_of_length_pos (length ▸ List.length_pos_iff.mpr some)
  have wf : ∀ c ∈ contents, c.WellFormed := shows.wellFormed regular.wellFormed
  obtain ⟨inhabited, small⟩ : 0 ∉ shape ∧ shape.prod < Size.limit := by
    obtain ⟨c, rest, rfl⟩ := List.exists_cons_of_ne_nil some'
    obtain ⟨x, -, there⟩ := exists_rel_of_mem shows List.mem_cons_self
    obtain ⟨wf, small⟩ := Content.regular_iff.mp (regular.content there)
    obtain rfl := alike c List.mem_cons_self
    exact ⟨wf.valid.2, wf.count ▸ small⟩
  obtain ⟨fits, refuses⟩ := Content.stack_cases some' inside inhabited small wf alike
  obtain ⟨expands, stops⟩ := expandEach_cases regular recording shows alike inside
  rw [length] at fits refuses
  -- the joining of views does what the stack does
  have joins {views : List Content} (made : List.Forall₂ (fun c v =>
      Content.make c.values (shape.insertIdx axis 1) = .ok v) contents views) :=
    Content.concat_expanded some' inside inhabited small alike made
  refine ⟨fun fit => ?_, fun unfit => ?_⟩
  · obtain ⟨stacked, success, shapes⟩ := fits fit
    obtain ⟨views, made, expanded⟩ := expands fit.1
    refine ⟨stacked.outputs, shapes, ?_, expanded.bind fun ids m' onward shows' => ?_⟩
    · exact yields_all recording shows (.stack · axis) (fun _ => rfl) rfl success
    · have joined := joins made
      rw [success] at joined
      obtain ⟨whole, success', outputs⟩ := except_map_eq_ok_iff.mp joined
      rw [← outputs]
      exact yields_all (onward.finalized ▸ recording) shows' (.concat · axis) (fun _ => rfl) rfl
        success'
  · obtain ⟨reason, ended⟩ := refuses unfit
    refine ⟨ends_all recording shows (.stack · axis) (fun _ => rfl) rfl ended, ?_⟩
    by_cases finite : ∀ c ∈ contents, c.values.nonFinite? = none
    · obtain ⟨views, made, expanded⟩ := expands finite
      refine expanded.bind_ends fun ids m' onward shows' => ?_
      have joined := joins made
      rw [ended] at joined
      have ended' := except_map_eq_error_iff.mp joined
      exact ends_all (onward.finalized ▸ recording) shows' (.concat · axis) (fun _ => rfl) rfl
        ended'
    · refine Ends.bind (stops ?_)
      by_contra none
      exact finite fun c member => Classical.not_not.mp fun other => none ⟨c, member, other⟩

/-- Unstacking a tensor agrees with squeezing its parts of length one. -/
theorem unstack_agrees (regular : m.store.Regular) (recording : m.session.finalized = false)
    {x : TensorId} {c : Content} (there : m.store.content? x = some c) {axis : Nat}
    (inside : axis < c.shape.rank) (rank : 2 ≤ c.shape.rank) :
    Agree (c.values.nonFinite? = none) m (apply (.unstack x axis))
      (do applyEach (.squeeze · axis) (← apply (.split x axis (.equal (c.shape.extent axis)))))
      fun members => members.map Content.shape
        = List.replicate (c.shape.extent axis) (c.shape.eraseIdx axis) := by
  obtain ⟨wf, small⟩ := Content.regular_iff.mp (regular.content there)
  obtain ⟨positive, -⟩ := Content.extent_lt wf small inside
  have admits : (Partition.equal (c.shape.extent axis)).Admits (c.shape.extent axis) :=
    ⟨positive, Nat.dvd_refl _⟩
  obtain ⟨blocks, parted, splits⟩ := Content.exists_parted wf small inside admits
  obtain ⟨unstacks, stops⟩ := Content.unstack_cases wf small inside rank
  refine ⟨fun finite => ?_, fun infinite => ?_⟩
  · obtain ⟨members, success⟩ := unstacks finite
    obtain ⟨parts, success'⟩ := Routing.compute_of_finite parted.exact parted.valid parted.small
      (List.forall_mem_singleton.mpr finite)
    rw [← splits] at success'
    refine ⟨members.outputs, ?_, ?_, ?_⟩
    · rw [Content.unstack_eq_compute wf small inside rank] at success
      exact Routing.shapes_of_compute success
    · exact yields_one recording there (.unstack x axis) rfl success
    · have parts := yields_one recording there (.split x axis (.equal (c.shape.extent axis))) rfl
        success'
      refine parts.bind fun ids m' onward shows => ?_
      refine yields_each (onward.finalized ▸ recording) shows (fun _ => rfl) ?_
      exact (Content.squeeze_split wf small inside rank success success').imp
        fun part member squeezed x => ⟨_, squeezed, rfl⟩
  · have ended := Routing.compute_of_nonFinite parted.exact parted.valid parted.small
      ⟨c, List.mem_singleton_self c, infinite⟩
    rw [← splits] at ended
    refine ⟨?_, Ends.bind ?_⟩
    · exact ends_one recording there rfl (stops infinite)
    · exact ends_one recording there rfl ended

/-- What is unstacked is stacked to the tensor that it was. -/
theorem stack_after_unstack (regular : m.store.Regular) (recording : m.session.finalized = false)
    {x : TensorId} {c : Content} (there : m.store.content? x = some c) {axis : Nat}
    (inside : axis < c.shape.rank) (rank : 2 ≤ c.shape.rank) (finite : c.values.nonFinite? = none) :
    Yields (do apply (.stack (← apply (.unstack x axis)) axis)) m [c] := by
  obtain ⟨wf, small⟩ := Content.regular_iff.mp (regular.content there)
  obtain ⟨members, success⟩ := (Content.unstack_cases wf small inside rank).1 finite
  obtain ⟨whole, success', outputs⟩ := Content.stack_unstack wf small inside rank success
  have unstacked := yields_one recording there (.unstack x axis) rfl success
  refine unstacked.bind fun ids m' onward shows => ?_
  rw [← outputs]
  exact yields_all (onward.finalized ▸ recording) shows (.stack · axis) (fun _ => rfl) rfl
    success'

/-- Stack and unstack agree with their derived forms. Along every axis of the result, stacking
tensors of one shape yields what joining them does after each was expanded at that axis. Along every
axis of a tensor of two axes or more, unstacking yields, in order, what splitting it into as many
equal parts as the axis is long does after each part was squeezed at that axis; and the members are
stacked to the tensor again. Elements that are not finite, and more elements than can be counted,
end the run either way. -/
theorem stacks_agree (regular : m.store.Regular) (recording : m.session.finalized = false) :
    (∀ (xs : List TensorId) (contents : List Content) (shape : Shape) (axis : Nat),
      xs ≠ [] → m.store.Shows xs contents → (∀ c ∈ contents, c.shape = shape) →
      axis ≤ shape.rank →
      Agree ((∀ c ∈ contents, c.values.nonFinite? = none) ∧ xs.length * shape.prod < Size.limit) m
        (apply (.stack xs axis))
        (do apply (.concat (← applyEach (.expand · axis) xs) axis))
        fun results => results.map Content.shape = [shape.insertIdx axis xs.length])
    ∧ ∀ (x : TensorId) (c : Content) (axis : Nat), m.store.content? x = some c →
      2 ≤ c.shape.rank → axis < c.shape.rank →
      Agree (c.values.nonFinite? = none) m (apply (.unstack x axis))
          (do applyEach (.squeeze · axis) (← apply (.split x axis (.equal (c.shape.extent axis)))))
          (fun members => members.map Content.shape
            = List.replicate (c.shape.extent axis) (c.shape.eraseIdx axis))
        ∧ (c.values.nonFinite? = none →
          Yields (do apply (.stack (← apply (.unstack x axis)) axis)) m [c]) :=
  ⟨fun _ _ _ _ some shows alike inside => stack_agrees regular recording some shows alike inside,
    fun _ _ _ there rank inside => ⟨unstack_agrees regular recording there inside rank,
      stack_after_unstack regular recording there inside rank⟩⟩

/-- A square stacked with itself along a new last axis, and taken apart into its columns. -/
theorem stacks_agree_square :
    (∃ results, results.map Content.shape = [[2, 2, 2]]
      ∧ Yields (apply (.stack [⟨0⟩, ⟨0⟩] (2 : Nat))) ofSquare results
      ∧ Yields (do apply (.concat (← applyEach (.expand · (2 : Nat)) [⟨0⟩, ⟨0⟩]) (2 : Nat))) ofSquare
        results)
    ∧ (∃ members, members.map Content.shape = [[2], [2]]
      ∧ Yields (apply (.unstack ⟨0⟩ (1 : Nat))) ofSquare members
      ∧ Yields (do applyEach (.squeeze · (1 : Nat)) (← apply (.split ⟨0⟩ (1 : Nat) (.equal 2))))
        ofSquare members)
    ∧ Yields (do apply (.stack (← apply (.unstack ⟨0⟩ (1 : Nat))) (1 : Nat))) ofSquare
      [⟨[2, 2], [2, 1], #[1, 2, 3, 4]⟩] := by
  obtain ⟨stacking, unstacking⟩ := stacks_agree regular_ofSquare rfl
  have finite : Buffer.nonFinite? #[1, 2, 3, 4] = none := by decide +kernel
  refine ⟨?_, ?_⟩
  · have agree := stacking [⟨0⟩, ⟨0⟩]
      [⟨[2, 2], [2, 1], #[1, 2, 3, 4]⟩, ⟨[2, 2], [2, 1], #[1, 2, 3, 4]⟩] [2, 2] 2
      (List.cons_ne_nil _ _) (.cons rfl (.cons rfl .nil)) (by simp) (by decide)
    exact agree.yields ⟨by simp [finite], by decide⟩
  · obtain ⟨agree, whole⟩ := unstacking ⟨0⟩ _ 1 rfl (by decide) (by decide)
    exact ⟨agree.yields finite, whole finite⟩

end Session

end LayerNet
