import LayerNet.Layer.Build
import LayerNet.Proofs.Layer.Contract

/-!
# Building layers — what is built accepts what it was built for

A layer that was built for the shape of a sample accepts samples of that shape, and gives one tensor
(`ofUnits_yields` and the like). The parameters are new tensors in the supply's store, with the
shapes that the contract asks for; the store keeps all it had (`Building.Yields`).
-/

namespace LayerNet

namespace Building

variable {α β : Type} {s : Store}

/-- If a computation on a supply with this store succeeds, the store only evolves, and the value has
a property of the store that is left. -/
def Yields (s : Store) (x : Building α) (Q : Store → α → Prop) : Prop :=
  ∀ supply a supply', supply.store = s → x.run supply = .ok (a, supply') →
    s.Evolves supply'.store ∧ Q supply'.store a

namespace Yields

variable {Q : Store → α → Prop}

theorem pure {a : α} (fits : Q s a) : Yields s (Pure.pure a) Q := by
  intro supply _ _ same run
  cases run
  subst same
  exact ⟨.refl _, fits⟩

theorem bind {x : Building α} {f : α → Building β} {R : Store → β → Prop} (first : Yields s x Q)
    (second : ∀ s' a, s.Evolves s' → Q s' a → Yields s' (f a) R) : Yields s (x >>= f) R := by
  intro supply b supply'' same run
  rw [StateT.run_bind, Outcome.bind_eq_ok_iff] at run
  obtain ⟨⟨a, supply'⟩, run, run'⟩ := run
  obtain ⟨evolves, fits⟩ := first supply a supply' same run
  obtain ⟨evolves', fits'⟩ := second _ a evolves fits supply' b supply'' rfl run'
  exact ⟨evolves.trans evolves', fits'⟩

theorem lift (x : Checked α) : Yields s (Building.lift x) fun _ a => x = .ok a := by
  intro supply a supply' same run
  cases x with
  | error failure => cases run
  | ok a' =>
    cases run
    subst same
    exact ⟨.refl _, rfl⟩

theorem fail (cause : TensorError) : Yields s (Building.fail cause : Building α) Q :=
  fun _ _ _ _ run => nomatch run

theorem mono {x : Building α} {R : Store → α → Prop} (yields : Yields s x Q)
    (weaker : ∀ s' a, s.Evolves s' → Q s' a → R s' a) : Yields s x R := by
  intro supply a supply' same run
  obtain ⟨evolves, fits⟩ := yields supply a supply' same run
  exact ⟨evolves, weaker _ a evolves fits⟩

theorem draw (f : Generator → Checked (Content × Generator)) :
    Yields s (Building.draw f) fun _ c => ∃ words words', f words = .ok (c, words') := by
  intro supply c supply' same run
  unfold Building.draw at run
  rw [StateT.run_bind, Outcome.bind_eq_ok_iff] at run
  obtain ⟨⟨old, _⟩, got, run⟩ := run
  cases got
  rw [StateT.run_bind, Outcome.bind_eq_ok_iff] at run
  obtain ⟨⟨⟨c', words⟩, _⟩, drawn, run⟩ := run
  cases drew : f supply.words with
  | error failure =>
    rw [drew] at drawn
    cases drawn
  | ok drawing =>
    rw [drew] at drawn
    cases drawn
    cases run
    subst same
    exact ⟨.refl _, _, _, drew⟩

/-- A parameter is a new tensor. -/
theorem parameter (name : String) {c : Content} (wf : c.WellFormed) :
    Yields s (Building.parameter name c) fun s' id => s'.shape? id = some c.shape := by
  intro supply id supply' same run
  cases run
  subst same
  have adds : Store.Adds [c] supply.store [(supply.store.add c (some name)).1]
      (supply.store.add c (some name)).2 := .cons rfl rfl (.refl _)
  have new : ∀ c' ∈ [c], c'.WellFormed := fun c' member => List.mem_singleton.mp member ▸ wf
  cases Store.holds_of_adds adds with
  | cons shaped _ => exact ⟨adds.evolves new, shaped⟩

end Yields

end Building

/-! ## What is drawn -/

namespace Content

theorem of_glorot_eq_ok {shape : Shape} {fanIn fanOut : Nat} {words words' : Generator}
    {c : Content} (drawn : glorot shape fanIn fanOut words = .ok (c, words')) :
    c.shape = shape ∧ c.WellFormed := by
  obtain ⟨limit, -, drawn⟩ := Outcome.bind_eq_ok_iff.mp drawn
  obtain ⟨-, -, drawn⟩ := Outcome.bind_eq_ok_iff.mp drawn
  split at drawn
  · cases drawn
  · split at drawn
    · cases drawn
    · obtain ⟨count, -, drawn⟩ := Outcome.bind_eq_ok_iff.mp drawn
      obtain ⟨made, success, drawn⟩ := Outcome.bind_eq_ok_iff.mp drawn
      cases drawn
      exact ⟨(of_make_eq_ok success).1, wellFormed_of_make success⟩

theorem of_he_eq_ok {shape : Shape} {fanIn : Nat} {words words' : Generator} {c : Content}
    (drawn : he shape fanIn words = .ok (c, words')) : c.shape = shape ∧ c.WellFormed := by
  obtain ⟨-, -, drawn⟩ := Outcome.bind_eq_ok_iff.mp drawn
  split at drawn
  · cases drawn
  · obtain ⟨count, -, drawn⟩ := Outcome.bind_eq_ok_iff.mp drawn
    obtain ⟨made, success, drawn⟩ := Outcome.bind_eq_ok_iff.mp drawn
    cases drawn
    exact ⟨(of_make_eq_ok success).1, wellFormed_of_make success⟩

theorem of_zeros_eq_ok {shape : Shape} {c : Content} (filled : zeros shape = .ok c) :
    c.shape = shape ∧ c.WellFormed := by
  obtain ⟨-, -, filled⟩ := Outcome.bind_eq_ok_iff.mp filled
  obtain ⟨count, -, made⟩ := Outcome.bind_eq_ok_iff.mp filled
  exact ⟨(of_make_eq_ok made).1, wellFormed_of_make made⟩

end Content

theorem Building.zeros_yields {s : Store} (name : String) (shape : Shape) :
    Yields s (zeros name shape) fun s' id => s'.shape? id = some shape := by
  refine (Yields.lift _).bind fun s₁ c _ filled => ?_
  obtain ⟨rfl, wf⟩ := Content.of_zeros_eq_ok filled
  exact Yields.parameter name wf

/-! ## Layer by layer -/

namespace Layer

variable {s : Store}

/-- The layer accepts the shapes and gives one tensor. -/
def IsSingle (s : Store) (shapes : List Shape) (layer : Layer) : Prop :=
  layer.Accepts s shapes ∧ layer.outputCount = 1

theorem ofUnits_makes (shape : Shape) (units : Nat) :
    Building.Yields s (ofUnits shape units) fun s' layer => ∃ weight bias,
      layer = .fullyConnected shape [units] weight bias
        ∧ s'.shape? weight = some [shape.prod, units] ∧ s'.shape? bias = some [units] := by
  refine (Building.Yields.lift _).bind fun s₁ fanIn _ elements => ?_
  obtain rfl := Size.product_eq_ok elements
  refine (Building.Yields.draw _).bind fun s₂ weight _ drawn => ?_
  obtain ⟨words, words', drawn⟩ := drawn
  obtain ⟨shape_weight, wf_weight⟩ := Content.of_glorot_eq_ok drawn
  refine (Building.Yields.lift _).bind fun s₃ bias _ filled => ?_
  obtain ⟨shape_bias, wf_bias⟩ := Content.of_zeros_eq_ok filled
  refine (Building.Yields.parameter "fc.weight" wf_weight).bind fun s₄ weightId _ weights => ?_
  refine (Building.Yields.parameter "fc.bias" wf_bias).bind fun s₅ biasId evolves₅ biases => ?_
  rw [shape_weight] at weights
  rw [shape_bias] at biases
  exact .pure ⟨weightId, biasId, rfl, evolves₅.shape? _ _ weights, biases⟩

theorem ofUnits_yields (shape : Shape) (units : Nat) :
    Building.Yields s (ofUnits shape units) fun s' => IsSingle s' [shape] := by
  refine (ofUnits_makes shape units).mono fun s' layer _ made => ?_
  obtain ⟨weight, bias, rfl, weights, biases⟩ := made
  exact ⟨.fullyConnected weights biases, rfl⟩

theorem ofFilters_makes (shape : Shape) (filters size : Nat) (windowing : Windowing) :
    Building.Yields s (ofFilters shape filters size windowing) fun s' layer =>
      ∃ height width channels rows columns kernel bias, shape = [height, width, channels]
        ∧ layer = .convolution shape [rows, columns, filters] windowing kernel bias
        ∧ windowing.extents height width size size = (.ok (some (rows, columns)) : Checked _)
        ∧ s'.shape? kernel = some [size, size, channels, filters]
        ∧ s'.shape? bias = some [filters] := by
  unfold ofFilters
  split
  next height width channels =>
    refine (Building.Yields.lift _).bind fun s₁ windows _ counted => ?_
    cases windows with
    | none => exact .fail _
    | some windows =>
      obtain ⟨rows, columns⟩ := windows
      refine (Building.Yields.lift _).bind fun s₂ area _ _ => ?_
      refine (Building.Yields.lift _).bind fun s₃ fanIn _ _ => ?_
      refine (Building.Yields.draw _).bind fun s₄ kernel _ drawn => ?_
      obtain ⟨words, words', drawn⟩ := drawn
      obtain ⟨shape_kernel, wf⟩ := Content.of_he_eq_ok drawn
      refine (Building.Yields.parameter "conv.kernel" wf).bind fun s₅ kernelId _ weights => ?_
      refine (Building.zeros_yields "conv.bias" [filters]).bind fun s₆ biasId evolves₆ biases => ?_
      rw [shape_kernel] at weights
      exact .pure ⟨height, width, channels, rows, columns, kernelId, biasId, rfl, rfl, counted,
        evolves₆.shape? _ _ weights, biases⟩
  · exact .fail _

theorem ofFilters_yields (shape : Shape) (filters size : Nat) (windowing : Windowing) :
    Building.Yields s (ofFilters shape filters size windowing) fun s' => IsSingle s' [shape] := by
  refine (ofFilters_makes shape filters size windowing).mono fun s' layer _ made => ?_
  obtain ⟨height, width, channels, rows, columns, kernel, bias, rfl, rfl, counted, weights,
    biases⟩ := made
  exact ⟨.convolution counted weights biases, rfl⟩

theorem ofStates_makes (shape : Shape) (units : Nat) (summarize : Bool) :
    Building.Yields s (ofStates shape units summarize) fun s' layer =>
      ∃ steps frame inputWeight stateWeight bias, shape = steps :: frame ∧ frame ≠ []
        ∧ layer = .recurrent shape (if summarize then [units] else [steps, units]) summarize
          inputWeight stateWeight bias
        ∧ s'.shape? inputWeight = some [frame.prod, units]
        ∧ s'.shape? stateWeight = some [units, units] ∧ s'.shape? bias = some [units] := by
  unfold ofStates
  split
  next steps length rest =>
    refine (Building.Yields.lift _).bind fun s₁ features _ product => ?_
    obtain rfl := Size.product_eq_ok product
    refine (Building.Yields.draw _).bind fun s₂ inputWeight _ drawn => ?_
    obtain ⟨words, words', drawn⟩ := drawn
    obtain ⟨shape_input, wf_input⟩ := Content.of_glorot_eq_ok drawn
    refine (Building.Yields.parameter "rnn.input_weight" wf_input).bind
      fun s₃ inputId _ inputs => ?_
    refine (Building.Yields.draw _).bind fun s₄ stateWeight evolves₄ drawn' => ?_
    obtain ⟨words₁, words₁', drawn'⟩ := drawn'
    obtain ⟨shape_state, wf_state⟩ := Content.of_glorot_eq_ok drawn'
    refine (Building.Yields.parameter "rnn.state_weight" wf_state).bind
      fun s₅ stateId evolves₅ states => ?_
    refine (Building.zeros_yields "rnn.bias" [units]).bind fun s₆ biasId evolves₆ biases => ?_
    rw [shape_input] at inputs
    rw [shape_state] at states
    exact .pure ⟨steps, length :: rest, inputId, stateId, biasId, rfl, List.cons_ne_nil _ _, rfl,
      ((evolves₄.trans evolves₅).trans evolves₆).shape? _ _ inputs,
      evolves₆.shape? _ _ states, biases⟩
  · exact .fail _

theorem ofStates_yields (shape : Shape) (units : Nat) (summarize : Bool) :
    Building.Yields s (ofStates shape units summarize) fun s' => IsSingle s' [shape] := by
  refine (ofStates_makes shape units summarize).mono fun s' layer _ made => ?_
  obtain ⟨steps, frame, inputWeight, stateWeight, bias, rfl, nonempty, rfl, inputs, states,
    biases⟩ := made
  exact ⟨.recurrent summarize nonempty inputs states biases, rfl⟩

theorem isSingle_of_pooling {pooling : Pooling} {size : Nat} {shape : Shape} {layer : Layer}
    (success : ofPooling pooling size shape = .ok layer) : IsSingle s [shape] layer := by
  unfold ofPooling at success
  split at success
  next height width channels =>
    split at success
    · cases success
    next none =>
      cases success
      have divided := List.find?_eq_none.mp none
      have rows := divided height (by simp)
      have columns := divided width (by simp)
      simp only [Bool.or_eq_true, beq_iff_eq, bne_iff_ne, not_or, not_not] at rows columns
      exact ⟨.pool pooling rows.1 rows.2 columns.2, rfl⟩
  · cases success

theorem isSingle_of_keep {keep : Float32} {shape : Shape} {layer : Layer}
    (success : ofKeep keep shape = .ok layer) : IsSingle s [shape] layer := by
  unfold ofKeep at success
  split at success
  next probability =>
    cases success
    exact ⟨.dropout shape probability, rfl⟩
  · cases success

/-- The widths of shapes that agree with a first one are added up. -/
theorem widths_of_foldlM {first : Shape} {last start width : Nat} {rest : List Shape}
    (success : (rest.foldlM (fun width (other : Shape) => do
      if other.rank ≠ first.rank ∨ other.take last ≠ first.take last then
        Outcome.fail (.shapeMismatch first other "concat layer")
      else Size.add width other.width) start : Checked Nat) = .ok width) :
    (∀ other ∈ rest, other.rank = first.rank ∧ other.take last = first.take last)
      ∧ width = start + Size.total (rest.map Shape.width) := by
  induction rest generalizing start with
  | nil =>
    cases success
    exact ⟨fun other member => absurd member List.not_mem_nil, rfl⟩
  | cons other rest ih =>
    rw [List.foldlM_cons] at success
    obtain ⟨next, step, success⟩ := Outcome.bind_eq_ok_iff.mp success
    split at step
    · cases step
    next agrees =>
      simp only [not_or, not_not] at agrees
      obtain ⟨others, rfl⟩ := ih success
      refine ⟨fun other' member => ?_, ?_⟩
      · rcases List.mem_cons.mp member with rfl | member
        · exact agrees
        · exact others other' member
      · rw [Size.check_eq_ok step, List.map_cons, Size.total, Nat.add_assoc]

theorem isSingle_of_inputs {shapes : List Shape} {layer : Layer}
    (success : ofInputs shapes = .ok layer) : IsSingle s shapes layer := by
  unfold ofInputs at success
  split at success
  next first rest =>
    split at success
    · cases success
    next nonempty =>
      obtain ⟨width, sum, success⟩ := Outcome.bind_eq_ok_iff.mp success
      cases success
      obtain ⟨agree, rfl⟩ := widths_of_foldlM sum
      obtain ⟨init, last, rfl⟩ := (List.eq_nil_or_concat' first).resolve_left nonempty
      have rank (w : Nat) : Shape.rank (init ++ [w]) = init.length + 1 := by simp [Shape.rank]
      have joined (w : Nat) : (init ++ [last]).set init.length w = init ++ [w] := by simp
      rw [rank, Nat.add_sub_cancel, List.take_left] at agree
      rw [rank, Nat.add_sub_cancel, joined]
      refine ⟨.concat (List.cons_ne_nil _ _) (by simp) (fun other member => ?_) ?_, rfl⟩
      · rw [rank, Nat.add_sub_cancel, List.take_left]
        rcases List.mem_cons.mp member with rfl | member
        · exact ⟨rank last, List.take_left⟩
        · exact agree other member
      · rw [List.map_cons, Size.total]
        exact List.getLastD_concat.symm
  · cases success

end Layer

end LayerNet
