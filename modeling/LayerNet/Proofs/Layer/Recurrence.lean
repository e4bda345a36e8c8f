import LayerNet.Proofs.Layer.Forward
import LayerNet.Proofs.Operation.Recurrence
import LayerNet.Proofs.Session.Computing
import LayerNet.Proofs.Session.Operands

/-!
# Recurrent layers — unrolled, they are the recurrence

A recurrent layer takes the frames of a batch apart, runs five operations on each, from a state of
zeros on, and stacks the states. What it gives is the recurrence (`Layer.recurrent_recurs`), in spite
of the changes of shape in between: the frames are flattened and come out sample by sample
(`Recurrence.element_frame`), the loop goes from state to state (`Layer.hinges_states`, by induction
on the frames), and the stack has the states after each step, for each sample
(`Recurrence.element_sequence`).
-/

namespace LayerNet

namespace Recurrence

variable (r : Recurrence)

/-- On the way from one state to the next all is finite. -/
def Passes (frames : Nat → Buffer) (t : Nat) : Prop :=
  ∀ stage ∈ r.stages (frames t) (r.state frames t), stage.nonFinite? = none

/-- All that is made on the way is finite, and the first state can be made. -/
structure Runs (steps : Nat) (x : Buffer) : Prop where
  input : x.nonFinite? = none
  start : 4 * (r.batch * r.units) ≤ Size.signedMax
  passes : ∀ t < steps, r.Passes (r.frame steps x) t

/-- The parameters of the recurrence are there. -/
structure Loaded (inputWeight stateWeight bias : TensorId) (m : Machine) : Prop where
  recording : m.session.finalized = false
  inputs : m.store.Has inputWeight r.inputWeight [r.features, r.units]
  states : m.store.Has stateWeight r.stateWeight [r.units, r.units]
  biases : m.store.Has bias r.bias [r.units]

variable {r} {inputWeight stateWeight bias : TensorId} {m m' : Machine}

theorem Passes.next {frames : Nat → Buffer} {t : Nat} (passes : r.Passes frames t) :
    (r.state frames (t + 1)).nonFinite? = none :=
  passes _ (by simp [stages, state])

theorem Loaded.onward (loaded : r.Loaded inputWeight stateWeight bias m) (onward : m.Onward m') :
    r.Loaded inputWeight stateWeight bias m' where
  recording := onward.finalized.trans loaded.recording
  inputs := loaded.inputs.keeps onward.keeps
  states := loaded.states.keeps onward.keeps
  biases := loaded.biases.keeps onward.keeps

end Recurrence

/-- Zeros are made in every valid shape whose buffer can be addressed. -/
theorem Content.zeros_cases {shape : Shape} (valid : shape.IsValid) :
    (4 * shape.prod ≤ Size.signedMax → ∃ c, zeros shape = .ok c
        ∧ make (Buffer.zeros shape.prod) shape = .ok c)
      ∧ (¬4 * shape.prod ≤ Size.signedMax → ∃ reason, zeros shape = Outcome.stop reason) := by
  refine ⟨fun fits => ?_, fun large => ?_⟩
  · have small := Size.lt_limit_of_bytes fits
    have finite : (Buffer.zeros shape.prod).nonFinite? = none :=
      Buffer.nonFinite?_eq_none_iff.mpr fun i _ => by
        rw [Buffer.element_zeros]
        decide
    have elements : shape.elements = .ok shape.prod := Size.product_of_lt valid.2 small
    have fit : room shape = .ok shape.prod := by
      unfold room
      rw [elements]
      exact if_neg (Nat.not_lt.mpr fits)
    obtain ⟨c, made⟩ := make_of_finite valid (Buffer.size_zeros _) small finite
    refine ⟨c, ?_, made⟩
    unfold zeros full
    rw [(Shape.validate_eq_ok_iff shape).mpr valid, fit]
    exact made
  · have none : (room shape).Ensures fun _ => False := by
      refine (Size.product_ensures shape).bind fun n elements => ?_
      rw [elements, if_pos (Nat.not_le.mp large)]
      exact .of_overflow
    obtain ⟨reason, ended⟩ : ∃ reason, room shape = Outcome.stop reason := by
      rcases none with out | ⟨_, _, none⟩
      · exact out.elim (⟨_, ·⟩) (⟨_, ·⟩)
      · exact none.elim
    refine ⟨reason, ?_⟩
    unfold zeros full
    rw [(Shape.validate_eq_ok_iff shape).mpr valid, ended]
    rfl

namespace Layer

open Session Recurrence

variable {m : Machine} {x inputWeight stateWeight bias : TensorId} {r : Recurrence}

/-- The axes behind the leading ones are flattened, unless there is but one. -/
theorem hinges_flatten {a v : Buffer} {weight : TensorId} {leading frame : Shape} {units : Nat}
    {isFlat : Bool} (recording : m.session.finalized = false)
    (has : m.store.Has x a (leading ++ frame)) (nonempty : leading ≠ [])
    (weights : m.store.Has weight v [frame.prod, units])
    (flat : isFlat = true → frame.length = 1) :
    Hinges (isFlat = false → a.nonFinite? = none) (flatten x leading isFlat weight) m
      fun m' id => m'.store.Has id a (leading ++ [frame.prod]) := by
  have inhabited : 0 ∉ leading ++ frame := has.valid.2
  have features : 0 < frame.prod := ((Shape.isValid_cons _ _).mp weights.valid).1
  unfold flatten
  cases isFlat with
  | true =>
    obtain ⟨length, rfl⟩ := List.length_eq_one_iff.mp (flat rfl)
    rw [List.prod_singleton]
    exact (Hinges.pure has).congr (by simp)
  | false =>
    obtain ⟨c, there, -, shaped, -⟩ := weights
    have run : Hinges (a.nonFinite? = none) (do
        let features ← Step.lift (Outcome.get (← Step.tensor weight).shape.head?)
        apply1 (.reshape x (leading ++ [features]))) m
        fun m' id => m'.store.Has id a (leading ++ [frame.prod]) := by
      refine (Hinges.tensor there).after fun t m' _ given => ?_
      obtain ⟨rfl, rfl⟩ := given
      rw [shaped]
      refine hinges_reshape recording has ⟨fun empty => ?_, fun member => ?_⟩ ?_
      · exact nonempty (List.append_eq_nil_iff.mp empty).1
      · rcases List.mem_append.mp member with member | member
        · exact inhabited (List.mem_append_left frame member)
        · exact Nat.ne_of_lt features (List.mem_singleton.mp member)
      · rw [List.prod_append, List.prod_append, List.prod_singleton]
    exact run.congr (by simp)

/-- The next state is made where all that is made on the way is finite. -/
theorem hinges_nextState {frame state : TensorId} {values values' : Buffer}
    (loaded : r.Loaded inputWeight stateWeight bias m)
    (framed : m.store.Has frame values [r.batch, r.features])
    (stated : m.store.Has state values' [r.batch, r.units]) :
    Hinges (∀ stage ∈ r.stages values values', stage.nonFinite? = none)
      (nextState frame state inputWeight stateWeight bias) m
      fun m' id => m'.store.Has id (r.next values values') [r.batch, r.units] := by
  have small : r.batch * r.units < Size.limit := by simpa using stated.small
  have run : Hinges ((r.batch * r.units < Size.limit ∧ (r.fromFrame values).nonFinite? = none)
      ∧ (r.batch * r.units < Size.limit ∧ (r.fromState values').nonFinite? = none)
      ∧ (r.summed values values').nonFinite? = none ∧ (r.biased values values').nonFinite? = none
      ∧ (r.next values values').nonFinite? = none)
      (nextState frame state inputWeight stateWeight bias) m
      fun m' id => m'.store.Has id (r.next values values') [r.batch, r.units] := by
    refine (hinges_matmul framed loaded.inputs loaded.recording).bind fun p m₁ onward given => ?_
    have loaded := loaded.onward onward
    refine (hinges_matmul (stated.keeps onward.keeps) loaded.states loaded.recording).bind
      fun q m₂ onward given' => ?_
    have loaded := loaded.onward onward
    refine (hinges_add loaded.recording (given.keeps onward.keeps) given').bind
      fun sum m₃ onward summed => ?_
    have loaded := loaded.onward onward
    refine (hinges_addBias loaded.recording summed loaded.biases).bind
      fun biased m₄ onward given => ?_
    exact hinges_tanh (loaded.onward onward).recording given
  refine run.congr ?_
  simp only [Recurrence.stages, List.forall_mem_cons, List.not_mem_nil, false_imp_iff, implies_true,
    and_true, small, true_and]

/-- The states after each frame, by induction on the frames. The state goes on from frame to frame. -/
theorem hinges_states {frames : Nat → Buffer} {state : TensorId} {ids : List TensorId}
    {start count : Nat} (loaded : r.Loaded inputWeight stateWeight bias m)
    (framed : List.Forall₂ (fun id t => m.store.Has id (frames t) [r.batch, r.features]) ids
      (List.range' start count))
    (stated : m.store.Has state (r.state frames start) [r.batch, r.units]) :
    Hinges (∀ t ∈ List.range' start count, r.Passes frames t)
      (states inputWeight stateWeight bias state ids) m fun m' hs =>
        List.Forall₂ (fun id t => m'.store.Has id (r.state frames (t + 1)) [r.batch, r.units]) hs
          (List.range' start count)
        ∧ m'.store.Has (hs.getLastD state) (r.state frames (start + count)) [r.batch, r.units] := by
  induction count generalizing m state ids start with
  | zero =>
    obtain rfl := List.forall₂_nil_right_iff.mp framed
    exact (Hinges.pure ⟨.nil, stated⟩).congr (by simp)
  | succ count ih =>
    obtain ⟨first, rest, here, others, rfl⟩ := List.forall₂_cons_right_iff.mp framed
    rw [List.range'_succ]
    have run : Hinges (r.Passes frames start ∧ (∀ t ∈ List.range' (start + 1) count, r.Passes frames t)
        ∧ True) (states inputWeight stateWeight bias state (first :: rest)) m fun m' hs =>
          List.Forall₂ (fun id t => m'.store.Has id (r.state frames (t + 1)) [r.batch, r.units]) hs
            (start :: List.range' (start + 1) count)
          ∧ m'.store.Has (hs.getLastD state) (r.state frames (start + (count + 1)))
            [r.batch, r.units] := by
      refine (hinges_nextState loaded here stated).bind fun next m₁ onward given => ?_
      have others := others.imp fun _ _ has => Store.Has.keeps has onward.keeps
      refine (ih (loaded.onward onward) others given).bind fun hs m₂ onward' given' => ?_
      obtain ⟨each, last⟩ := given'
      refine .pure ⟨.cons (given.keeps onward'.keeps) each, ?_⟩
      rw [List.getLastD_cons, Nat.add_comm count, ← Nat.add_assoc]
      exact last
    refine run.congr ?_
    rw [List.forall_mem_cons, and_true]

/-- A batch of sequences is taken apart into its frames. -/
theorem hinges_frames {a : Buffer} {steps : Nat} {sequence : TensorId}
    (recording : m.session.finalized = false)
    (has : m.store.Has sequence a [r.batch, steps, r.features]) :
    Hinges (a.nonFinite? = none) (apply (.unstack sequence 1)) m fun m' ids =>
      List.Forall₂ (fun id t => m'.store.Has id (r.frame steps a t) [r.batch, r.features]) ids
        (List.range steps) := by
  have inside : 1 < Shape.rank [r.batch, steps, r.features] := Nat.lt_of_sub_eq_succ rfl
  have members := hinges_unstack recording has inside (Nat.le_add_left 2 1)
  simp only [List.eraseIdx, List.drop, List.prod_cons, List.prod_nil, Nat.mul_one] at members
  exact members

/-- The states after each step are stacked into sequences of states. -/
theorem hinges_stackStates {frames : Nat → Buffer} {steps : Nat} {hs : List TensorId}
    (recording : m.session.finalized = false) (positive : 0 < steps)
    (each : List.Forall₂ (fun id t => m.store.Has id (r.state frames (t + 1)) [r.batch, r.units]) hs
      (List.range steps)) :
    Hinges ((∀ t < steps, (r.state frames (t + 1)).nonFinite? = none)
        ∧ steps * (r.batch * r.units) < Size.limit) (apply1 (.stack hs 1)) m
      fun m' y => m'.store.Has y (r.sequence steps frames) [r.batch, steps, r.units] := by
  have inside : 1 ≤ Shape.rank [r.batch, r.units] := Nat.le_succ 1
  have whole := hinges_stack recording positive each inside
  simp only [List.insertIdx_succ_cons, List.insertIdx_zero, List.drop, List.prod_cons,
    List.prod_nil, Nat.mul_one] at whole
  exact whole

/-- What a recurrent layer gives, and what it takes to run through. -/
theorem hinges_forwardStates {a : Buffer} {steps : Nat} {frame : Shape} (summarize : Bool)
    (flat : r.features = frame.prod)
    (loaded : r.Loaded inputWeight stateWeight bias m)
    (has : m.store.Has x a (r.batch :: steps :: frame)) :
    Hinges (r.Runs steps a ∧ (summarize = false → steps * (r.batch * r.units) < Size.limit))
      (forwardStates x (steps :: frame) summarize inputWeight stateWeight bias) m fun m' ids =>
        ∃ y, ids = [y] ∧ m'.store.Has y
          (if summarize then r.state (r.frame steps a) steps else r.sequence steps (r.frame steps a))
          (r.batch :: if summarize then [r.units] else [steps, r.units]) := by
  obtain ⟨samples, sampled⟩ := (Shape.isValid_cons _ _).mp has.valid
  have positive : 0 < steps := Nat.pos_of_ne_zero fun none => sampled (none ▸ List.mem_cons_self)
  have valid : Shape.IsValid [r.batch, r.units] :=
    (Shape.isValid_cons _ _).mpr ⟨samples, loaded.biases.valid.2⟩
  have run : Hinges ((decide (Shape.rank (steps :: frame) = 2) = false → a.nonFinite? = none)
      ∧ a.nonFinite? = none ∧ 4 * (r.batch * r.units) ≤ Size.signedMax
      ∧ (∀ t ∈ List.range' 0 steps, r.Passes (r.frame steps a) t)
      ∧ (summarize = false → (∀ t < steps, (r.state (r.frame steps a) (t + 1)).nonFinite? = none)
        ∧ steps * (r.batch * r.units) < Size.limit))
      (forwardStates x (steps :: frame) summarize inputWeight stateWeight bias) m fun m' ids =>
        ∃ y, ids = [y] ∧ m'.store.Has y
          (if summarize then r.state (r.frame steps a) steps else r.sequence steps (r.frame steps a))
          (r.batch :: if summarize then [r.units] else [steps, r.units]) := by
    refine (hinges_batchSize has "recurrent").after fun n m₀ _ same => ?_
    obtain ⟨rfl, rfl⟩ := same
    have vectors : decide (Shape.rank (steps :: frame) = 2) = true → frame.length = 1 :=
      fun isFlat => Nat.succ.inj (of_decide_eq_true isFlat)
    have has : m₀.store.Has x a ([r.batch, steps] ++ frame) := has
    have sequence := hinges_flatten loaded.recording has (List.cons_ne_nil _ _)
      (flat ▸ loaded.inputs) vectors
    rw [← flat] at sequence
    refine sequence.bind fun sequence m₁ onward has => ?_
    have loaded := loaded.onward onward
    refine (hinges_frames loaded.recording has).bind fun frames m₂ onward framed => ?_
    have loaded := loaded.onward onward
    obtain ⟨c, there, regular, shaped, -⟩ := loaded.biases
    refine (Hinges.tensor there).after fun t m₃ _ given => ?_
    obtain ⟨rfl, rfl⟩ := given
    have count : t.toContent.count = r.units := by
      rw [Content.count, regular.values, shaped, List.prod_singleton]
    rw [count]
    obtain ⟨passes, ends⟩ := Content.zeros_cases valid
    rw [List.prod_cons, List.prod_singleton] at passes ends
    refine (Hinges.lift passes ends).bind fun zeros m₃ _ given => ?_
    obtain ⟨rfl, made⟩ := given
    refine (Hinges.stored (Content.wellFormed_of_make made) none).after
      fun start m₄ onward there => ?_
    have stated : m₄.store.Has start (r.state (r.frame steps a) 0) [r.batch, r.units] :=
      .of_made there made
    rw [List.range_eq_range'] at framed
    have framed := framed.imp fun _ _ has => Store.Has.keeps has onward.keeps
    have loaded := loaded.onward onward
    refine (hinges_states loaded framed stated).bind fun hs m₅ onward given => ?_
    have loaded := loaded.onward onward
    obtain ⟨each, last⟩ := given
    cases summarize with
    | true =>
      refine (Hinges.pure ⟨_, rfl, ?_⟩).congr (by simp)
      rw [Nat.zero_add] at last
      exact last
    | false =>
      rw [← List.range_eq_range'] at each
      exact ((hinges_stackStates loaded.recording positive each).map
        fun m₆ y _ has => ⟨y, rfl, has⟩).congr (by simp)
  refine run.congr ?_
  constructor
  · rintro ⟨runs, small⟩
    refine ⟨fun _ => runs.input, runs.input, runs.start, fun t member => ?_, fun full => ?_⟩
    · rw [← List.range_eq_range', List.mem_range] at member
      exact runs.passes t member
    · exact ⟨fun t step => (runs.passes t step).next, small full⟩
  · rintro ⟨-, finite, start, passes, small⟩
    refine ⟨⟨finite, start, fun t step => ?_⟩, fun full => (small full).2⟩
    rw [← List.range_eq_range'] at passes
    exact passes t (List.mem_range.mpr step)

/-- A recurrent layer is the recurrence, unrolled. Whatever the batch of sequences, the parameters
and the number of steps, it runs through where all that is made on the way is finite and can be
counted, and gives the states after each step, or the last of them. The states start from zeros and
go on from frame to frame, as the laws of the recurrence tell. So sequences that agree before a step
give the same states up to it, and the last state is the one that the layer with the same parameters
gives alone if it summarizes. -/
theorem recurrent_recurs {a : Buffer} {steps : Nat} {frame : Shape} (flat : r.features = frame.prod)
    (loaded : r.Loaded inputWeight stateWeight bias m)
    (has : m.store.Has x a (r.batch :: steps :: frame)) (shape shape' : Shape) :
    let full := recurrent (steps :: frame) shape false inputWeight stateWeight bias
    let last := recurrent (steps :: frame) shape' true inputWeight stateWeight bias
    r.Laws steps frame a
      ∧ Hinges (r.Runs steps a ∧ steps * (r.batch * r.units) < Size.limit) (full.forward [x]) m
        (fun m' ids => ∃ y, ids = [y]
          ∧ m'.store.Has y (r.sequence steps (r.frame steps a)) [r.batch, steps, r.units])
      ∧ Hinges (r.Runs steps a) (last.forward [x]) m
        (fun m' ids => ∃ y, ids = [y]
          ∧ m'.store.Has y (r.state (r.frame steps a) steps) [r.batch, r.units])
      ∧ (∀ (n : Machine) (x' : TensorId) (a' : Buffer) (t : Nat),
        r.Loaded inputWeight stateWeight bias n → n.store.Has x' a' (r.batch :: steps :: frame) →
        (∀ sample < r.batch, ∀ s < t, ∀ indices, List.Forall₂ (· < ·) indices frame →
          a.element (Shape.index (r.batch :: steps :: frame) (sample :: s :: indices))
            = a'.element (Shape.index (r.batch :: steps :: frame) (sample :: s :: indices))) →
        ∀ y m' y' n', (full.forward [x]).run m = (.ok [y], m') →
          (full.forward [x']).run n = (.ok [y'], n') →
          ∀ sample < r.batch, ∀ s < t, s < steps → ∀ unit < r.units,
            (m'.store.values y).element (Shape.index [r.batch, steps, r.units] [sample, s, unit])
              = (n'.store.values y').element
                (Shape.index [r.batch, steps, r.units] [sample, s, unit]))
      ∧ ∀ y m', (full.forward [x]).run m = (.ok [y], m') →
        ∃ z m'', (last.forward [x]).run m = (.ok [z], m'')
          ∧ ∀ sample < r.batch, ∀ unit < r.units,
            (m''.store.values z).element (sample * r.units + unit)
              = (m'.store.values y).element
                (Shape.index [r.batch, steps, r.units] [sample, steps - 1, unit]) := by
  intro full last
  have gives {n : Machine} {x' : TensorId} {a' : Buffer}
      (loaded : r.Loaded inputWeight stateWeight bias n)
      (has : n.store.Has x' a' (r.batch :: steps :: frame)) :
      Hinges (r.Runs steps a' ∧ steps * (r.batch * r.units) < Size.limit) (full.forward [x']) n
        (fun m' ids => ∃ y, ids = [y]
          ∧ m'.store.Has y (r.sequence steps (r.frame steps a')) [r.batch, steps, r.units]) :=
    (hinges_forwardStates false flat loaded has).congr (by simp)
  have summarizes : Hinges (r.Runs steps a) (last.forward [x]) m (fun m' ids => ∃ y, ids = [y]
      ∧ m'.store.Has y (r.state (r.frame steps a) steps) [r.batch, r.units]) :=
    (hinges_forwardStates true flat loaded has).congr (by simp)
  refine ⟨r.laws steps flat a, gives loaded has, summarizes, ?_, ?_⟩
  · intro n x' a' t loaded' has' agree y m' y' n' run run' sample batch s before step unit units
    obtain ⟨-, _, same, given⟩ := (gives loaded has).given run
    obtain ⟨-, _, same', given'⟩ := (gives loaded' has').given run'
    cases same
    cases same'
    have states : r.state (r.frame steps a) (s + 1) = r.state (r.frame steps a') (s + 1) :=
      state_congr fun s' earlier => frame_congr flat fun sample batch indices onAxes =>
        agree sample batch s' (Nat.lt_of_lt_of_le earlier before) indices onAxes
    rw [given.values_eq, given'.values_eq, element_sequence _ batch step units,
      element_sequence _ batch step units, states]
  · intro y m' run
    obtain ⟨⟨runs, -⟩, _, same, given⟩ := (gives loaded has).given run
    obtain ⟨_, m'', run', -, z, rfl, given'⟩ := summarizes.passes runs
    cases same
    refine ⟨z, m'', run', fun sample batch unit units => ?_⟩
    have positive : 0 < steps := Nat.pos_of_ne_zero fun none => has.valid.2 (by simp [none])
    rw [given.values_eq, given'.values_eq, element_sequence _ batch (Nat.sub_one_lt_of_lt positive) units,
      Nat.sub_add_cancel positive]

/-- A recurrence for two sequences at a time, of one feature and with one unit. -/
def oneUnit : Recurrence := ⟨2, 1, 1, #[2], #[3], #[1]⟩

/-- A machine with two sequences of two frames and the parameters of that recurrence. -/
def ofSequences : Machine :=
  { Machine.fresh with
    store := ((((Machine.fresh.store.add ⟨[2, 2, 1], [2, 1, 1], #[1, 2, 3, 4]⟩ none).2.add
      ⟨[1, 1], [1, 1], #[2]⟩ none).2.add ⟨[1, 1], [1, 1], #[3]⟩ none).2.add
        ⟨[1], [1], #[1]⟩ none).2 }

/-- The first states of the two sequences: those of their first frames, one and three. -/
theorem recurrent_recurs_pair :
    Hinges (oneUnit.Runs 2 #[1, 2, 3, 4] ∧ 2 * (2 * 1) < Size.limit)
        ((recurrent [2, 1] [2, 1] false ⟨1⟩ ⟨2⟩ ⟨3⟩).forward [⟨0⟩]) ofSequences
        (fun m' ids => ∃ y, ids = [y]
          ∧ m'.store.Has y (oneUnit.sequence 2 (oneUnit.frame 2 #[1, 2, 3, 4])) [2, 2, 1])
      ∧ (oneUnit.sequence 2 (oneUnit.frame 2 #[1, 2, 3, 4])).element 0 = Float32.tanh 3
      ∧ (oneUnit.sequence 2 (oneUnit.frame 2 #[1, 2, 3, 4])).element 2 = Float32.tanh 7 := by
  have loaded : oneUnit.Loaded ⟨1⟩ ⟨2⟩ ⟨3⟩ ofSequences :=
    ⟨rfl, ⟨_, rfl, ⟨by decide, by decide, rfl, rfl, by decide⟩, rfl, rfl⟩,
      ⟨_, rfl, ⟨by decide, by decide, rfl, rfl, by decide⟩, rfl, rfl⟩,
      ⟨_, rfl, ⟨by decide, by decide, rfl, rfl, by decide⟩, rfl, rfl⟩⟩
  have has : ofSequences.store.Has ⟨0⟩ #[1, 2, 3, 4] [2, 2, 1] :=
    ⟨_, rfl, ⟨by decide, by decide, rfl, rfl, by decide⟩, rfl, rfl⟩
  have flat : oneUnit.features = List.prod [1] := rfl
  obtain ⟨laws, full, -⟩ := recurrent_recurs flat loaded has [2, 1] [1]
  have first := (laws.sequence 0 (by decide) 0 (by decide) 0 (by decide)).trans
    (laws.next 0 0 (by decide) 0 (by decide))
  have second := (laws.sequence 1 (by decide) 0 (by decide) 0 (by decide)).trans
    (laws.next 0 1 (by decide) 0 (by decide))
  refine ⟨full, first.trans (congrArg Float32.tanh ?_), second.trans (congrArg Float32.tanh ?_)⟩
  · decide +kernel
  · decide +kernel

end Layer

end LayerNet
