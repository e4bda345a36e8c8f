import LayerNet.Proofs.Layer.Forward
import LayerNet.Proofs.Operation.Routed
import LayerNet.Proofs.Session.Abreast

/-!
# Layers abreast — tied tensors in, tied tensors out

Where a layer infers on some tensors, it infers on tensors that are tied to them, with the same
parameters in another store, and what it gives is tied again (`Layer.forward_follows`). This holds of
every relation that alike calls of the operations respect (`Content.Respected`), and there is one
case for each layer. A recurrent layer's states are tied one after the other, by induction on the
frames (`states_follows`).
-/

namespace LayerNet

namespace Layer

open Content Session Step

variable {R : Content → Content → Prop} (respected : Respected R) {m₁ m₂ : Machine}
  {x y : TensorId}

/-! ## What layers check and share -/

theorem onlyInput_follows {ids ids' : List TensorId} (layer : String)
    (tied : List.Forall₂ (m₁.store.Tied R m₂.store) ids ids') :
    Follows (onlyInput layer ids) m₁ (onlyInput layer ids') m₂
      fun s₁ s₂ x y => s₁.Tied R s₂ x y := by
  cases tied with
  | nil => exact .of_error
  | cons first rest =>
    cases rest with
    | nil => exact .pure first
    | cons _ _ => exact .of_error

section Samples

variable {c d : Content} (there : m₁.store.content? x = some c)
  (there' : m₂.store.content? y = some d) (related : R c d)
include respected there there' related

theorem batchSize_follows (sample : Shape) (layer : String) :
    Follows (batchSize x sample layer) m₁ (batchSize y sample layer) m₂ fun _ _ n n' =>
      n = c.shape.extent 0 ∧ n' = d.shape.extent 0 ∧ c.shape.tail = sample := by
  obtain ⟨nonempty, nonempty', tails⟩ := respected.samples c d related
  refine (Follows.tensor there there').bind fun t t' m₁' m₂' _ _ same => ?_
  dsimp only
  rw [same.1, same.2, List.drop_one, List.drop_one, ← tails]
  by_cases fits : c.shape.tail = sample
  · rw [if_pos ⟨fits, nonempty⟩, if_pos ⟨fits, nonempty'⟩]
    exact .pure ⟨rfl, rfl, fits⟩
  · rw [if_neg fun both => fits both.1]
    exact .of_error

/-- Samples under another shape; how many there are stays. -/
theorem reshape_follows {shape : Shape} (nonempty : shape ≠ []) :
    Follows (apply1 (.reshape x (c.shape.extent 0 :: shape))) m₁
      (apply1 (.reshape y (d.shape.extent 0 :: shape))) m₂ fun s₁ s₂ a b =>
        s₁.Tied R s₂ a b ∧ ∃ e, s₁.content? a = some e ∧ e.shape.rank = shape.rank + 1 := by
  have samples {s : Store} {z : TensorId} {e : Content} (there : s.content? z = some e) :
      e.shape.extent 0 = ((s.content? z).getD default).shape.extent 0 := by
    rw [operand_of_content? there]
  have tied : m₁.store.Tied R m₂.store x y := ⟨c, d, there, there', related⟩
  refine (follows_only (follows_apply_one respected rfl tied
    (.reshape (samples there) (samples there') nonempty))).and_first ?_
  intro a m₁' run
  obtain ⟨computed, e, computes, outputs, stored⟩ := of_run_apply1 run
  obtain ⟨output, rfl, made⟩ := Content.reshaped_eq_ok_iff.mp computes
  cases outputs
  exact ⟨e, stored, by rw [(Content.of_make_eq_ok made).1]; rfl⟩

/-- The samples are flat already, or they are flattened; the leading axes stay. -/
theorem flatten_follows {weight : TensorId} (shared : m₁.store.Tied Same m₂.store weight weight)
    (leading : List Nat) {isFlat : Bool}
    (flat : isFlat = true → c.shape.rank = leading.length + 2) :
    Follows (flatten x (c.shape.extent 0 :: leading) isFlat weight) m₁
      (flatten y (d.shape.extent 0 :: leading) isFlat weight) m₂ fun s₁ s₂ a b =>
        s₁.Tied R s₂ a b ∧ ∃ e, s₁.content? a = some e ∧ e.shape.rank = leading.length + 2 := by
  obtain ⟨w, _, weights, weights', rfl, -⟩ := shared
  unfold flatten
  cases isFlat with
  | true => exact .pure ⟨⟨c, d, there, there', related⟩, c, there, flat rfl⟩
  | false =>
    refine (Follows.tensor weights weights').bind fun t t' m₁' m₂' keeps keeps' same => ?_
    rw [same.1, same.2]
    refine (Follows.lift (P := Eq) fun features found => ⟨features, found, rfl⟩).bind
      fun features _ m₁'' m₂'' more more' equal => ?_
    subst equal
    have samples : leading ++ [features] ≠ [] := by simp
    have flattened := reshape_follows respected (more x c (keeps x c there))
      (more' y d (keeps' y d there')) related samples
    refine flattened.mono fun s₁ s₂ a b both => ⟨both.1, ?_⟩
    obtain ⟨e, stored, rank⟩ := both.2
    refine ⟨e, stored, ?_⟩
    rw [rank, Shape.rank, List.length_append, List.length_singleton]

end Samples

section Operations

variable (tied : m₁.store.Tied R m₂.store x y)
include respected tied

/-- Alike operations of one operand and one result. -/
theorem one_follows {op op' : Operation TensorId} (operands : op'.operands = [y])
    (alike : R ((m₁.store.content? x).getD default) ((m₂.store.content? y).getD default) →
      Operation.Alike R (operandsOf m₁.store op) (operandsOf m₂.store op')) :
    Follows (apply1 op) m₁ (apply1 op') m₂ fun s₁ s₂ x y => s₁.Tied R s₂ x y :=
  follows_only (follows_apply_one respected operands tied alike)

theorem add_follows {a b : TensorId} (other : m₁.store.Tied R m₂.store a b) :
    Follows (apply1 (.add x a)) m₁ (apply1 (.add y b)) m₂ fun s₁ s₂ x y => s₁.Tied R s₂ x y :=
  follows_only <| follows_apply respected _ _
    (List.forall_mem_cons.mpr
      ⟨tied.exists_second, List.forall_mem_singleton.mpr other.exists_second⟩)
    (.add (tied_operand tied) (tied_operand other))

section Parameter

variable {parameter : TensorId} (shared : m₁.store.Tied Same m₂.store parameter parameter)
include shared

theorem matmul_follows : Follows (apply1 (.matmul x parameter)) m₁ (apply1 (.matmul y parameter)) m₂
    fun s₁ s₂ x y => s₁.Tied R s₂ x y :=
  follows_only <| follows_apply respected _ _
    (List.forall_mem_cons.mpr
      ⟨tied.exists_second, List.forall_mem_singleton.mpr shared.exists_second⟩)
    (.matmul (tied_operand tied) (tied_operand shared))

theorem addBias_follows :
    Follows (apply1 (.addBias x parameter)) m₁ (apply1 (.addBias y parameter)) m₂
      fun s₁ s₂ x y => s₁.Tied R s₂ x y :=
  follows_only <| follows_apply respected _ _
    (List.forall_mem_cons.mpr
      ⟨tied.exists_second, List.forall_mem_singleton.mpr shared.exists_second⟩)
    (.addBias (tied_operand tied) (tied_operand shared))

end Parameter

end Operations

/-! ## Layer by layer -/

section Layers

variable (tied : m₁.store.Tied R m₂.store x y)
include respected tied

theorem forwardUnits_follows (shape : Shape) {weight bias : TensorId}
    (weights : m₁.store.Tied Same m₂.store weight weight)
    (biases : m₁.store.Tied Same m₂.store bias bias) :
    Follows (forwardUnits x shape weight bias) m₁ (forwardUnits y shape weight bias) m₂
      fun s₁ s₂ => List.Forall₂ (s₁.Tied R s₂) := by
  obtain ⟨c, d, there, there', related⟩ := tied
  refine (batchSize_follows respected there there' related shape _).bind
    fun n n' m₁' m₂' keeps keeps' sizes => ?_
  obtain ⟨rfl, rfl, tail⟩ := sizes
  have weights := weights.keeps keeps keeps'
  have biases := biases.keeps keeps keeps'
  refine (flatten_follows respected (keeps x c there) (keeps' y d there') related weights []
    fun isFlat => ?_).bind fun flat flat' m₁'' m₂'' more more' tied => ?_
  · rw [decide_eq_true_iff, ← tail] at isFlat
    rw [← List.cons_head_tail (respected.samples c d related).1, Shape.rank, List.length_cons]
    exact congrArg (· + 1) isFlat
  have weights := weights.keeps more more'
  have biases := biases.keeps more more'
  refine (matmul_follows respected tied.1 weights).bind
    fun product product' m₁'' m₂'' more more' tied => ?_
  exact (addBias_follows respected tied (biases.keeps more more')).singleton

theorem forwardPooling_follows (pooling : Pooling) (size : Nat) (shape : Shape) :
    Follows (forwardPooling x pooling size shape) m₁ (forwardPooling y pooling size shape) m₂
      fun s₁ s₂ => List.Forall₂ (s₁.Tied R s₂) := by
  obtain ⟨c, d, there, there', related⟩ := id tied
  refine (batchSize_follows respected there there' related shape _).bind
    fun n n' m₁' m₂' keeps keeps' _ => ?_
  have tied := tied.keeps keeps keeps'
  cases pooling with
  | max =>
    refine (one_follows respected tied rfl (.maxReduce size Nat.one_ne_zero)).bind
      fun rows rows' _ _ _ _ tied => ?_
    exact (one_follows respected tied rfl (.maxReduce size (Nat.succ_ne_zero 1))).singleton
  | average =>
    refine (one_follows respected tied rfl (.meanReduce size Nat.one_ne_zero)).bind
      fun rows rows' _ _ _ _ tied => ?_
    exact (one_follows respected tied rfl (.meanReduce size (Nat.succ_ne_zero 1))).singleton

omit respected in
/-- A session that infers lets everything pass. -/
theorem forwardDropout_follows (keep : Float32) :
    Follows (forwardDropout x keep) m₁ (forwardDropout y keep) m₂
      fun s₁ s₂ => List.Forall₂ (s₁.Tied R s₂) := by
  refine .of_abreast fun abreast => ?_
  have passes {m : Machine} (inferring : m.session.training = false) (z : TensorId) :
      (forwardDropout z keep).run m = (.ok [z], m) := by
    unfold forwardDropout
    rw [run_bind_ok (run_get m), inferring]
    rfl
  intro _ ids m₁' run
  rw [passes abreast.inferring.1] at run
  cases run
  exact ⟨[y], m₂, passes abreast.inferring.2 y, .refl m₁, .refl m₂, .cons tied .nil⟩

theorem forwardLoss_follows (loss : Loss) :
    Follows (forwardLoss x loss) m₁ (forwardLoss y loss) m₂
      fun s₁ s₂ => List.Forall₂ (s₁.Tied R s₂) := by
  obtain ⟨c, d, there, there', related⟩ := tied
  refine (Follows.tensor there there').bind fun t t' m₁' m₂' _ _ same => ?_
  obtain ⟨rfl, rfl⟩ := same
  have recorded {values values' : Buffer}
      (made : ∀ e, make values t.shape = .ok e → ∃ e', make values' t'.shape = .ok e' ∧ R e e') :
      Follows (do
        let output ← Step.lift (make values t.shape)
        return [← record "loss" [x] output passThrough]) m₁' (do
        let output ← Step.lift (make values' t'.shape)
        return [← record "loss" [y] output passThrough]) m₂'
          fun s₁ s₂ => List.Forall₂ (s₁.Tied R s₂) := by
    have both : Follows (Step.lift (make values t.shape)) m₁' (Step.lift (make values' t'.shape)) m₂'
        fun _ _ e e' => R e e' ∧ e.WellFormed ∧ e'.WellFormed := .lift fun e first => by
      obtain ⟨e', second, related⟩ := made e first
      exact ⟨e', second, related, wellFormed_of_make first, wellFormed_of_make second⟩
    refine both.bind fun e e' _ _ _ _ outputs => ?_
    exact (follows_record "loss" [x] [y] outputs.2 outputs.1 passThrough passThrough).singleton
  cases loss with
  | squared => exact recorded fun e => respected.remade _ _ e related
  | crossEntropy => exact recorded fun e => respected.softened related

theorem forwardActivation_follows (activation : Activation) :
    Follows (forwardActivation x activation) m₁ (forwardActivation y activation) m₂
      fun s₁ s₂ => List.Forall₂ (s₁.Tied R s₂) := by
  cases activation with
  | relu => exact follows_apply_one respected rfl tied .relu
  | sigmoid => exact follows_apply_one respected rfl tied .sigmoid
  | tanh => exact follows_apply_one respected rfl tied .tanh
  | softmax => exact follows_apply_one respected rfl tied .softmax

theorem forwardConvolution_follows (windowing : Windowing) {kernel bias : TensorId}
    (weights : m₁.store.Tied Same m₂.store kernel kernel)
    (biases : m₁.store.Tied Same m₂.store bias bias) :
    Follows (apply (.conv2d x kernel bias windowing)) m₁ (apply (.conv2d y kernel bias windowing)) m₂
      fun s₁ s₂ => List.Forall₂ (s₁.Tied R s₂) :=
  follows_apply respected _ _
    (List.forall_mem_cons.mpr ⟨tied.exists_second, List.forall_mem_cons.mpr
      ⟨weights.exists_second, List.forall_mem_singleton.mpr biases.exists_second⟩⟩)
    (.conv2d windowing (tied_operand tied) (tied_operand weights) (tied_operand biases))

end Layers

/-! ## Recurrent layers -/

theorem tied_getLastD {s₁ s₂ : Store} {ids ids' : List TensorId} (started : s₁.Tied R s₂ x y)
    (tied : List.Forall₂ (s₁.Tied R s₂) ids ids') :
    s₁.Tied R s₂ (ids.getLastD x) (ids'.getLastD y) := by
  induction tied generalizing x y with
  | nil => exact started
  | cons first _ ih =>
    rw [List.getLastD_cons, List.getLastD_cons]
    exact ih first

section Recurrence

include respected

theorem nextState_follows {state state' inputWeight stateWeight bias : TensorId}
    (tied : m₁.store.Tied R m₂.store x y) (states : m₁.store.Tied R m₂.store state state')
    (inputs : m₁.store.Tied Same m₂.store inputWeight inputWeight)
    (weights : m₁.store.Tied Same m₂.store stateWeight stateWeight)
    (biases : m₁.store.Tied Same m₂.store bias bias) :
    Follows (nextState x state inputWeight stateWeight bias) m₁
      (nextState y state' inputWeight stateWeight bias) m₂ fun s₁ s₂ a b => s₁.Tied R s₂ a b := by
  refine (matmul_follows respected tied inputs).bind
    fun fromInput fromInput' m₁' m₂' keeps keeps' tied => ?_
  refine (matmul_follows respected (states.keeps keeps keeps') (weights.keeps keeps keeps')).bind
    fun fromState fromState' m₁'' m₂'' more more' other => ?_
  refine (add_follows respected (tied.keeps more more') other).bind
    fun sum sum' _ _ last last' tied => ?_
  have biases := biases.keeps ((keeps.trans more).trans last) ((keeps'.trans more').trans last')
  refine (addBias_follows respected tied biases).bind fun biased biased' _ _ _ _ tied => ?_
  exact one_follows respected tied rfl .tanh

/-- States are tied one after the other, by induction on the frames. -/
theorem states_follows {state state' inputWeight stateWeight bias : TensorId}
    {frames frames' : List TensorId} (tied : List.Forall₂ (m₁.store.Tied R m₂.store) frames frames')
    (started : m₁.store.Tied R m₂.store state state')
    (inputs : m₁.store.Tied Same m₂.store inputWeight inputWeight)
    (weights : m₁.store.Tied Same m₂.store stateWeight stateWeight)
    (biases : m₁.store.Tied Same m₂.store bias bias) :
    Follows (states inputWeight stateWeight bias state frames) m₁
      (states inputWeight stateWeight bias state' frames') m₂
      fun s₁ s₂ => List.Forall₂ (s₁.Tied R s₂) := by
  induction frames generalizing m₁ m₂ state state' frames' with
  | nil =>
    cases tied
    exact .pure .nil
  | cons frame rest ih =>
    rcases tied with _ | ⟨first, tied⟩
    refine (nextState_follows respected first started inputs weights biases).bind
      fun next next' m₁' m₂' keeps keeps' started => ?_
    have later := ih (tied.imp fun _ _ tied => tied.keeps keeps keeps') started
      (inputs.keeps keeps keeps') (weights.keeps keeps keeps') (biases.keeps keeps keeps')
    refine later.bind fun hs hs' m₁'' m₂'' more more' tied => ?_
    exact .pure (.cons (started.keeps more more') tied)

/-- As many zeros for each sample. -/
theorem zeros_follows {c d : Content} (related : R c d) (units : Nat) :
    Follows (Step.lift (zeros [c.shape.extent 0, units])) m₁
      (Step.lift (zeros [d.shape.extent 0, units])) m₂
      fun _ _ e e' => R e e' ∧ e.WellFormed ∧ e'.WellFormed := by
  have wellFormed {n : Nat} {e : Content} (success : zeros [n, units] = .ok e) : e.WellFormed := by
    obtain ⟨_, -, success⟩ := Outcome.bind_eq_ok_iff.mp success
    obtain ⟨count, -, made⟩ := Outcome.bind_eq_ok_iff.mp success
    exact wellFormed_of_make made
  apply Follows.lift
  intro e first
  obtain ⟨e', second, related⟩ := respected.zeros c d units e related first
  exact ⟨e', second, related, wellFormed first, wellFormed second⟩

theorem forwardStates_follows (tied : m₁.store.Tied R m₂.store x y) (shape : Shape)
    (summarize : Bool) {inputWeight stateWeight bias : TensorId}
    (inputs : m₁.store.Tied Same m₂.store inputWeight inputWeight)
    (weights : m₁.store.Tied Same m₂.store stateWeight stateWeight)
    (biases : m₁.store.Tied Same m₂.store bias bias) :
    Follows (forwardStates x shape summarize inputWeight stateWeight bias) m₁
      (forwardStates y shape summarize inputWeight stateWeight bias) m₂
      fun s₁ s₂ => List.Forall₂ (s₁.Tied R s₂) := by
  obtain ⟨c, d, there, there', related⟩ := tied
  refine (batchSize_follows respected there there' related shape _).bind
    fun n n' m₁' m₂' keeps keeps' sizes => ?_
  obtain ⟨rfl, rfl, tail⟩ := sizes
  refine (flatten_follows respected (keeps x c there) (keeps' y d there') related
    (inputs.keeps keeps keeps') [shape.extent 0] fun isFlat => ?_).bind
    fun sequence sequence' _ _ more more' tied => ?_
  · rw [decide_eq_true_iff, ← tail] at isFlat
    rw [← List.cons_head_tail (respected.samples c d related).1, Shape.rank, List.length_cons]
    exact congrArg (· + 1) isFlat
  have keeps := keeps.trans more
  have keeps' := keeps'.trans more'
  obtain ⟨tied, e, stored, rank⟩ := tied
  refine (follows_apply_one respected rfl tied (.unstack ?_)).bind
    fun frames frames' _ _ more more' framed => ?_
  · rw [operand_of_content? stored, rank]
    exact Nat.lt_succ_self 2
  have keeps := keeps.trans more
  have keeps' := keeps'.trans more'
  obtain ⟨b, _, biased, biased', rfl, -⟩ := biases.keeps keeps keeps'
  refine (Follows.tensor biased biased').bind fun t t' _ _ more more' same => ?_
  have keeps := keeps.trans more
  have keeps' := keeps'.trans more'
  rw [same.1, same.2]
  refine (zeros_follows respected related b.count).bind fun z z' _ _ last last' zeros => ?_
  refine (follows_add zeros.2 zeros.1 none).bind fun start start' _ _ later later' started => ?_
  have stays := (more.trans last).trans later
  have stays' := (more'.trans last').trans later'
  have keeps := keeps.trans (last.trans later)
  have keeps' := keeps'.trans (last'.trans later')
  refine (states_follows respected (framed.imp fun _ _ tied => tied.keeps stays stays') started
    (inputs.keeps keeps keeps') (weights.keeps keeps keeps') (biases.keeps keeps keeps')).bind
    fun hs hs' _ _ more more' tied => ?_
  cases summarize with
  | true => exact .pure (.cons (tied_getLastD (started.keeps more more') tied) .nil)
  | false =>
    exact (follows_only (follows_apply respected (.stack hs 1) (.stack hs' 1)
      (Store.exists_second_of_tied tied) (.stack (tied_operands tied)))).singleton

end Recurrence

include respected in
/-- What a layer gives for tied tensors is tied. -/
theorem forward_follows {layer : Layer} {shapes : List Shape}
    (accepts : layer.Accepts m₁.store shapes)
    (shared : ∀ p ∈ layer.parameters, m₁.store.Tied Same m₂.store p p) {ids ids' : List TensorId}
    (tied : List.Forall₂ (m₁.store.Tied R m₂.store) ids ids') :
    Follows (layer.forward ids) m₁ (layer.forward ids') m₂
      fun s₁ s₂ => List.Forall₂ (s₁.Tied R s₂) := by
  have alone (name : String) := onlyInput_follows name tied
  cases layer with
  | input shape =>
    refine (alone _).bind fun x y _ _ _ _ tied => ?_
    obtain ⟨c, d, there, there', related⟩ := id tied
    refine (batchSize_follows respected there there' related shape _).bind
      fun _ _ _ _ keeps keeps' _ => ?_
    exact .pure (.cons (tied.keeps keeps keeps') .nil)
  | fullyConnected inputShape _ weight bias =>
    refine (alone _).bind fun x y _ _ keeps keeps' tied => ?_
    have shared p member := (shared p member).keeps keeps keeps'
    exact forwardUnits_follows respected tied inputShape (shared weight (by simp [parameters]))
      (shared bias (by simp [parameters]))
  | convolution inputShape _ windowing kernel bias =>
    refine (alone _).bind fun x y _ _ keeps keeps' tied => ?_
    obtain ⟨c, d, there, there', related⟩ := id tied
    refine (batchSize_follows respected there there' related inputShape _).bind
      fun _ _ _ _ more more' _ => ?_
    have shared p member := (shared p member).keeps (keeps.trans more) (keeps'.trans more')
    exact forwardConvolution_follows respected (tied.keeps more more') windowing
      (shared kernel (by simp [parameters])) (shared bias (by simp [parameters]))
  | pool pooling size inputShape _ =>
    refine (alone _).bind fun x y _ _ _ _ tied => ?_
    exact forwardPooling_follows respected tied pooling size inputShape
  | recurrent inputShape _ summarize inputWeight stateWeight bias =>
    refine (alone _).bind fun x y _ _ keeps keeps' tied => ?_
    have shared p member := (shared p member).keeps keeps keeps'
    exact forwardStates_follows respected tied inputShape summarize
      (shared inputWeight (by simp [parameters]))
      (shared stateWeight (by simp [parameters])) (shared bias (by simp [parameters]))
  | dropout keep _ =>
    exact (alone _).bind fun x y _ _ _ _ tied => forwardDropout_follows tied keep
  | scale factor _ =>
    exact (alone _).bind fun x y _ _ _ _ tied =>
      follows_apply_one respected rfl tied (.scale factor)
  | normalization settings _ =>
    exact (alone _).bind fun x y _ _ _ _ tied =>
      follows_apply_one respected rfl tied (.normalize settings)
  | split branches _ =>
    refine (alone _).bind fun x y _ _ _ _ tied => ?_
    exact .replicate (List.range branches) fun _ _ keeps keeps' =>
      one_follows respected (tied.keeps keeps keeps') rfl .copy
  | concat inputs shape =>
    obtain ⟨-, ranked⟩ : inputs = shapes.length ∧ shape ≠ [] := by
      cases accepts with
      | concat _ ranked => exact ⟨rfl, ranked⟩
    unfold forward
    dsimp only
    rw [tied.length_eq]
    split
    · exact .of_error
    · exact follows_apply respected (.concat ids shape.rank) (.concat ids' shape.rank)
        (Store.exists_second_of_tied tied)
        (.concat (fun none => ranked (List.length_eq_zero_iff.mp none)) (tied_operands tied))
  | activation activation _ =>
    exact (alone _).bind fun x y _ _ _ _ tied =>
      forwardActivation_follows respected tied activation
  | loss loss _ =>
    exact (alone _).bind fun x y _ _ _ _ tied => forwardLoss_follows respected tied loss

/-- What a layer accepts, it accepts with parameters that are there. -/
theorem Accepts.exists_parameter {s : Store} {layer : Layer} {shapes : List Shape}
    (accepts : layer.Accepts s shapes) : ∀ p ∈ layer.parameters, ∃ c, s.content? p = some c := by
  have content {id : TensorId} {shape : Shape} (shaped : s.shape? id = some shape) :
      ∃ c, s.content? id = some c := by
    obtain ⟨c, there, -⟩ := Store.exists_content shaped
    exact ⟨c, there⟩
  cases accepts with
  | fullyConnected weight bias => simp [parameters, content weight, content bias]
  | convolution _ kernel bias => simp [parameters, content kernel, content bias]
  | recurrent _ _ input state bias =>
    simp [parameters, content input, content state, content bias]
  | _ => simp [parameters]

/-- A layer that infers keeps what is there, and what it gives is there. -/
theorem forward_onward {m m' : Machine} {layer : Layer} {shapes : List Shape}
    (accepts : layer.Accepts m.store shapes) (wf : m.store.WellFormed)
    (inferring : m.session.training = false) {ids outputs : List TensorId}
    (there : ∀ id ∈ ids, ∃ c, m.store.content? id = some c)
    (run : (layer.forward ids).run m = (.ok outputs, m')) :
    m.Onward m' ∧ ∀ id ∈ outputs, ∃ c, m'.store.content? id = some c := by
  have self {id : TensorId} (there : ∃ c, m.store.content? id = some c) :
      m.store.Tied Same m.store id id := by
    obtain ⟨c, there⟩ := there
    exact ⟨c, c, there, there, rfl, wf.content there⟩
  have abreast : m.Abreast m := ⟨wf, wf, ⟨inferring, inferring⟩, id⟩
  have follows := forward_follows respected_same accepts
    (fun p member => self (accepts.exists_parameter p member))
    (List.forall₂_same.mpr fun id member => self (there id member))
  obtain ⟨outputs', m'', run', onward, -, tied⟩ := follows abreast outputs m' run
  rw [run] at run'
  cases run'
  exact ⟨onward, Store.exists_second_of_tied tied⟩

end Layer

end LayerNet
