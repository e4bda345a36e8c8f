import LayerNet.Initial
import LayerNet.Proofs.Layer.Contract

/-!
# Running layers — accepted tensors give the declared ones

A layer that accepts the shapes of the samples it is handed gives as many tensors as it declares, of
the shape that it declares, with the batch in front (`Layer.forward_gives`). The layers check this
in their own ways, and run operations that check it again: for all of them the checks pass, and what
is left to stop a layer is a number out of range.

Recurrent layers are the only ones with a loop: every state has the shape of the first one
(`states_gives`), by induction on the frames.
-/

namespace LayerNet

/-- Equal elements in a valid shape can only be too many, or not finite. -/
theorem Content.zeros_ensures {shape : Shape} (valid : shape.IsValid) :
    (zeros shape).Ensures fun c => c.shape = shape ∧ c.WellFormed := by
  have room : (room shape).Ensures fun n => n = shape.prod := by
    refine (Size.product_ensures shape).bind fun n elements => ?_
    split
    · exact .of_overflow
    · exact .of_ok elements
  unfold zeros full
  rw [(Shape.validate_eq_ok_iff shape).mpr valid]
  refine room.bind fun n elements => ?_
  refine (Content.make_ensures valid ?_).mono fun c made shaped => ⟨shaped, wellFormed_of_make made⟩
  rw [Buffer.size_filled, elements]

namespace Layer

open Session Step

variable {m : Machine} {x : TensorId} {batch : Nat}

/-! ## What layers check and share -/

theorem batchSize_gives {sample : Shape} (shaped : m.store.shape? x = some (batch :: sample))
    (layer : String) : Gives (batchSize x sample layer) m fun _ n => n = batch := by
  refine (Gives.tensor shaped).bind fun t m' _ tensor => ?_
  rw [tensor.2.2]
  rw [if_pos ⟨rfl, List.cons_ne_nil _ _⟩]
  exact .pure rfl

theorem flatten_gives {weight : TensorId} {leading frame : Shape} {units : Nat} {isFlat : Bool}
    (shaped : m.store.shape? x = some (leading ++ frame)) (nonempty : leading ≠ [])
    (weights : m.store.shape? weight = some [frame.prod, units])
    (flat : isFlat = true → frame.length = 1) :
    Gives (flatten x leading isFlat weight) m fun s id =>
      s.shape? id = some (leading ++ [frame.prod]) := by
  refine .of_ready fun ready => ?_
  have inhabited : 0 ∉ leading ++ frame := (ready.store.valid shaped).2
  have features : 0 < frame.prod := ((Shape.isValid_cons _ _).mp (ready.store.valid weights)).1
  unfold flatten
  cases isFlat with
  | true =>
    obtain ⟨length, rfl⟩ := List.length_eq_one_iff.mp (flat rfl)
    rw [List.prod_singleton]
    exact .pure shaped
  | false =>
    refine (Gives.tensor weights).bind fun t m' keeps tensor => ?_
    rw [tensor.2.2]
    refine (Gives.lift (.of_ok rfl : Outcome.Ensures _ fun n => n = frame.prod)).bind ?_
    rintro _ m'' keeps' rfl
    have shaped := (keeps.trans keeps').shape? shaped
    refine gives_reshape shaped ⟨fun empty => ?_, fun member => ?_⟩ ?_
    · exact nonempty (List.append_eq_nil_iff.mp empty).1
    · rcases List.mem_append.mp member with member | member
      · exact inhabited (List.mem_append_left frame member)
      · exact Nat.ne_of_lt features (List.mem_singleton.mp member)
    · rw [List.prod_append, List.prod_append, List.prod_singleton]

/-! ## Layer by layer -/

theorem forwardUnits_gives {shape : Shape} {units : Nat} {weight bias : TensorId}
    (shaped : m.store.shape? x = some (batch :: shape))
    (weights : m.store.shape? weight = some [shape.prod, units])
    (biases : m.store.shape? bias = some [units]) :
    Gives (forwardUnits x shape weight bias) m fun s ids => s.Holds [[batch, units]] ids := by
  refine (batchSize_gives shaped "fully_connected").bind fun n m₁ keeps₁ same => ?_
  subst same
  have flat : Gives (flatten x [n] (shape.rank = 1) weight) m₁
      fun s id => s.shape? id = some [n, shape.prod] :=
    flatten_gives (keeps₁.shape? shaped) (List.cons_ne_nil n []) (keeps₁.shape? weights)
      of_decide_eq_true
  refine flat.bind fun rows m₂ keeps₂ rowed => ?_
  have keeps₂ := keeps₁.trans keeps₂
  refine (gives_matmul rowed (keeps₂.shape? weights)).bind fun product m₃ keeps₃ multiplied => ?_
  have biases := (keeps₂.trans keeps₃).shape? biases
  exact (gives_addBias multiplied biases rfl).singleton

theorem nextState_gives {frame state inputWeight stateWeight bias : TensorId} {features units : Nat}
    (framed : m.store.shape? frame = some [batch, features])
    (stated : m.store.shape? state = some [batch, units])
    (inputs : m.store.shape? inputWeight = some [features, units])
    (states : m.store.shape? stateWeight = some [units, units])
    (biases : m.store.shape? bias = some [units]) :
    Gives (nextState frame state inputWeight stateWeight bias) m
      fun s id => s.shape? id = some [batch, units] := by
  refine (gives_matmul framed inputs).bind fun fromInput m₁ keeps₁ fromInputs => ?_
  refine (gives_matmul (keeps₁.shape? stated) (keeps₁.shape? states)).bind
    fun fromState m₂ keeps₂ fromStates => ?_
  refine (gives_add (keeps₂.shape? fromInputs) fromStates).bind fun sum m₃ keeps₃ summed => ?_
  have keeps₃ := (keeps₁.trans keeps₂).trans keeps₃
  refine (gives_addBias summed (keeps₃.shape? biases) rfl).bind fun biased m₄ _ shaped => ?_
  exact gives_only <| gives_same (.tanh biased) rfl shaped fun wf => Content.pointwise_computes wf _

/-- Every state has the shape of the first, by induction on the frames. -/
theorem states_gives {state inputWeight stateWeight bias : TensorId} {features units : Nat}
    {frames : List TensorId} (stated : m.store.shape? state = some [batch, units])
    (framed : m.store.Holds (List.replicate frames.length [batch, features]) frames)
    (inputs : m.store.shape? inputWeight = some [features, units])
    (weights : m.store.shape? stateWeight = some [units, units])
    (biases : m.store.shape? bias = some [units]) :
    Gives (states inputWeight stateWeight bias state frames) m
      fun s ids => s.Holds (List.replicate frames.length [batch, units]) ids := by
  induction frames generalizing m state with
  | nil => exact .pure .nil
  | cons frame rest ih =>
    rcases framed with _ | ⟨first, framed⟩
    refine (nextState_gives first stated inputs weights biases).bind fun next m₁ keeps₁ nexted => ?_
    refine (ih nexted (Store.Holds.mono framed keeps₁) (keeps₁.shape? inputs)
      (keeps₁.shape? weights) (keeps₁.shape? biases)).bind fun hs m₂ keeps₂ holds => ?_
    exact .pure (.cons (keeps₂.shape? nexted) holds)

/-- The last of some states, or the first one where there are none. -/
theorem last_of_holds {s : Store} {start : TensorId} {ids : List TensorId} {shape : Shape} {n : Nat}
    (started : s.shape? start = some shape) (holds : s.Holds (List.replicate n shape) ids) :
    s.shape? (ids.getLastD start) = some shape := by
  rcases List.eq_nil_or_concat' ids with rfl | ⟨init, last, rfl⟩
  · exact started
  · rw [List.getLastD_concat]
    obtain ⟨shape', member, shaped⟩ := holds.exists_shape (List.mem_append_right init
      (List.mem_singleton_self last))
    rw [shaped, List.eq_of_mem_replicate member]

theorem stack_gives {ids : List TensorId} {n : Nat} {shape : Shape}
    (holds : m.store.Holds (List.replicate n (batch :: shape)) ids) (positive : n ≠ 0) :
    Gives (apply1 (.stack ids 1)) m fun s id => s.shape? id = some (batch :: n :: shape) := by
  refine gives_only <| gives_apply (.stack ids 1) holds fun wf => ?_
  have length : ids.length = n := by rw [holds.length_eq, List.length_replicate]
  cases ids with
  | nil => exact absurd length.symm positive
  | cons first rest =>
    have shapes : ∀ id ∈ first :: rest, m.store.shape? id = some (batch :: shape) := by
      intro id member
      obtain ⟨shape', inside, shaped⟩ := holds.exists_shape member
      rw [shaped, List.eq_of_mem_replicate inside]
    have stacked : Computes (operandsOf m.store (.stack (first :: rest) 1)).compute
        [batch :: ((rest.map fun id => (m.store.content? id).getD default).length + 1) :: shape] := by
      refine Content.stack_computes (wf.valid (shapes first List.mem_cons_self)) ?_
      show ∀ c ∈ (first :: rest).map fun id => (m.store.content? id).getD default, _
      rw [List.forall_mem_map]
      exact fun id member => shape_operand (shapes id member)
    rwa [List.length_map, ← List.length_cons, length] at stacked

theorem unstack_gives {members : Nat} {shape : Shape}
    (shaped : m.store.shape? x = some (batch :: members :: shape))
    (valid : Shape.IsValid (batch :: shape)) : Gives (apply (.unstack x 1)) m
      fun s ids => s.Holds (List.replicate members (batch :: shape)) ids :=
  gives_apply (.unstack x 1) (.cons shaped .nil) fun _ =>
    Content.unstack_computes (shape_operand shaped) valid

theorem forwardStates_gives {steps units : Nat} {frame : Shape} (summarize : Bool)
    {inputWeight stateWeight bias : TensorId}
    (shaped : m.store.shape? x = some (batch :: steps :: frame))
    (inputs : m.store.shape? inputWeight = some [frame.prod, units])
    (weights : m.store.shape? stateWeight = some [units, units])
    (biases : m.store.shape? bias = some [units]) :
    Gives (forwardStates x (steps :: frame) summarize inputWeight stateWeight bias) m fun s ids =>
      s.Holds [batch :: if summarize then [units] else [steps, units]] ids := by
  refine .of_ready fun ready => ?_
  obtain ⟨samples, sampled⟩ := (Shape.isValid_cons _ _).mp (ready.store.valid shaped)
  obtain ⟨features, width⟩ := (Shape.isValid_cons _ _).mp (ready.store.valid inputs)
  refine (batchSize_gives shaped "recurrent").bind fun n m₁ keeps₁ same => ?_
  subst same
  have flat : Gives (flatten x [n, Shape.extent (steps :: frame) 0]
      (Shape.rank (steps :: frame) = 2) inputWeight) m₁
      fun s id => s.shape? id = some [n, steps, frame.prod] := by
    have leading : m₁.store.shape? x = some ([n, steps] ++ frame) := keeps₁.shape? shaped
    exact flatten_gives leading (List.cons_ne_nil n _) (keeps₁.shape? inputs) fun isFlat =>
      Nat.succ.inj (of_decide_eq_true isFlat)
  refine flat.bind fun sequence m₂ keeps₂ sequenced => ?_
  have keeps₂ := keeps₁.trans keeps₂
  have rowValid : Shape.IsValid [n, frame.prod] :=
    (Shape.isValid_cons _ _).mpr ⟨samples, fun none =>
      Nat.ne_of_lt features (List.mem_singleton.mp none)⟩
  refine (unstack_gives sequenced rowValid).bind fun frames m₃ keeps₃ framed => ?_
  have keeps₃ := keeps₂.trans keeps₃
  obtain rfl : frames.length = steps := by rw [framed.length_eq, List.length_replicate]
  refine (Gives.tensor (keeps₃.shape? biases)).bind fun t m₄ later tensor => ?_
  have count : t.toContent.count = units := by
    rw [tensor.2.1.count, tensor.2.2, List.prod_singleton]
  have positive : frames.length ≠ 0 := fun none => sampled (none ▸ List.mem_cons_self)
  have valid : Shape.IsValid [n, units] :=
    (Shape.isValid_cons _ _).mpr ⟨samples, width⟩
  rw [count]
  refine (Gives.lift (Content.zeros_ensures valid)).bind fun zeros m₅ keeps₅ zero => ?_
  obtain ⟨zeroShape, zeroWf⟩ := zero
  refine (gives_store zeroWf none).bind fun start m₆ keeps₆ started => ?_
  rw [zeroShape] at started
  have keeps := ((keeps₃.trans later).trans keeps₅).trans keeps₆
  refine (states_gives started
    (framed.mono ((later.trans keeps₅).trans keeps₆)) (keeps.shape? inputs)
    (keeps.shape? weights) (keeps.shape? biases)).bind fun hs m₇ keeps₇ holds => ?_
  cases summarize with
  | true => exact .pure (.cons (last_of_holds (keeps₇.shape? started) holds) .nil)
  | false => exact (stack_gives holds positive).singleton

theorem forwardPooling_gives (pooling : Pooling) {size height width channels : Nat}
    (shaped : m.store.shape? x = some [batch, height, width, channels]) (positive : size ≠ 0)
    (rows : height % size = 0) (columns : width % size = 0) :
    Gives (forwardPooling x pooling size [height, width, channels]) m fun s ids =>
      s.Holds [[batch, height / size, width / size, channels]] ids := by
  refine (batchSize_gives shaped "pool").bind fun n m₁ keeps₁ same => ?_
  subst same
  have shaped := keeps₁.shape? shaped
  cases pooling with
  | max =>
    refine (gives_maxReduce 1 shaped rfl positive rows).bind fun y m₂ _ pooled => ?_
    exact (gives_maxReduce 2 pooled rfl positive columns).singleton
  | average =>
    refine (gives_meanReduce 1 shaped rfl positive rows).bind fun y m₂ _ pooled => ?_
    exact (gives_meanReduce 2 pooled rfl positive columns).singleton

/-- Drawing the samples changes nothing but the noise. -/
theorem forwardDropout_gives {keep : Float32} {shape : Shape} (probability : 0 < keep ∧ keep ≤ 1)
    (shaped : m.store.shape? x = some shape) :
    Gives (forwardDropout x keep) m fun s ids => s.Holds [shape] ids := by
  obtain ⟨c, there, same⟩ := Store.exists_content shaped
  obtain ⟨t, found, rfl⟩ := Option.map_eq_some_iff.mp there
  have tensor : (Step.tensor x : Step TensorError Tensor).run m = (.ok t, m) := by
    show ((m.store.tensor x : Checked Tensor), m) = _
    rw [Store.tensor, found]
    rfl
  intro ready
  unfold forwardDropout
  rw [Ensures, run_bind_ok (run_get m)]
  cases m.session.training with
  | false =>
    have alone : Gives (pure [x]) m fun s ids => s.Holds [shape] ids := .pure (.cons shaped .nil)
    exact alone ready
  | true =>
    have struck (m' : Machine) (shaped : m'.store.shape? x = some shape)
        (samples : Nat → Float32) : Gives (do return [← apply1 (.dropout x keep samples)]) m'
          fun s ids => s.Holds [shape] ids := by
      refine (gives_only (gives_same (.dropout x keep samples) rfl shaped fun wf => ?_)).singleton
      exact Content.dropout_computes wf probability samples
    rw [if_neg (by simp), run_bind_ok tensor]
    exact struck { m with noise := (m.noise.units t.count).2 } shaped _
      ⟨ready.recording, ready.store⟩

theorem forwardLoss_gives (loss : Loss) {shape : Shape} (shaped : m.store.shape? x = some shape) :
    Gives (forwardLoss x loss) m fun s ids => s.Holds [shape] ids := by
  refine (Gives.tensor shaped).bind fun t m₁ _ tensor => ?_
  obtain ⟨-, wf, rfl⟩ := tensor
  have recorded {values : Buffer} (size : values.size = t.shape.prod) :
      Gives (do
        let output ← Step.lift (Content.make values t.shape)
        return [← record "loss" [x] output passThrough]) m₁ fun s ids => s.Holds [t.shape] ids := by
    have made := (Content.make_ensures wf.valid size).mono fun c made same =>
      And.intro same (Content.wellFormed_of_make made)
    refine (Gives.lift made).bind fun c m₂ _ output => ?_
    obtain ⟨same, wf⟩ := output
    refine (gives_record "loss" [x] wf passThrough).bind fun id m₃ _ shaped => ?_
    rw [same] at shaped
    exact .pure (.cons shaped .nil)
  cases loss with
  | squared => exact recorded wf.count
  | crossEntropy =>
    refine recorded ?_
    rw [← wf.count]
    refine Content.size_mapRows wf rfl fun r row width => ?_
    rw [softmaxRow, List.length_map, List.length_map]
    exact width

theorem forwardActivation_gives (activation : Activation) {shape : Shape}
    (shaped : m.store.shape? x = some shape) :
    Gives (forwardActivation x activation) m fun s ids => s.Holds [shape] ids := by
  cases activation with
  | softmax => exact gives_same (.softmax x) rfl shaped Content.softmax_computes
  | _ => exact gives_same _ rfl shaped fun wf => Content.pointwise_computes wf _

/-- The taps of a window are counted from one. -/
theorem windows_pos {windowing : Windowing} {height width size rows columns : Nat}
    (windows : windowing.extents height width size size
      = (.ok (some (rows, columns)) : Checked _)) : 0 < rows ∧ 0 < columns := by
  have one {input kernel stride padding : Nat} {count : Option Nat}
      (success : Windowing.extent input kernel stride padding = (.ok count : Checked _)) :
      ∀ n, count = some n → 0 < n := by
    obtain ⟨twice, -, success⟩ := Outcome.bind_eq_ok_iff.mp success
    obtain ⟨padded, -, success⟩ := Outcome.bind_eq_ok_iff.mp success
    split at success
    · cases success
      exact fun n none => nomatch none
    · obtain ⟨n, sum, success⟩ := Outcome.bind_eq_ok_iff.mp success
      cases success
      rintro _ ⟨⟩
      rw [Size.check_eq_ok sum]
      exact Nat.succ_pos _
  obtain ⟨down, first, windows⟩ := Outcome.bind_eq_ok_iff.mp windows
  obtain ⟨across, second, windows⟩ := Outcome.bind_eq_ok_iff.mp windows
  cases down with
  | none => cases windows
  | some r =>
    cases across with
    | none => cases windows
    | some c =>
      cases windows
      exact ⟨one first _ rfl, one second _ rfl⟩

theorem forwardConvolution_gives {windowing : Windowing}
    {height width channels size filters rows columns : Nat} {kernel bias : TensorId}
    (shaped : m.store.shape? x = some [batch, height, width, channels])
    (windows : windowing.extents height width size size
      = (.ok (some (rows, columns)) : Checked _))
    (weights : m.store.shape? kernel = some [size, size, channels, filters])
    (biases : m.store.shape? bias = some [filters]) :
    Gives (apply (.conv2d x kernel bias windowing)) m fun s ids =>
      s.Holds [[batch, rows, columns, filters]] ids := by
  refine gives_apply (.conv2d x kernel bias windowing)
    (.cons shaped (.cons weights (.cons biases .nil))) fun wf => ?_
  obtain ⟨down, across⟩ := windows_pos windows
  obtain ⟨samples, -⟩ := (Shape.isValid_cons _ _).mp (wf.valid shaped)
  obtain ⟨outputs, -⟩ := (Shape.isValid_cons _ _).mp (wf.valid biases)
  refine Content.conv2d_computes (shape_operand shaped) (shape_operand weights)
    (shape_operand biases) windows ((Shape.isValid_cons _ _).mpr ⟨samples, ?_⟩)
  simp only [List.mem_cons, List.not_mem_nil, or_false, not_or]
  exact ⟨Nat.ne_of_lt down, Nat.ne_of_lt across, Nat.ne_of_lt outputs⟩

theorem forwardConcat_gives {shapes : List Shape} {shape : Shape} {ids : List TensorId}
    (some : shapes ≠ []) (ranked : shape ≠ [])
    (agree : ∀ other ∈ shapes, other.rank = shape.rank
      ∧ other.take (shape.rank - 1) = shape.take (shape.rank - 1))
    (widths : Size.total (shapes.map Shape.width) = shape.width)
    (holds : m.store.Holds (shapes.map (batch :: ·)) ids) :
    Gives (apply (.concat ids shape.rank)) m fun s ids => s.Holds [batch :: shape] ids := by
  refine gives_apply (.concat ids shape.rank) holds fun wf => ?_
  refine Content.concat_last_computes some ranked agree widths ?_ ?_
  · intro c member
    obtain ⟨id, inside, rfl⟩ := List.mem_map.mp member
    obtain ⟨shape', -, shaped⟩ := holds.exists_shape inside
    rw [shape_operand shaped]
    exact wf.valid shaped
  · rw [List.map_map]
    refine List.forall₂_eq_eq_eq ▸ ?_
    rw [List.forall₂_map_left_iff]
    exact holds.imp fun id shape shaped => shape_operand shaped

/-- A layer that accepts what it is handed gives what it declares, unless the run ends. -/
theorem forward_gives {layer : Layer} {shapes : List Shape} {ids : List TensorId}
    (accepts : layer.Accepts m.store shapes)
    (holds : m.store.Holds (shapes.map (batch :: ·)) ids) :
    Gives (layer.forward ids) m fun s outputs =>
      s.Holds (List.replicate layer.outputCount (batch :: layer.outputShape)) outputs := by
  have alone {shape : Shape} (holds : m.store.Holds ([shape].map (batch :: ·)) ids) :
      ∃ x, ids = [x] ∧ m.store.shape? x = some (batch :: shape) := by
    rcases holds with _ | @⟨x, _, _, _, shaped, ⟨⟩⟩
    exact ⟨x, rfl, shaped⟩
  cases accepts with
  | input shape =>
    obtain ⟨x, rfl, shaped⟩ := alone holds
    exact (batchSize_gives shaped "input").bind fun _ _ keeps _ =>
      .pure (.cons (keeps.shape? shaped) .nil)
  | fullyConnected weight bias =>
    obtain ⟨x, rfl, shaped⟩ := alone holds
    exact forwardUnits_gives shaped weight bias
  | convolution windows kernel bias =>
    obtain ⟨x, rfl, shaped⟩ := alone holds
    exact (batchSize_gives shaped "convolution").bind fun _ _ keeps _ =>
      forwardConvolution_gives (keeps.shape? shaped) windows (keeps.shape? kernel)
        (keeps.shape? bias)
  | pool pooling size rows columns =>
    obtain ⟨x, rfl, shaped⟩ := alone holds
    exact forwardPooling_gives pooling shaped size rows columns
  | recurrent summarize frame input state bias =>
    obtain ⟨x, rfl, shaped⟩ := alone holds
    exact forwardStates_gives summarize shaped input state bias
  | dropout shape probability =>
    obtain ⟨x, rfl, shaped⟩ := alone holds
    exact forwardDropout_gives probability shaped
  | scale factor shape =>
    obtain ⟨x, rfl, shaped⟩ := alone holds
    exact gives_same (.scale x factor) rfl shaped fun wf => Content.scale_computes wf factor
  | @normalization settings shape window offset =>
    obtain ⟨x, rfl, shaped⟩ := alone holds
    exact gives_same (.normalize x settings) rfl shaped fun wf =>
      Content.normalize_computes wf window offset
  | split branches shape =>
    obtain ⟨x, rfl, shaped⟩ := alone holds
    have copies := Gives.replicate (List.range branches) fun m' keeps =>
      gives_only (gives_same (.copy x) rfl (keeps.shape? shaped) Content.copy_computes)
    rw [List.length_range] at copies
    exact copies
  | concat some ranked agree widths =>
    have length : ids.length = shapes.length := by rw [holds.length_eq, List.length_map]
    unfold forward
    dsimp only
    rw [if_neg (not_not.mpr length)]
    exact forwardConcat_gives some ranked agree widths holds
  | activation activation shape =>
    obtain ⟨x, rfl, shaped⟩ := alone holds
    exact forwardActivation_gives activation shaped
  | loss loss shape =>
    obtain ⟨x, rfl, shaped⟩ := alone holds
    exact forwardLoss_gives loss shaped

end Layer

end LayerNet
