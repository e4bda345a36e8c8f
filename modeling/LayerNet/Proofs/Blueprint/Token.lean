import LayerNet.Proofs.Architecture.Canonical
import LayerNet.Proofs.Blueprint.Placement

/-!
# Tokens — layers of one blueprint write one token

The token of a layer is made of the settings that it has from its blueprint, and of the shapes of
parameters that were made by these settings (`Layer.MadeOf`). So it does not matter where a layer
stands or what its parameters are. The exception is an input with open axes, which writes the axes
that it was given; but no such input writes the token that it was read from, since an open axis is
the only thing in a token with a minus (`Item.IsLayerToken.eq_token`).
-/

namespace LayerNet

/-- A layer with the settings of a blueprint, and with the parameters that its token is read off. -/
inductive Layer.MadeOf (s : Store) : Blueprint → Layer → Prop
  | input {dims : List (Option Nat)} {arriving shape : Shape} :
    Blueprint.closeDims dims arriving = .ok shape → MadeOf s (.input dims) (.input shape)
  | fullyConnected {units : Nat} (inputShape : Shape) (weight bias : TensorId) :
    MadeOf s (.fullyConnected units) (.fullyConnected inputShape [units] weight bias)
  | convolution {filters size channels : Nat} {kernel : TensorId} (windowing : Windowing)
    (inputShape outputShape : Shape) (bias : TensorId) :
    s.shape? kernel = some [size, size, channels, filters] →
    MadeOf s (.convolution filters size windowing)
      (.convolution inputShape outputShape windowing kernel bias)
  | pool (pooling : Pooling) (size : Nat) (inputShape outputShape : Shape) :
    MadeOf s (.pool pooling size) (.pool pooling size inputShape outputShape)
  | recurrent {units : Nat} {bias : TensorId} (summarize : Bool) (inputShape outputShape : Shape)
    (inputWeight stateWeight : TensorId) : s.shape? bias = some [units] →
    MadeOf s (.recurrent units summarize)
      (.recurrent inputShape outputShape summarize inputWeight stateWeight bias)
  | dropout (keep : Float32) (shape : Shape) : MadeOf s (.dropout keep) (.dropout keep shape)
  | scale (factor : Float32) (shape : Shape) : MadeOf s (.scale factor) (.scale factor shape)
  | normalization {size : Option Nat} {settings : Normalization} (shape : Shape) :
    settings.size = size.getD Normalization.standard.size →
    MadeOf s (.normalization size) (.normalization settings shape)
  | split (branches : Nat) (shape : Shape) : MadeOf s .split (.split branches shape)
  | concat (inputs : Nat) (shape : Shape) : MadeOf s .concat (.concat inputs shape)
  | activation (a : Activation) (shape : Shape) : MadeOf s (.activation a) (.activation a shape)
  | loss (l : Loss) (shape : Shape) : MadeOf s (.loss l) (.loss l shape)

namespace Layer.MadeOf

variable {s s' : Store} {b : Blueprint} {layer layer' : Layer}

theorem evolves (made : layer.MadeOf s b) (evolves : s.Evolves s') : layer.MadeOf s' b := by
  cases made with
  | input closed => exact .input closed
  | fullyConnected inputShape weight bias => exact .fullyConnected inputShape weight bias
  | convolution windowing inputShape outputShape bias shaped =>
    exact .convolution windowing inputShape outputShape bias (evolves.shape? _ _ shaped)
  | pool pooling size inputShape outputShape => exact .pool pooling size inputShape outputShape
  | recurrent summarize inputShape outputShape inputWeight stateWeight shaped =>
    exact .recurrent summarize inputShape outputShape inputWeight stateWeight
      (evolves.shape? _ _ shaped)
  | dropout keep shape => exact .dropout keep shape
  | scale factor shape => exact .scale factor shape
  | normalization shape size => exact .normalization shape size
  | split branches shape => exact .split branches shape
  | concat inputs shape => exact .concat inputs shape
  | activation a shape => exact .activation a shape
  | loss l shape => exact .loss l shape

/-- Splits are made of splits only, and concatenations of concatenations. -/
theorem kind_iff (made : layer.MadeOf s b) :
    (layer.kind = .split ↔ b = .split) ∧ (layer.kind = .concat ↔ b = .concat) := by
  cases made with
  | pool pooling size inputShape outputShape => cases pooling <;> simp [Layer.kind]
  | _ => simp [Layer.kind]

end Layer.MadeOf

/-! ## What is built -/

namespace Blueprint

variable {s : Store}

theorem makes_of_inputs (shapes : List Shape) :
    Building.Yields s (Building.lift (Layer.ofInputs shapes)) fun s' =>
      Layer.MadeOf s' .concat := by
  refine (Building.Yields.lift _).mono fun s' layer _ success => ?_
  unfold Layer.ofInputs at success
  split at success
  · split at success
    · cases success
    · obtain ⟨width, -, success⟩ := Outcome.bind_eq_ok_iff.mp success
      cases success
      exact .concat _ _
  · cases success

theorem placeOne_makes (b : Blueprint) (shape : Shape) (placement : Placement) :
    Building.Yields s (b.placeOne shape placement) fun s' => Layer.MadeOf s' b := by
  cases b with
  | input dims =>
    refine (Building.Yields.lift _).mono fun s' layer _ success => ?_
    obtain ⟨declared, closed, success⟩ := Outcome.bind_eq_ok_iff.mp success
    split at success
    · cases success
    · obtain ⟨-, -, success⟩ := Outcome.bind_eq_ok_iff.mp success
      cases success
      exact .input closed
  | fullyConnected units =>
    refine (Layer.ofUnits_makes shape units).mono fun s' layer _ made => ?_
    obtain ⟨weight, bias, rfl, -, -⟩ := made
    exact .fullyConnected shape weight bias
  | convolution filters size windowing =>
    refine (Layer.ofFilters_makes shape filters size windowing).mono fun s' layer _ made => ?_
    obtain ⟨_, _, _, _, _, _, bias, -, rfl, -, shaped, -⟩ := made
    exact .convolution windowing _ _ bias shaped
  | pool pooling size =>
    refine (Building.Yields.lift _).mono fun s' layer _ success => ?_
    unfold Layer.ofPooling at success
    split at success
    · split at success
      · cases success
      · cases success
        exact .pool pooling size _ _
    · cases success
  | recurrent units summarize =>
    refine (Layer.ofStates_makes shape units summarize).mono fun s' layer _ made => ?_
    obtain ⟨_, _, inputWeight, stateWeight, _, -, -, rfl, -, -, shaped⟩ := made
    exact .recurrent summarize _ _ inputWeight stateWeight shaped
  | dropout keep =>
    refine (Building.Yields.lift _).mono fun s' layer _ success => ?_
    unfold Layer.ofKeep at success
    split at success
    · cases success
      exact .dropout keep shape
    · cases success
  | scale factor => exact .pure (.scale factor shape)
  | normalization size => exact .pure (.normalization shape rfl)
  | split => exact .pure (.split _ shape)
  | concat => exact makes_of_inputs placement.inputShapes
  | activation a => exact .pure (.activation a shape)
  | loss l => exact .pure (.loss l shape)

/-- A layer is made of the blueprint that it was built from. -/
theorem instantiate_makes (b : Blueprint) (placement : Placement) :
    Building.Yields s (b.instantiate placement) fun s' => Layer.MadeOf s' b := by
  unfold instantiate
  split
  next shape _ => exact placeOne_makes b shape placement
  · split
    next joins =>
      cases b with
      | concat => exact makes_of_inputs _
      | _ => exact absurd joins Bool.false_ne_true
    · exact .fail _

end Blueprint

/-! ## Tokens -/

theorem Store.exists_tensor {s : Store} {id : TensorId} {shape : Shape}
    (shaped : s.shape? id = some shape) : ∃ t, s.get? id = some t ∧ t.shape = shape := by
  obtain ⟨c, there, rfl⟩ := Store.exists_content shaped
  obtain ⟨t, found, rfl⟩ := Option.map_eq_some_iff.mp there
  exact ⟨t, found, rfl⟩

theorem Layer.token_convolution {s : Store} {filters size channels : Nat} {kernel : TensorId}
    (windowing : Windowing) (inputShape outputShape : Shape) (bias : TensorId)
    (shaped : s.shape? kernel = some [size, size, channels, filters]) :
    (Layer.convolution inputShape outputShape windowing kernel bias).token s
      = .ok (s!"{filters}C{size}x{size}"
        ++ (if windowing.stride ≠ (1, 1) then extentsToken windowing.stride "S" else "")
        ++ if windowing.padding ≠ (0, 0) then extentsToken windowing.padding "P" else "") := by
  obtain ⟨t, found, shape⟩ := Store.exists_tensor shaped
  rw [token, Store.tensor, found]
  refine Outcome.bind_eq_ok_iff.mpr ⟨t, rfl, ?_⟩
  dsimp only
  rw [shape]
  rfl

theorem Layer.token_recurrent {s : Store} {units : Nat} {bias : TensorId} (summarize : Bool)
    (inputShape outputShape : Shape) (inputWeight stateWeight : TensorId) (wf : s.WellFormed)
    (shaped : s.shape? bias = some [units]) :
    (Layer.recurrent inputShape outputShape summarize inputWeight stateWeight bias).token s
      = .ok (toString units ++ if summarize then "RS" else "R") := by
  obtain ⟨t, found, shape⟩ := Store.exists_tensor shaped
  have count : t.count = units := by
    refine (wf.contents bias t found).count.trans ?_
    rw [shape]
    exact Nat.mul_one units
  rw [token, Store.tensor, found]
  refine Outcome.bind_eq_ok_iff.mpr ⟨t, rfl, ?_⟩
  rw [count]
  rfl

theorem Blueprint.eq_of_closeDims {dims : List (Option Nat)} {arriving shape : Shape}
    (closed : none ∉ dims) (success : closeDims dims arriving = .ok shape) :
    shape = dims.map (·.getD 0) := by
  unfold closeDims at success
  split at success
  · cases success
  · obtain rfl := Except.ok.inj success
    calc dims.zipIdx.map (fun p => p.1.getD (arriving.extent p.2))
        = dims.zipIdx.map ((·.getD 0) ∘ Prod.fst) := by
          refine List.map_congr_left fun p member => ?_
          obtain ⟨dim, i⟩ := p
          cases dim with
          | none => exact absurd (List.fst_mem_of_mem_zipIdx member) closed
          | some length => rfl
      _ = (dims.zipIdx.map Prod.fst).map (·.getD 0) := List.map_map.symm
      _ = dims.map (·.getD 0) := congrArg _ (List.zipIdx_map_fst 0 dims)

/-- Layers of one blueprint without open axes write one token. -/
theorem Layer.MadeOf.token_eq {s s' : Store} {b : Blueprint} {layer layer' : Layer}
    (made : layer.MadeOf s b) (made' : layer'.MadeOf s' b) (wf : s.WellFormed)
    (wf' : s'.WellFormed) (closed : ∀ dims, b = .input dims → none ∉ dims) :
    layer.token s = layer'.token s' := by
  cases made with
  | input success =>
    cases made' with
    | input success' =>
      rw [Blueprint.eq_of_closeDims (closed _ rfl) success,
        Blueprint.eq_of_closeDims (closed _ rfl) success']
      rfl
  | convolution windowing inputShape outputShape bias shaped =>
    cases made' with
    | convolution _ inputShape' outputShape' bias' shaped' =>
      rw [Layer.token_convolution _ _ _ _ shaped, Layer.token_convolution _ _ _ _ shaped']
  | recurrent summarize inputShape outputShape inputWeight stateWeight shaped =>
    cases made' with
    | recurrent _ _ _ _ _ shaped' =>
      rw [Layer.token_recurrent _ _ _ _ _ wf shaped, Layer.token_recurrent _ _ _ _ _ wf' shaped']
  | normalization shape size =>
    cases made' with
    | normalization shape' size' => rw [Layer.token, Layer.token, size, size']
  | _ =>
    cases made'
    rfl

/-! ## Open axes -/

/-- The pieces of a text hold no other characters than the text. -/
theorem Text.mem_of_mem_splitOn {separator : Char} {cs piece : List Char}
    (member : piece ∈ splitOn separator cs) {c : Char} (inside : c ∈ piece) : c ∈ cs := by
  induction cs generalizing piece with
  | nil =>
    obtain rfl := List.mem_singleton.mp member
    exact inside
  | cons first rest ih =>
    unfold splitOn at member
    dsimp only at member
    split at member
    · rcases List.mem_cons.mp member with rfl | member
      · cases inside
      · exact List.mem_cons_of_mem _ (ih member inside)
    · split at member
      · obtain rfl := List.mem_singleton.mp member
        obtain rfl := List.mem_singleton.mp inside
        exact List.mem_cons_self
      next head others pieces =>
        rw [pieces] at ih
        rcases List.mem_cons.mp member with rfl | member
        · rcases List.mem_cons.mp inside with rfl | inside
          · exact List.mem_cons_self
          · exact List.mem_cons_of_mem _ (ih List.mem_cons_self inside)
        · exact List.mem_cons_of_mem _ (ih (List.mem_cons_of_mem _ member) inside)

theorem Reader.of_mem_joined {d c : Char} {parts : List (List Char)} (member : c ∈ joined d parts) :
    c = d ∨ ∃ p ∈ parts, c ∈ p := by
  induction parts with
  | nil => cases member
  | cons p rest ih =>
    cases rest with
    | nil =>
      rw [joined_singleton] at member
      exact .inr ⟨p, List.mem_cons_self, member⟩
    | cons q rest =>
      rw [joined_cons_cons, List.mem_append, List.mem_cons] at member
      rcases member with first | rfl | later
      · exact .inr ⟨p, List.mem_cons_self, first⟩
      · exact .inl rfl
      · exact (ih later).imp_right fun ⟨p', among, inside⟩ =>
          ⟨p', List.mem_cons_of_mem p among, inside⟩

namespace Blueprint

theorem exists_axis {pieces : List (List Char)} {dims : List (Option Nat)}
    (axes : pieces.mapM readAxis = some dims) {dim : Option Nat} (member : dim ∈ dims) :
    ∃ piece ∈ pieces, readAxis piece = some dim := by
  induction pieces generalizing dims with
  | nil =>
    rw [List.mapM_nil] at axes
    cases axes
    cases member
  | cons piece rest ih =>
    rw [List.mapM_cons] at axes
    obtain ⟨first, read, axes⟩ := Option.bind_eq_some_iff.mp axes
    obtain ⟨others, more, axes⟩ := Option.bind_eq_some_iff.mp axes
    cases axes
    rcases List.mem_cons.mp member with rfl | member
    · exact ⟨piece, List.mem_cons_self, read⟩
    · obtain ⟨piece', among, read'⟩ := ih more member
      exact ⟨piece', List.mem_cons_of_mem piece among, read'⟩

/-- An axis that is left open is written with a minus. -/
theorem minus_mem_of_open {token : String} {dims : List (Option Nat)}
    (read : read? token = some (.input dims)) (axis : none ∈ dims) : '-' ∈ token.toList := by
  cases recognized_of_read read with
  | keyword named => simp [keywords] at named
  | input axes =>
    obtain ⟨piece, among, openAxis⟩ := exists_axis axes axis
    unfold readAxis at openAxis
    split at openAxis
    next minus =>
      refine Text.mem_of_mem_splitOn among ?_
      rw [minus]
      exact List.mem_cons_self
    next =>
      obtain ⟨length, -, absurd⟩ := Option.map_eq_some_iff.mp openAxis
      cases absurd

end Blueprint

/-- The token of an input has no minus. -/
theorem Layer.minus_not_mem_input {s : Store} {shape : Shape} {text : String}
    (written : (Layer.input shape).token s = .ok text) : '-' ∉ text.toList := by
  obtain rfl := Except.ok.inj written
  intro member
  rw [String.toList_intercalate] at member
  rcases Reader.of_mem_joined member with same | ⟨piece, among, inside⟩
  · exact absurd same (by decide)
  · obtain ⟨written, among', rfl⟩ := List.mem_map.mp among
    obtain ⟨length, -, rfl⟩ := List.mem_map.mp among'
    have digits : '-' ∈ Nat.toDigits 10 length := Nat.toList_repr ▸ inside
    exact absurd (Nat.isDigit_of_mem_toDigits (by decide) (by decide) digits) (by decide)

namespace Item

/-- Any layer of a layer token's blueprint writes the token. -/
theorem IsLayerToken.token_eq_ok {text : String} (own : IsLayerToken text) {b : Blueprint}
    (read : Blueprint.read? text = some b) {s : Store} (wf : s.WellFormed) {layer : Layer}
    (made : layer.MadeOf s b) :
    layer.kind ≠ .split ∧ layer.kind ≠ .concat ∧ layer.token s = .ok text := by
  obtain ⟨-, b', placement, supply, layer', supply', read', noSplit, noConcat, sound, built,
    written⟩ := own
  obtain rfl := Option.some.inj (read'.symm.trans read)
  obtain ⟨evolves, made'⟩ := Blueprint.instantiate_makes b' placement _ _ _ rfl built
  have closed : ∀ dims, b' = .input dims → none ∉ dims := by
    rintro dims rfl axis
    cases made' with
    | input _ => exact Layer.minus_not_mem_input written (Blueprint.minus_mem_of_open read axis)
  refine ⟨fun kind => ?_, fun kind => ?_, ?_⟩
  · rw [made.kind_iff.1.mp kind] at noSplit
    cases noSplit
  · rw [made.kind_iff.2.mp kind] at noConcat
    cases noConcat
  · rw [← written]
    exact made.token_eq made' wf (evolves.wellFormed sound) closed

end Item

end LayerNet
