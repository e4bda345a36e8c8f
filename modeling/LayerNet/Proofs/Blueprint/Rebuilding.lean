import LayerNet.Proofs.Blueprint.Telling
import LayerNet.Proofs.Layer.Redrawing

/-!
# Rebuilding — a layer's token rebuilds the layer

Where the blueprint of a token becomes a layer, the layer writes a token whose blueprint becomes the
same layer there, but for a scale by a negative zero (`Blueprint.exists_told`). A blueprint that
becomes a layer with one supply does with every other, and the layers differ in what was drawn only
(`Blueprint.instantiate_redraws`). Together: the token of a layer rebuilds the layer
(`Blueprint.token_rebuilds`).
-/

namespace LayerNet

/-! ## From another supply -/

namespace Blueprint

variable {s s' : Store}

/-- A layer that is not drawn is the same from every supply. -/
theorem redraws_of_lift (b : Blueprint) (shape : Shape) (placement : Placement) {x : Checked Layer}
    (lifts : b.placeOne shape placement = Building.lift x)
    (plain : ∀ s (layer : Layer), layer.MadeOf s b → layer.parameters = []
      ∧ ∀ factor shape, layer ≠ .scale factor shape) :
    Building.Redraws s s' (Building.lift x) (Building.lift x) Layer.Matches := by
  refine (Building.Redraws.lift x).mono ?_
  rintro _ _ _ layer ⟨success, rfl⟩
  have run : (b.placeOne shape placement).run ⟨Store.empty, ⟨fun _ => 0, 0⟩⟩
      = .ok (layer, ⟨Store.empty, ⟨fun _ => 0, 0⟩⟩) := by
    rw [lifts, success]
    rfl
  obtain ⟨none, noScale⟩ := plain _ layer (placeOne_makes b shape placement _ _ _ rfl run).2
  exact Layer.matches_self none noScale

theorem placeOne_redraws (b : Blueprint) (noScale : ∀ factor, b ≠ .scale factor) (shape : Shape)
    (placement : Placement) : Building.Redraws s s' (b.placeOne shape placement)
      (b.placeOne shape placement) Layer.Matches := by
  cases b with
  | input dims =>
    refine redraws_of_lift (.input dims) shape placement rfl ?_
    rintro s layer ⟨⟩
    exact ⟨rfl, nofun⟩
  | fullyConnected units => exact Layer.ofUnits_redraws shape units
  | convolution filters size windowing => exact Layer.ofFilters_redraws shape filters size windowing
  | pool pooling size =>
    refine redraws_of_lift (.pool pooling size) shape placement rfl ?_
    rintro s layer ⟨⟩
    exact ⟨rfl, nofun⟩
  | recurrent units summarize => exact Layer.ofStates_redraws shape units summarize
  | dropout keep =>
    refine redraws_of_lift (.dropout keep) shape placement rfl ?_
    rintro s layer ⟨⟩
    exact ⟨rfl, nofun⟩
  | scale factor => exact absurd rfl (noScale factor)
  | normalization size => exact .pure (Layer.matches_self rfl nofun)
  | split => exact .pure (Layer.matches_self rfl nofun)
  | concat =>
    refine redraws_of_lift .concat shape placement rfl ?_
    rintro s layer ⟨⟩
    exact ⟨rfl, nofun⟩
  | activation a => exact .pure (Layer.matches_self rfl nofun)
  | loss l => exact .pure (Layer.matches_self rfl nofun)

/-- Where a blueprint becomes a layer with one supply, it does with any other, and the two layers
match. -/
theorem instantiate_redraws {b : Blueprint} (noScale : ∀ factor, b ≠ .scale factor)
    (placement : Placement) : Building.Redraws s s' (b.instantiate placement)
      (b.instantiate placement) Layer.Matches := by
  unfold instantiate
  split
  next shape _ => exact placeOne_redraws b noScale shape placement
  · split
    next joins =>
      cases b with
      | concat => exact placeOne_redraws .concat nofun [] placement
      | _ => exact absurd joins Bool.false_ne_true
    · exact .fail _

end Blueprint

/-! ## From the layer's token -/

/-- The bias of a recurrence has one element for each unit. -/
theorem Layer.exists_bias_of_states {shape : Shape} {units : Nat} {summarize : Bool}
    {layer : Layer} {supply after : Supply}
    (run : (ofStates shape units summarize).run supply = .ok (layer, after)) :
    ∃ inputShape outputShape inputWeight stateWeight bias t,
      layer = .recurrent inputShape outputShape summarize inputWeight stateWeight bias
        ∧ after.store.get? bias = some t ∧ t.count = units := by
  unfold ofStates at run
  split at run
  · obtain ⟨features, supply₁, -, run₁⟩ := Outcome.run_bind_eq_ok.mp run
    obtain ⟨inputDrawn, supply₂, -, run₂⟩ := Outcome.run_bind_eq_ok.mp run₁
    obtain ⟨inputWeight, supply₃, -, run₃⟩ := Outcome.run_bind_eq_ok.mp run₂
    obtain ⟨stateDrawn, supply₄, -, run₄⟩ := Outcome.run_bind_eq_ok.mp run₃
    obtain ⟨stateWeight, supply₅, -, run₅⟩ := Outcome.run_bind_eq_ok.mp run₄
    obtain ⟨bias, supply₆, stored, run₆⟩ := Outcome.run_bind_eq_ok.mp run₅
    cases run₆
    obtain ⟨c, supply₇, lifted, added⟩ := Outcome.run_bind_eq_ok.mp stored
    obtain ⟨shape, wf⟩ := Content.of_zeros_eq_ok
      (Building.Yields.lift _ _ _ _ rfl lifted).2
    cases added
    refine ⟨_, _, _, _, _, _, rfl, Store.get?_add _ _ _, ?_⟩
    refine wf.count.trans ?_
    rw [shape]
    exact Nat.mul_one units
  · cases run

namespace Blueprint

/-- Without open axes nothing is taken from what arrives. -/
theorem closeDims_closed (declared shape : Shape) :
    closeDims (declared.map some) shape = .ok declared := by
  have closed : none ∉ declared.map some := by simp
  have success : ∃ shape', closeDims (declared.map some) shape = .ok shape' :=
    ⟨_, if_neg fun opens => closed opens.1⟩
  obtain ⟨shape', success⟩ := success
  have same : (declared.map some).map (·.getD 0) = declared := by simp
  rw [success, eq_of_closeDims closed success, same]

/-- An input whose axes are closed by what arrives is the input that was placed. -/
theorem placeInput_closed {dims : List (Option Nat)} {shape declared : Shape} (isSource : Bool)
    (closed : closeDims dims shape = .ok declared) :
    placeInput (declared.map some) shape isSource = placeInput dims shape isSource := by
  unfold placeInput
  rw [closed, closeDims_closed]

theorem exists_of_instantiate_input {dims : List (Option Nat)} {placement : Placement}
    {supply after : Supply} {layer : Layer}
    (built : ((input dims).instantiate placement).run supply = .ok (layer, after)) :
    ∃ shape declared, placement.inputShapes = [shape] ∧ closeDims dims shape = .ok declared
      ∧ declared.IsValid ∧ layer = .input declared := by
  unfold instantiate at built
  split at built
  next shape arrives =>
    have placed := (Building.Yields.lift _ _ _ _ rfl built).2
    obtain ⟨declared, closed, placed⟩ := Outcome.bind_eq_ok_iff.mp placed
    split at placed
    · cases placed
    · obtain ⟨_, valid, placed⟩ := Outcome.bind_eq_ok_iff.mp placed
      cases placed
      exact ⟨shape, declared, arrives, closed, (Shape.validate_eq_ok_iff declared).mp valid, rfl⟩
  · cases built

/-- The axes of a placed input fit a word if those that were told and those that arrive do. -/
theorem lt_of_closeDims {dims : List (Option Nat)} {shape declared : Shape}
    (tellable : (input dims).Tellable) (fits : ∀ n ∈ shape, n < Size.limit)
    (closed : closeDims dims shape = .ok declared) : ∀ n ∈ declared, n < Size.limit := by
  unfold closeDims at closed
  split at closed
  · cases closed
  · cases closed
    intro n member
    obtain ⟨⟨dim, i⟩, among, rfl⟩ := List.mem_map.mp member
    cases dim with
    | some k => exact (tellable k (List.fst_mem_of_mem_zipIdx among)).2
    | none =>
      show shape.getD i 0 < Size.limit
      rw [List.getD_eq_getElem?_getD]
      cases found : shape[i]? with
      | none => decide
      | some k => exact fits k (List.mem_of_getElem? found)

/-- The standard size means the same whether it is told or not. -/
theorem instantiate_normalization {size size' : Option Nat}
    (same : size'.getD Normalization.standard.size = size.getD Normalization.standard.size)
    (placement : Placement) :
    (normalization size').instantiate placement = (normalization size).instantiate placement := by
  unfold instantiate placeOne
  dsimp only
  rw [same]
  rfl

/-- But for a scale, what a layer's token asks for becomes the same layer where the layer stands. -/
theorem exists_told {b : Blueprint} (tellable : b.Tellable) (noScale : ∀ factor, b ≠ .scale factor)
    {placement : Placement} (fits : ∀ shape ∈ placement.inputShapes, ∀ n ∈ shape, n < Size.limit)
    {supply after : Supply} {layer : Layer}
    (built : (b.instantiate placement).run supply = .ok (layer, after)) :
    ∃ b', layer.Tells after.store b' ∧ (∀ factor, b' ≠ .scale factor)
      ∧ b'.instantiate placement = b.instantiate placement := by
  have made := (instantiate_makes b placement _ _ _ rfl built).2
  cases b with
  | input dims =>
    obtain ⟨shape, declared, arrives, closed, valid, rfl⟩ := exists_of_instantiate_input built
    have fits' := fits shape (arrives ▸ List.mem_singleton_self shape)
    refine ⟨_, Layer.tells_input valid (lt_of_closeDims tellable fits' closed), nofun, ?_⟩
    unfold instantiate
    rw [arrives]
    exact congrArg Building.lift (placeInput_closed placement.isSource closed)
  | fullyConnected units =>
    cases made
    exact ⟨_, Layer.tells_fullyConnected tellable _ _ _, noScale, rfl⟩
  | convolution filters size windowing =>
    obtain ⟨count, count', windows⟩ := tellable
    cases made with
    | convolution _ _ _ bias shaped =>
      exact ⟨_, Layer.tells_convolution count count' windows _ _ bias shaped, noScale, rfl⟩
  | pool pooling size =>
    cases made
    exact ⟨_, Layer.tells_pool tellable pooling _ _, noScale, rfl⟩
  | recurrent units summarize =>
    have states :
        ∃ shape, (Layer.ofStates shape units summarize).run supply = .ok (layer, after) := by
      unfold instantiate at built
      split at built
      next shape _ => exact ⟨shape, built⟩
      · cases built
    obtain ⟨shape, states⟩ := states
    obtain ⟨_, _, _, _, bias, t, rfl, found, size⟩ := Layer.exists_bias_of_states states
    exact ⟨_, Layer.tells_recurrent tellable summarize _ _ _ _ found size, noScale, rfl⟩
  | dropout keep =>
    cases made
    exact ⟨_, Layer.tells_dropout tellable.1 tellable.2 _, noScale, rfl⟩
  | scale factor => exact absurd rfl (noScale factor)
  | normalization size =>
    cases made with
    | @normalization _ settings shape same =>
      have count : IsCount settings.size := by
        rw [same]
        cases size with
        | none => decide
        | some n => exact tellable n rfl
      obtain ⟨size', tells, same'⟩ := Layer.tells_normalization count shape
      exact ⟨_, tells, nofun, instantiate_normalization (same'.trans same) placement⟩
  | split =>
    cases made
    exact ⟨_, Layer.tells_keyword rfl (by simp [keywords]), noScale, rfl⟩
  | concat =>
    cases made
    exact ⟨_, Layer.tells_keyword rfl (by simp [keywords]), noScale, rfl⟩
  | activation a =>
    cases made
    exact ⟨_, Layer.tells_keyword rfl (by cases a <;> simp [keywords, Activation.all]),
      noScale, rfl⟩
  | loss l =>
    cases made
    exact ⟨_, Layer.tells_keyword rfl (by cases l <;> simp [keywords, Loss.all]), noScale, rfl⟩

theorem eq_of_instantiate_scale {factor : Float32} {placement : Placement}
    {supply after : Supply} {layer : Layer}
    (built : ((scale factor).instantiate placement).run supply = .ok (layer, after)) :
    ∃ shape, layer = .scale factor shape
      ∧ ∀ factor' supply', ((scale factor').instantiate placement).run supply'
        = .ok (.scale factor' shape, supply') := by
  unfold instantiate at built
  split at built
  next shape arrives =>
    cases built
    refine ⟨shape, rfl, fun factor' supply' => ?_⟩
    unfold instantiate
    rw [arrives]
    rfl
  · cases built

/-- With a supply, the blueprint becomes a layer that resembles the given one and writes the same
token. -/
def Rebuilds (b : Blueprint) (placement : Placement) (s : Store) (layer : Layer) (token : String)
    (supply : Supply) : Prop :=
  ∃ layer' after', (b.instantiate placement).run supply = .ok (layer', after')
    ∧ layer.Resembles s after'.store layer' ∧ layer'.token after'.store = .ok token

/-- The token of a layer rebuilds the layer. Where the blueprint of a token becomes a layer, what
that layer writes is a token again, and there the blueprint of this token becomes a layer that
differs from the first in the values of its parameters only and writes the same token. So it does
with any other supply, unless a drawn value is not finite, which ends the run. -/
theorem token_rebuilds {text : String} {b : Blueprint} (read : read? text = some b)
    {placement : Placement} (fits : ∀ shape ∈ placement.inputShapes, ∀ n ∈ shape, n < Size.limit)
    {supply after : Supply} {layer : Layer}
    (built : (b.instantiate placement).run supply = .ok (layer, after)) :
    ∃ token b', layer.token after.store = .ok token ∧ read? token = some b'
      ∧ b'.Rebuilds placement after.store layer token supply
      ∧ ∀ supply', (b'.instantiate placement).run supply' = Outcome.stop .nonFinite
        ∨ b'.Rebuilds placement after.store layer token supply' := by
  have tellable := tellable_of_read read
  by_cases isScale : ∃ factor, b = .scale factor
  · obtain ⟨factor, rfl⟩ := isScale
    obtain ⟨shape, rfl, again⟩ := eq_of_instantiate_scale built
    obtain ⟨factor', ⟨token, written, read'⟩, equal, same⟩ :=
      Layer.tells_scale tellable after.store shape
    have rebuilds (supply' : Supply) :
        (scale factor').Rebuilds placement after.store (.scale factor shape) token supply' := by
      refine ⟨_, _, again factor' supply', ⟨rfl, rfl, rfl, .nil, rfl, rfl, equal⟩, ?_⟩
      rw [Layer.token, same]
      exact written
    exact ⟨token, _, written, read', rebuilds supply, fun supply' => .inr (rebuilds supply')⟩
  · have noScale : ∀ factor, b ≠ .scale factor := fun factor same => isScale ⟨factor, same⟩
    obtain ⟨b', ⟨token, written, read'⟩, noScale', again⟩ := exists_told tellable noScale fits built
    rw [← again] at built
    have rebuilds (supply' : Supply) : (b'.instantiate placement).run supply'
        = Outcome.stop .nonFinite ∨ b'.Rebuilds placement after.store layer token supply' := by
      refine (instantiate_redraws noScale' placement supply supply' rfl rfl _ built).imp_right ?_
      rintro ⟨⟨layer', after'⟩, built', -, resembles, same⟩
      exact ⟨layer', after', built', resembles, same.trans written⟩
    refine ⟨token, b', written, read', (rebuilds supply).resolve_left fun ended => ?_, rebuilds⟩
    rw [built] at ended
    cases ended

/-- Two units told with a zero in front, drawn from words that are zero. -/
theorem token_rebuilds_units : ∃ layer after,
    ((fullyConnected 2).instantiate ⟨[[3]], 1, true⟩).run ⟨Store.empty, .ofList []⟩
      = .ok (layer, after) ∧ read? "02N" = some (fullyConnected 2)
      ∧ ∃ token b', layer.token after.store = .ok token ∧ read? token = some b'
        ∧ b'.Rebuilds ⟨[[3]], 1, true⟩ after.store layer token ⟨Store.empty, .ofList []⟩
        ∧ ∀ supply', (b'.instantiate ⟨[[3]], 1, true⟩).run supply' = Outcome.stop .nonFinite
          ∨ b'.Rebuilds ⟨[[3]], 1, true⟩ after.store layer token supply' := by
  have read : read? "02N" = some (fullyConnected 2) := rfl
  have success : (((fullyConnected 2).instantiate ⟨[[3]], 1, true⟩).run
      ⟨Store.empty, .ofList []⟩).isOk = true := by decide +kernel
  cases built : ((fullyConnected 2).instantiate ⟨[[3]], 1, true⟩).run ⟨Store.empty, .ofList []⟩ with
  | error failure =>
    rw [built] at success
    cases success
  | ok made =>
    exact ⟨made.1, made.2, rfl, read, token_rebuilds read (by decide) built⟩

end Blueprint

end LayerNet
