import LayerNet.Blueprint.Instantiate
import LayerNet.Proofs.Outcome
import LayerNet.Proofs.Session.Runs

/-!
# Parameters — what a constructor stores

The parameters of a layer are the tensors that its constructor adds to the store: they are new,
they differ from each other, and nothing that was there changes. The bias is one of them, and all
its elements are zero (`Layer.Owns`). This holds of every blueprint, at every placement
(`Blueprint.owns_of_instantiate`).
-/

namespace LayerNet

/-! ## Stores that are added to -/

namespace Store.Untouched

variable {before after last : Store}

theorem trans (kept : before.Untouched after) (more : after.Untouched last) :
    before.Untouched last :=
  fun id t there => more id t (kept id t there)

theorem size_le (kept : before.Untouched after) : before.tensors.size ≤ after.tensors.size := by
  by_contra shrunk
  have inside : after.tensors.size < before.tensors.size := by omega
  have there : before.get? ⟨after.tensors.size⟩ = some before.tensors[after.tensors.size] :=
    Array.getElem?_eq_getElem inside
  have still := index_lt_of_get? (kept _ _ there)
  exact absurd still (Nat.lt_irrefl _)

end Store.Untouched

namespace Store.Adds

variable {contents : List Content} {before after : Store} {ids : List TensorId}

theorem exists_tensor (adds : Adds contents before ids after) {id : TensorId}
    (member : id ∈ ids) : ∃ t, after.get? id = some t := by
  obtain ⟨i, inside, rfl⟩ := List.getElem_of_mem member
  have there := adds.added.get inside (adds.added.length_eq ▸ inside)
  obtain ⟨t, found, -⟩ := Option.map_eq_some_iff.mp there
  exact ⟨t, found⟩

theorem lt_size (adds : Adds contents before ids after) {id : TensorId} (member : id ∈ ids) :
    id.index < after.tensors.size := by
  obtain ⟨t, found⟩ := adds.exists_tensor member
  exact index_lt_of_get? found

/-- A tensor that is added, and others after it. -/
theorem add {c : Content} {name : Option String}
    (rest : Adds contents (before.add c name).2 ids after) :
    Adds (c :: contents) before ((before.add c name).1 :: ids) after :=
  .cons rfl rfl rest

end Store.Adds

/-! ## Steps of a constructor -/

namespace Building

variable {α : Type} {supply supply' : Supply}

theorem run_lift_eq_ok {x : Checked α} {a : α}
    (run : (Building.lift x).run supply = .ok (a, supply')) : x = .ok a ∧ supply = supply' := by
  cases x with
  | error failure => cases run
  | ok a' =>
    cases run
    exact ⟨rfl, rfl⟩

/-- Drawing leaves the store alone. -/
theorem run_draw_eq_ok {f : Generator → Checked (Content × Generator)} {c : Content}
    (run : (Building.draw f).run supply = .ok (c, supply')) : supply'.store = supply.store := by
  obtain ⟨old, supply₁, got, run⟩ := Outcome.run_bind_eq_ok.mp run
  cases got
  obtain ⟨⟨c', words⟩, supply₂, drawn, run⟩ := Outcome.run_bind_eq_ok.mp run
  obtain ⟨-, rfl⟩ := run_lift_eq_ok drawn
  cases run
  rfl

theorem run_parameter_eq_ok {name : String} {c : Content} {id : TensorId}
    (run : (Building.parameter name c).run supply = .ok (id, supply')) :
    id = (supply.store.add c (some name)).1
      ∧ supply'.store = (supply.store.add c (some name)).2 := by
  cases run
  exact ⟨rfl, rfl⟩

theorem run_zeros_eq_ok {name : String} {shape : Shape} {id : TensorId}
    (run : (Building.zeros name shape).run supply = .ok (id, supply')) :
    ∃ c, Content.zeros shape = .ok c ∧ id = (supply.store.add c (some name)).1
      ∧ supply'.store = (supply.store.add c (some name)).2 := by
  obtain ⟨c, s₁, lifted, run⟩ := Outcome.run_bind_eq_ok.mp run
  obtain ⟨filled, rfl⟩ := run_lift_eq_ok lifted
  exact ⟨c, filled, run_parameter_eq_ok run⟩

end Building

/-! ## What layers own -/

/-- The parameters of a layer are what has been added to a store, and its bias consists of zeros. -/
structure Layer.Owns (layer : Layer) (before after : Store) : Prop where
  adds : ∃ contents, Store.Adds contents before layer.parameters after
  bias : ∀ id, layer.bias? = some id →
    ∃ c, after.content? id = some c ∧ c.values = Buffer.filled c.count 0

namespace Layer

theorem isSome_bias?_iff (layer : Layer) : layer.bias?.isSome = layer.isTrainable := by
  cases layer <;> rfl

theorem mem_parameters_of_bias? {layer : Layer} {id : TensorId} (isBias : layer.bias? = some id) :
    id ∈ layer.parameters := by
  cases layer with
  | fullyConnected | convolution | recurrent =>
    cases isBias
    simp [parameters]
  | _ => cases isBias

/-- A layer without parameters owns nothing. -/
theorem owns_of_plain {layer : Layer} (plain : layer.isTrainable = false) (s : Store) :
    layer.Owns s s where
  adds := by
    have none : layer.parameters = [] := by simpa [isTrainable] using plain
    exact ⟨[], none ▸ .refl s⟩
  bias id isBias := by
    rw [← isSome_bias?_iff, isBias] at plain
    cases plain

theorem values_of_zeros {shape : Shape} {c : Content} (filled : Content.zeros shape = .ok c) :
    c.values = Buffer.filled c.count 0 := by
  obtain ⟨-, -, filled⟩ := Outcome.bind_eq_ok_iff.mp filled
  obtain ⟨count, -, made⟩ := Outcome.bind_eq_ok_iff.mp filled
  obtain ⟨-, values, -⟩ := Content.of_make_eq_ok made
  rw [Content.count, values]
  simp [Buffer.filled]

/-- The layer of parameters that have been added, the last of which is its bias. -/
theorem Owns.of_adds {layer : Layer} {before middle after : Store} {shape : Shape} {c : Content}
    {name : String} (bias : layer.bias? = some (middle.add c (some name)).1)
    (filled : Content.zeros shape = .ok c)
    (last : after = (middle.add c (some name)).2)
    (adds : ∃ contents, Store.Adds contents before layer.parameters after) :
    layer.Owns before after where
  adds := adds
  bias id isBias := by
    cases bias.symm.trans isBias
    refine ⟨c, ?_, values_of_zeros filled⟩
    rw [last]
    exact Store.content?_of_get? (middle.get?_add c (some name))

section Constructors

variable {supply supply' : Supply} {layer : Layer}

theorem owns_ofUnits {shape : Shape} {units : Nat}
    (run : (ofUnits shape units).run supply = .ok (layer, supply')) :
    layer.Owns supply.store supply'.store := by
  obtain ⟨fanIn, s₁, lifted, run⟩ := Outcome.run_bind_eq_ok.mp run
  obtain ⟨-, rfl⟩ := Building.run_lift_eq_ok lifted
  obtain ⟨weight, s₂, drawn, run⟩ := Outcome.run_bind_eq_ok.mp run
  obtain ⟨bias, s₃, lifted, run⟩ := Outcome.run_bind_eq_ok.mp run
  obtain ⟨filled, rfl⟩ := Building.run_lift_eq_ok lifted
  obtain ⟨weightId, s₄, stored, run⟩ := Outcome.run_bind_eq_ok.mp run
  obtain ⟨biasId, s₅, stored', run⟩ := Outcome.run_bind_eq_ok.mp run
  obtain ⟨rfl, first⟩ := Building.run_parameter_eq_ok stored
  obtain ⟨rfl, second⟩ := Building.run_parameter_eq_ok stored'
  cases run
  rw [Building.run_draw_eq_ok drawn] at first ⊢
  refine .of_adds rfl filled second ?_
  rw [second, first]
  exact ⟨_, .add (.add (.refl _))⟩

theorem owns_ofFilters {shape : Shape} {filters size : Nat} {windowing : Windowing}
    (run : (ofFilters shape filters size windowing).run supply = .ok (layer, supply')) :
    layer.Owns supply.store supply'.store := by
  unfold ofFilters at run
  split at run
  next height width channels =>
    obtain ⟨windows, s₁, lifted, run⟩ := Outcome.run_bind_eq_ok.mp run
    obtain ⟨-, rfl⟩ := Building.run_lift_eq_ok lifted
    cases windows with
    | none => cases run
    | some windows =>
      obtain ⟨area, s₂, lifted, run⟩ := Outcome.run_bind_eq_ok.mp run
      obtain ⟨-, rfl⟩ := Building.run_lift_eq_ok lifted
      obtain ⟨fanIn, s₃, lifted, run⟩ := Outcome.run_bind_eq_ok.mp run
      obtain ⟨-, rfl⟩ := Building.run_lift_eq_ok lifted
      obtain ⟨kernel, s₄, drawn, run⟩ := Outcome.run_bind_eq_ok.mp run
      obtain ⟨kernelId, s₅, stored, run⟩ := Outcome.run_bind_eq_ok.mp run
      obtain ⟨biasId, s₆, stored', run⟩ := Outcome.run_bind_eq_ok.mp run
      obtain ⟨rfl, first⟩ := Building.run_parameter_eq_ok stored
      obtain ⟨bias, filled, rfl, second⟩ := Building.run_zeros_eq_ok stored'
      cases run
      rw [Building.run_draw_eq_ok drawn] at first ⊢
      refine .of_adds rfl filled second ?_
      rw [second, first]
      exact ⟨_, .add (.add (.refl _))⟩
  next => cases run

theorem owns_ofStates {shape : Shape} {units : Nat} {summarize : Bool}
    (run : (ofStates shape units summarize).run supply = .ok (layer, supply')) :
    layer.Owns supply.store supply'.store := by
  unfold ofStates at run
  split at run
  next steps length rest =>
    obtain ⟨features, s₁, lifted, run⟩ := Outcome.run_bind_eq_ok.mp run
    obtain ⟨-, rfl⟩ := Building.run_lift_eq_ok lifted
    obtain ⟨inputWeight, s₂, drawn, run⟩ := Outcome.run_bind_eq_ok.mp run
    obtain ⟨inputId, s₃, stored, run⟩ := Outcome.run_bind_eq_ok.mp run
    obtain ⟨stateWeight, s₄, drawn', run⟩ := Outcome.run_bind_eq_ok.mp run
    obtain ⟨stateId, s₅, stored', run⟩ := Outcome.run_bind_eq_ok.mp run
    obtain ⟨biasId, s₆, stored'', run⟩ := Outcome.run_bind_eq_ok.mp run
    obtain ⟨rfl, first⟩ := Building.run_parameter_eq_ok stored
    obtain ⟨rfl, second⟩ := Building.run_parameter_eq_ok stored'
    obtain ⟨bias, filled, rfl, third⟩ := Building.run_zeros_eq_ok stored''
    cases run
    rw [Building.run_draw_eq_ok drawn] at first ⊢
    rw [Building.run_draw_eq_ok drawn'] at second ⊢
    refine .of_adds rfl filled third ?_
    rw [third, second, first]
    exact ⟨_, .add (.add (.add (.refl _)))⟩
  next => cases run

/-- A layer that is made without the supply. -/
theorem owns_of_lift {x : Checked Layer}
    (plain : ∀ layer, x = .ok layer → layer.isTrainable = false)
    (run : (Building.lift x).run supply = .ok (layer, supply')) :
    layer.Owns supply.store supply'.store := by
  obtain ⟨made, rfl⟩ := Building.run_lift_eq_ok run
  exact owns_of_plain (plain layer made) _

theorem plain_of_inputs {shapes : List Shape} (made : ofInputs shapes = .ok layer) :
    layer.isTrainable = false := by
  unfold ofInputs at made
  split at made
  next =>
    split at made
    · cases made
    · obtain ⟨width, -, made⟩ := Outcome.bind_eq_ok_iff.mp made
      cases made
      rfl
  next => cases made

end Constructors

end Layer

/-- Whatever a blueprint is made into, it owns what has been added to the store. -/
theorem Blueprint.owns_of_instantiate {blueprint : Blueprint} {placement : Placement}
    {supply supply' : Supply} {layer : Layer}
    (run : (blueprint.instantiate placement).run supply = .ok (layer, supply')) :
    layer.Owns supply.store supply'.store := by
  unfold instantiate at run
  split at run
  next shape _ =>
    cases blueprint with
    | fullyConnected units => exact Layer.owns_ofUnits run
    | convolution filters size windowing => exact Layer.owns_ofFilters run
    | recurrent units summarize => exact Layer.owns_ofStates run
    | input dims =>
      refine Layer.owns_of_lift (fun layer made => ?_) run
      obtain ⟨declared, -, made⟩ := Outcome.bind_eq_ok_iff.mp made
      split at made
      · cases made
      · obtain ⟨-, -, made⟩ := Outcome.bind_eq_ok_iff.mp made
        cases made
        rfl
    | pool pooling size =>
      refine Layer.owns_of_lift (fun layer made => ?_) run
      unfold Layer.ofPooling at made
      split at made
      · split at made <;> cases made
        rfl
      · cases made
    | dropout keep =>
      refine Layer.owns_of_lift (fun layer made => ?_) run
      unfold Layer.ofKeep at made
      split at made <;> cases made
      rfl
    | concat => exact Layer.owns_of_lift (fun _ => Layer.plain_of_inputs) run
    | scale | normalization | split | activation | loss =>
      cases run
      exact Layer.owns_of_plain rfl _
  next =>
    split at run
    · exact Layer.owns_of_lift (fun _ => Layer.plain_of_inputs) run
    · cases run

end LayerNet
