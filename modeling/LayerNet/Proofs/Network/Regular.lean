import LayerNet.Network.Compile
import LayerNet.Network.Run
import LayerNet.Proofs.Session.Regular

/-!
# Regular tensors in a network — building and running

Running a network is running its layers, so it carries the tensors whatever the network is. Seeding
a loss adds a gradient of the output's size. Building a layer or compiling an architecture stores
parameters that were made, and a compilation then fills biases (`Building.Carries`).
-/

namespace LayerNet

open Step

/-! ## Losses -/

/-- The two tensors are read from the machine that the gradient is written to. -/
theorem Loss.carries_seed (loss : Loss) (output target : TensorId) :
    (loss.seed output target).Carries := by
  intro m regular
  unfold seed
  rcases run_bind_tensor output _ m with ⟨failure, run⟩ | ⟨predicted, there, run⟩ <;> rw [run]
  · exact .refl regular
  rcases run_bind_tensor target _ m with ⟨failure, run⟩ | ⟨expected, -, run⟩ <;> rw [run]
  · exact .refl regular
  split
  · exact .refl regular
  dsimp only
  generalize Buffer.combine (fun y t => (y - t) / Float32.ofNat (predicted.shape.extent 0))
    predicted.values expected.values = gradient
  cases seeded : predicted.accumulate gradient with
  | error failure =>
    rw [run_bind_error (run_lift _ m)]
    exact .refl regular
  | ok tensor =>
    exact m.store.carries_put regular there
      ((regular output predicted there).follows_add (d := .whole gradient) seeded)

namespace Network

variable (n : Network)

theorem carries_runNode (input : TensorId) (t : Traffic) (v : Nat) :
    (n.runNode input t v).Carries := by
  unfold runNode
  split
  · exact carries_pure _
  next node there =>
    have handed (inputs : List TensorId × Traffic) : Carries (do
        let outputs ← node.layer.forward inputs.1
        if outputs.length ≠ max (n.graph.successorsInOrder v).length 1 then
          Step.fail (.internal (.outputCount node.key outputs.length
            (n.graph.successorsInOrder v).length))
        else if (n.graph.successorsInOrder v).isEmpty then
          return { inputs.2 with
            results := inputs.2.results ++ outputs.map fun id => (v, id) }
        else
          return { inputs.2 with waiting := inputs.2.waiting
            ++ ((n.graph.successorsInOrder v).map fun s => (v, s)).zip outputs }) := by
      refine (Layer.carries_forward _ _).bind fun outputs => ?_
      split
      · exact carries_fail _
      split <;> exact carries_pure _
    dsimp only
    split
    · exact (carries_pure _).bind handed
    · exact (carries_lift _).bind handed

theorem carries_forwardAll (input : TensorId) : (n.forwardAll input).Carries :=
  (carries_foldlM _ _ fun t v => n.carries_runNode input t v).bind fun _ => carries_pure _

theorem carries_seedSinks (total : Float32) (sinks : List (Nat × TensorId × TensorId)) :
    (n.seedSinks total sinks).Carries := by
  induction sinks generalizing total with
  | nil => exact carries_pure _
  | cons sink rest ih =>
    obtain ⟨v, output, target⟩ := sink
    unfold seedSinks
    split
    · exact carries_lift _
    split
    · exact carries_fail _
    · exact (Loss.carries_seed _ _ _).bind fun value => ih _

theorem carries_seedLoss (outputs targets : List TensorId) :
    (n.seedLoss outputs targets).Carries := by
  unfold seedLoss
  dsimp only
  split
  · exact carries_fail _
  · exact n.carries_seedSinks _ _

end Network

/-! ## Building -/

namespace Supply

variable {ε α β : Type}

/-- On regular tensors, a building that succeeds leaves regular tensors, as large as they were, and
its value has a property. -/
def Carries (x : StateT Supply (Outcome ε) α) (Q : α → Prop) : Prop :=
  ∀ supply a supply', supply.store.Regular → x.run supply = .ok (a, supply') →
    supply.store.Carries supply'.store ∧ Q a

namespace Carries

variable {Q : α → Prop}

theorem pure {a : α} (fits : Q a) : Carries (Pure.pure a : StateT Supply (Outcome ε) α) Q := by
  intro supply _ _ regular run
  cases run
  exact ⟨.refl regular, fits⟩

theorem bind {x : StateT Supply (Outcome ε) α} {f : α → StateT Supply (Outcome ε) β}
    {R : β → Prop} (first : Carries x Q) (second : ∀ a, Q a → Carries (f a) R) :
    Carries (x >>= f) R := by
  intro supply b supply'' regular run
  rw [StateT.run_bind, Outcome.bind_eq_ok_iff] at run
  obtain ⟨⟨a, supply'⟩, run, run'⟩ := run
  obtain ⟨carries, fits⟩ := first supply a supply' regular run
  obtain ⟨carries', fits'⟩ := second a fits supply' b supply'' carries.regular run'
  exact ⟨carries.trans carries', fits'⟩

theorem lift (x : Outcome ε α) :
    Carries (liftM x : StateT Supply (Outcome ε) α) fun a => x = .ok a := by
  intro supply a supply' regular run
  cases x with
  | error failure => cases run
  | ok a' =>
    cases run
    exact ⟨.refl regular, rfl⟩

theorem weaken {x : StateT Supply (Outcome ε) α} (carries : Carries x Q) :
    Carries x fun _ => True := by
  intro supply a supply' regular run
  exact ⟨(carries supply a supply' regular run).1, trivial⟩

theorem foldlM {f : β → α → StateT Supply (Outcome ε) β} (xs : List α) (start : β)
    (each : ∀ b x, Carries (f b x) fun _ => True) : Carries (xs.foldlM f start) fun _ => True := by
  induction xs generalizing start with
  | nil => exact .pure trivial
  | cons x xs ih =>
    rw [List.foldlM_cons]
    exact (each start x).bind fun b _ => ih b

theorem mapM {f : α → StateT Supply (Outcome ε) β} (xs : List α)
    (each : ∀ x, Carries (f x) fun _ => True) : Carries (xs.mapM f) fun _ => True := by
  induction xs with
  | nil => exact .pure trivial
  | cons x xs ih =>
    rw [List.mapM_cons]
    exact (each x).bind fun _ _ => ih.bind fun _ _ => .pure trivial

end Carries

end Supply

namespace Building

/-- A content drawn from a distribution that makes contents. -/
theorem carries_draw {f : Generator → Checked (Content × Generator)}
    (made : ∀ g c g', f g = .ok (c, g') → c.Made) : Supply.Carries (draw f) Content.Made := by
  intro supply c supply' regular run
  unfold draw at run
  rw [StateT.run_bind, Outcome.bind_eq_ok_iff] at run
  obtain ⟨⟨old, _⟩, got, run⟩ := run
  cases got
  rw [StateT.run_bind, Outcome.bind_eq_ok_iff] at run
  obtain ⟨⟨⟨c', words⟩, _⟩, drawn, run⟩ := run
  cases drew : f supply.words with
  | error failure =>
    rw [drew] at drawn
    cases drawn
  | ok drawing =>
    rw [drew] at drawn
    cases drawn
    cases run
    exact ⟨.refl regular, made _ _ _ drew⟩

theorem carries_parameter (name : String) {c : Content} (made : c.Made) :
    Supply.Carries (parameter name c) fun _ => True := by
  intro supply id supply' regular run
  cases run
  have adds : Store.Adds [c] supply.store [(supply.store.add c (some name)).1]
      (supply.store.add c (some name)).2 := .cons rfl rfl (.refl _)
  exact ⟨adds.carries regular (List.forall_mem_singleton.mpr made.regular), trivial⟩

theorem carries_zeros (name : String) (shape : Shape) :
    Supply.Carries (zeros name shape) fun _ => True :=
  (Supply.Carries.lift _).bind fun _ filled => carries_parameter name (Content.full_made filled)

end Building

namespace Layer

open Building

theorem carries_ofUnits (inputShape : Shape) (units : Nat) :
    Supply.Carries (ofUnits inputShape units) fun _ => True := by
  refine (Supply.Carries.lift _).bind fun fanIn _ => ?_
  refine (carries_draw fun _ _ _ => Content.glorot_made).bind fun weight drawn => ?_
  refine (Supply.Carries.lift _).bind fun bias filled => ?_
  refine (carries_parameter _ drawn).bind fun _ _ => ?_
  exact (carries_parameter _ (Content.full_made filled)).bind fun _ _ => .pure trivial

theorem carries_ofFilters (inputShape : Shape) (filters size : Nat) (windowing : Windowing) :
    Supply.Carries (ofFilters inputShape filters size windowing) fun _ => True := by
  unfold ofFilters
  split
  · refine (Supply.Carries.lift _).bind fun extents _ => ?_
    split
    · exact (Supply.Carries.lift _).weaken
    · refine (Supply.Carries.lift _).bind fun area _ => ?_
      refine (Supply.Carries.lift _).bind fun fanIn _ => ?_
      refine (carries_draw fun _ _ _ => Content.he_made).bind fun kernel drawn => ?_
      refine (carries_parameter _ drawn).bind fun _ _ => ?_
      exact (carries_zeros _ _).bind fun _ _ => .pure trivial
  · exact (Supply.Carries.lift _).weaken

theorem carries_ofStates (inputShape : Shape) (units : Nat) (summarize : Bool) :
    Supply.Carries (ofStates inputShape units summarize) fun _ => True := by
  unfold ofStates
  split
  · refine (Supply.Carries.lift _).bind fun features _ => ?_
    refine (carries_draw fun _ _ _ => Content.glorot_made).bind fun inputWeight drawn => ?_
    refine (carries_parameter _ drawn).bind fun _ _ => ?_
    refine (carries_draw fun _ _ _ => Content.glorot_made).bind fun stateWeight drawn' => ?_
    refine (carries_parameter _ drawn').bind fun _ _ => ?_
    exact (carries_zeros _ _).bind fun _ _ => .pure trivial
  · exact (Supply.Carries.lift _).weaken

end Layer

/-- A layer built at any placement. -/
theorem Blueprint.carries_instantiate (blueprint : Blueprint) (placement : Placement) :
    Supply.Carries (blueprint.instantiate placement) fun _ => True := by
  unfold instantiate
  split
  · cases blueprint with
    | fullyConnected units => exact Layer.carries_ofUnits _ units
    | convolution filters size windowing => exact Layer.carries_ofFilters _ filters size windowing
    | recurrent units summarize => exact Layer.carries_ofStates _ units summarize
    | input | pool | dropout | concat => exact (Supply.Carries.lift _).weaken
    | scale | normalization | split | activation | loss => exact .pure trivial
  · split <;> exact (Supply.Carries.lift _).weaken

/-! ## Compiling -/

theorem carries_buildLayer (g : Digraph Component) (inputShape : Shape) (built : Layers × Shape)
    (v : Nat) : Supply.Carries (buildLayer g inputShape built v) fun _ => True := by
  unfold buildLayer
  split
  · exact .pure trivial
  next component _ =>
    refine (Supply.Carries.lift _).bind fun placement _ => ?_
    have layer : Supply.Carries (Compiling.ofBuilding (.layer component.key)
        (component.blueprint.instantiate placement)) fun _ => True := by
      intro supply a supply' regular run
      exact Blueprint.carries_instantiate _ _ supply a supply' regular
        (Outcome.mapCause_eq_ok_iff.mp run)
    exact layer.bind fun _ _ => .pure trivial

theorem ComponentGraph.carries_build (c : ComponentGraph) (options : Options) :
    Supply.Carries (c.build options) fun _ => True := by
  have nodes : Supply.Carries (buildNetwork c options.inputShape) fun _ => True := by
    refine (Supply.Carries.foldlM _ _ fun built v => carries_buildLayer _ _ built v).bind
      fun layers _ => (Supply.Carries.mapM _ fun ⟨component, v⟩ => ?_).bind fun _ _ => .pure trivial
    dsimp only
    split
    · exact .pure trivial
    · exact (Supply.Carries.lift _).weaken
  refine nodes.bind fun plain _ => ?_
  dsimp only
  generalize (if options.addActivations then _ else _) = n
  intro supply a supply' regular run
  cases run
  refine ⟨Store.carries_foldl (fun s layer regular => ?_) regular _, trivial⟩
  exact Layer.carries_fillBias regular layer _

/-- A compilation that succeeds has stored parameters and filled biases. -/
theorem carries_compile {text : String} {options : Options} {s s' : Store} {n : Network}
    (regular : s.Regular) (success : compile text options s = .ok (n, s')) : s.Carries s' := by
  obtain ⟨components, -, success⟩ := Outcome.bind_eq_ok_iff.mp success
  obtain ⟨⟨network, supply⟩, built, success⟩ := Outcome.bind_eq_ok_iff.mp success
  cases success
  exact (ComponentGraph.carries_build components options _ _ _ regular built).1

end LayerNet
