import LayerNet.Proofs.Network.Regular

/-!
# Reachable tensors — regular after any sequence of actions

A program that starts without tensors creates some, runs operations, layers and networks, replays
sessions, changes tensors in place, builds layers and takes steps of optimizers, in any order and
with any arguments (`Action`). Each action may fail, and the program may go on after it. A rule that
adds some amounts before it fails is a replay that fails and then these additions, which are actions
as well.

What every action keeps is that all tensors are regular and all velocities fit (`World.Regular`).
So after any number of actions shape, strides, values and gradient of every tensor agree, and to
reshape it or to add to its gradient changes nothing where it fails (`World.regular_after`).
-/

namespace LayerNet

/-- A machine, and the optimizers that move its tensors. -/
structure World where
  machine : Machine
  optimizers : List Optimizer

/-- What a program does next. -/
inductive Action where
  | create (values : Buffer) (shape : Shape) (name : Option String)
  | full (shape : Shape) (value : Float32)
  | uniform (shape : Shape) (low high : Float32) (words : Generator)
  | normal (shape : Shape) (std : Float32) (words : Generator)
  | glorot (shape : Shape) (fanIn fanOut : Nat) (words : Generator)
  | he (shape : Shape) (fanIn : Nat) (words : Generator)
  | apply (op : Operation TensorId)
  | custom (x : TensorId) (factor : Float32) (back : Session.Custom)
  | record (name : String) (inputs : List TensorId) (values : Buffer) (shape : Shape) (rule : Rule)
  | register (entry : Entry)
  | finalize
  | reset
  | start (training : Bool)
  | reshape (id : TensorId) (shape : Shape)
  | accumulate (id : TensorId) (amounts : Buffer)
  | gradient (id : TensorId)
  | editValues (id : TensorId) (edit : Edit)
  | editGradient (id : TensorId) (edit : Edit)
  | dropGradient (id : TensorId)
  | rename (id : TensorId) (name : String)
  | instantiate (blueprint : Blueprint) (placement : Placement) (words : Generator)
  | compile (text : String) (options : Options)
  | fillBias (layer : Layer) (value : Float32)
  | forward (layer : Layer) (xs : List TensorId)
  | seed (loss : Loss) (output target : TensorId)
  | forwardAll (network : Network) (input : TensorId)
  | seedLoss (network : Network) (outputs targets : List TensorId)
  | optimize (parameters : List TensorId) (rate momentum : Float32)
  | step (optimizer : Nat)
  | setRate (optimizer : Nat) (rate : Float32)
  | dropGradients (optimizer : Nat)

namespace World

/-- A program that has done nothing. -/
def start (training : Bool) (noise : Generator) : World :=
  ⟨⟨Store.empty, Session.fresh training, noise⟩, []⟩

/-- A step of the machine, whether it succeeds or not. -/
def run {ε α : Type} (w : World) (x : Step ε α) : World :=
  { w with machine := (x.run w.machine).2 }

/-- A content that is stored if it can be made. -/
def create (w : World) (content : Checked Content) (name : Option String) : World :=
  w.run (do Step.add (← Step.lift content) name : Step TensorError TensorId)

/-- A store that replaces the machine's if there is one. -/
def replace {ε : Type} (w : World) : Outcome ε Store → World
  | .ok store => { w with machine := { w.machine with store } }
  | .error _ => w

/-- An optimizer that is there from now on if it can be made. -/
def engage (w : World) : Checked Optimizer → World
  | .ok o => { w with optimizers := w.optimizers ++ [o] }
  | .error _ => w

/-- What an optimizer, if there is one, makes of itself and of the store. -/
def operate (w : World) (i : Nat) (f : Optimizer → Optimizer × Store) : World :=
  match w.optimizers[i]? with
  | some o => ⟨{ w.machine with store := (f o).2 }, w.optimizers.set i (f o).1⟩
  | none => w

/-- What an action does. -/
def perform (w : World) : Action → World
  | .create values shape name => w.create (Content.make values shape) name
  | .full shape value => w.create (Content.full shape value) none
  | .uniform shape low high words =>
    w.create (Prod.fst <$> Content.uniform shape low high words) none
  | .normal shape std words => w.create (Prod.fst <$> Content.normal shape std words) none
  | .glorot shape fanIn fanOut words =>
    w.create (Prod.fst <$> Content.glorot shape fanIn fanOut words) none
  | .he shape fanIn words => w.create (Prod.fst <$> Content.he shape fanIn words) none
  | .apply op => w.run (Session.apply op)
  | .custom x factor back => w.run (Session.custom x factor back)
  | .record name inputs values shape rule => w.run do
    Session.record name inputs (← Step.lift (Content.make values shape)) rule
  | .register entry => w.run (Session.register entry)
  | .finalize => w.run Session.finalize
  | .reset => w.run Session.reset
  | .start training => w.run (Session.start training)
  | .reshape id shape => w.run (Access.reshape id shape)
  | .accumulate id amounts => w.run (Access.accumulate id amounts)
  | .gradient id => w.run (Access.gradient id)
  | .editValues id edit => w.run (Access.editValues id edit)
  | .editGradient id edit => w.run (Access.editGradient id edit)
  | .dropGradient id => w.run (Access.dropGradient id)
  | .rename id name => w.run (Access.rename id name)
  | .instantiate blueprint placement words => w.replace ((fun built => built.2.store) <$>
    (blueprint.instantiate placement).run ⟨w.machine.store, words⟩)
  | .compile text options => w.replace (Prod.snd <$> LayerNet.compile text options w.machine.store)
  | .fillBias layer value => w.run (Step.modifyStore (layer.fillBias value) : Step TensorError Unit)
  | .forward layer xs => w.run (layer.forward xs)
  | .seed loss output target => w.run (loss.seed output target)
  | .forwardAll network input => w.run (network.forwardAll input)
  | .seedLoss network outputs targets => w.run (network.seedLoss outputs targets)
  | .optimize parameters rate momentum => w.engage (Optimizer.atRest parameters rate momentum)
  | .step i => w.operate i fun o => (o.step w.machine.store).2
  | .setRate i rate => w.operate i fun o => ({ o with rate }, w.machine.store)
  | .dropGradients i => w.operate i fun o => (o, o.dropGradients w.machine.store)

/-- The world after actions, of which some may have failed. -/
def after (w : World) (actions : List Action) : World := actions.foldl perform w

/-- All tensors are regular, and all velocities are as large as their parameters. -/
structure Regular (w : World) : Prop where
  tensors : w.machine.store.Regular
  optimizers : ∀ o ∈ w.optimizers, o.Fits w.machine.store

namespace Regular

variable {w : World} (regular : w.Regular)
include regular

theorem carried {m : Machine} (carries : w.machine.store.Carries m.store) :
    Regular { w with machine := m } where
  tensors := carries.regular
  optimizers o member := (regular.optimizers o member).carried carries

theorem run {ε α : Type} {x : Step ε α} (carries : x.Carries) : (w.run x).Regular :=
  regular.carried (carries _ regular.tensors)

theorem create {content : Checked Content} (made : ∀ c, content = .ok c → c.Made)
    (name : Option String) : (w.create content name).Regular :=
  regular.run (Step.carries_bind_lift fun c success => Step.carries_add (made c success) name)

theorem drawn {α : Type} {draw : Checked (Content × α)}
    (made : ∀ c a, draw = .ok (c, a) → c.Made) (name : Option String) :
    (w.create (Prod.fst <$> draw) name).Regular := by
  refine regular.create (fun c success => ?_) name
  obtain ⟨⟨c', a⟩, drew, rfl⟩ := except_map_eq_ok_iff.mp success
  exact made c' a drew

theorem replace {ε : Type} {built : Outcome ε Store}
    (carries : ∀ s, built = .ok s → w.machine.store.Carries s) : (w.replace built).Regular := by
  cases built with
  | error failure => exact regular
  | ok s => exact regular.carried (carries s rfl)

theorem engage {made : Checked Optimizer} (fits : ∀ o, made = .ok o → o.Fits w.machine.store) :
    (w.engage made).Regular := by
  cases made with
  | error failure => exact regular
  | ok o =>
    refine ⟨regular.tensors, fun o' member => ?_⟩
    rcases List.mem_append.mp member with old | new
    · exact regular.optimizers o' old
    · exact List.mem_singleton.mp new ▸ fits o rfl

theorem operate (i : Nat) {f : Optimizer → Optimizer × Store}
    (carries : ∀ o : Optimizer, o.Fits w.machine.store →
      w.machine.store.Carries (f o).2 ∧ (f o).1.Fits (f o).2) : (w.operate i f).Regular := by
  unfold World.operate
  split
  next o there =>
    obtain ⟨carried, fits⟩ := carries o (regular.optimizers o (List.mem_of_getElem? there))
    refine ⟨carried.regular, fun o' member => ?_⟩
    rcases List.mem_or_eq_of_mem_set member with old | rfl
    · exact (regular.optimizers o' old).carried carried
    · exact fits
  · exact regular

/-- An action keeps what holds, whatever it is, and whether it succeeds or not. -/
theorem perform (a : Action) : (w.perform a).Regular := by
  cases a with
  | create => exact regular.create (fun c made => Content.made_of_make made) _
  | full => exact regular.create (fun c filled => Content.full_made filled) _
  | uniform => exact regular.drawn (fun c g drew => Content.uniform_made drew) _
  | normal => exact regular.drawn (fun c g drew => Content.normal_made drew) _
  | glorot => exact regular.drawn (fun c g drew => Content.glorot_made drew) _
  | he => exact regular.drawn (fun c g drew => Content.he_made drew) _
  | apply op => exact regular.run (Session.carries_apply op)
  | custom x factor back => exact regular.run (Session.carries_custom x factor back)
  | record name inputs values shape rule =>
    exact regular.run (Step.carries_bind_lift fun c made =>
      Session.carries_record (Content.made_of_make made) name inputs rule)
  | register entry => exact regular.run (Session.carries_register entry)
  | finalize => exact regular.run Session.carries_finalize
  | reset | start => exact regular.run (Step.carries_modifySession _)
  | reshape id shape => exact regular.run (Access.carries_reshape id shape)
  | accumulate id amounts => exact regular.run (Access.carries_accumulate id amounts)
  | gradient id => exact regular.run (Access.carries_gradient id)
  | editValues id edit => exact regular.run (Access.carries_editValues id edit)
  | editGradient id edit => exact regular.run (Access.carries_editGradient id edit)
  | dropGradient id => exact regular.run (Access.carries_dropGradient id)
  | rename id name => exact regular.run (Access.carries_rename id name)
  | instantiate blueprint placement words =>
    refine regular.replace fun s success => ?_
    obtain ⟨⟨layer, supply⟩, built, rfl⟩ := except_map_eq_ok_iff.mp success
    exact (blueprint.carries_instantiate placement _ _ _ regular.tensors built).1
  | compile text options =>
    refine regular.replace fun s success => ?_
    obtain ⟨⟨network, store⟩, compiled, rfl⟩ := except_map_eq_ok_iff.mp success
    exact carries_compile regular.tensors compiled
  | fillBias layer value =>
    exact regular.run
      (Step.carries_modifyStore fun s tensors => layer.carries_fillBias tensors value)
  | forward layer xs => exact regular.run (layer.carries_forward xs)
  | seed loss output target => exact regular.run (loss.carries_seed output target)
  | forwardAll network input => exact regular.run (network.carries_forwardAll input)
  | seedLoss network outputs targets => exact regular.run (network.carries_seedLoss outputs targets)
  | optimize => exact regular.engage fun o rest => Optimizer.fits_atRest rest _
  | step i => exact regular.operate i fun o fits => Optimizer.carries_step regular.tensors fits
  | setRate i rate => exact regular.operate i fun o fits => ⟨.refl regular.tensors, fits⟩
  | dropGradients i =>
    refine regular.operate i fun o fits => ?_
    have carries := Optimizer.carries_dropGradients regular.tensors o
    exact ⟨carries, fits.carried carries⟩

end Regular

theorem regular_start (training : Bool) (noise : Generator) : (start training noise).Regular :=
  ⟨Store.regular_empty, fun _ member => absurd member List.not_mem_nil⟩

/-- After any actions, by induction on them. -/
theorem Regular.after {w : World} (regular : w.Regular) (actions : List Action) :
    (w.after actions).Regular := by
  induction actions generalizing w with
  | nil => exact regular
  | cons a actions ih => exact ih (regular.perform a)

/-- Whatever a program has done, every tensor is regular. Giving a tensor another shape or adding to
its gradient fails only where it leaves the machine as it was. -/
theorem regular_after (training : Bool) (noise : Generator) (actions : List Action) :
    ((start training noise).after actions).machine.store.Regular
      ∧ ∀ id, (∀ shape, (Access.reshape id shape).AllOrNothing)
        ∧ ∀ amounts, (Access.accumulate id amounts).AllOrNothing :=
  ⟨((regular_start training noise).after actions).tensors, fun id =>
    ⟨fun _ => Access.allOrNothing_amend id _, fun _ => Access.allOrNothing_amend id _⟩⟩

/-- Two elements cannot take a shape of three, nor receive one amount, but they make a row. -/
example : (((start false (.ofSeed 0)).after [.create #[1, 2] [2] none, .reshape ⟨0⟩ [3],
      .accumulate ⟨0⟩ #[1], .reshape ⟨0⟩ [1, 2]]).machine.store.get? ⟨0⟩).map
      (fun t => (t.shape, t.strides, t.gradient.isSome))
    = some ([1, 2], [2, 1], false) := by
  decide +kernel

end World

end LayerNet
