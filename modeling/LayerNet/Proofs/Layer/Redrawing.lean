import LayerNet.Proofs.Layer.Build

/-!
# Redrawing — layers that differ only in what was drawn

Of a layer only the values of its weights are drawn; its kind, its shapes, its settings and the
names of its parameters are not. So where a layer can be built from one supply it can be built from
any other, and the two resemble each other and write the same token (`Layer.Resembles`). The one
thing that can come between is a drawn value that is not finite, which ends the run.
-/

namespace LayerNet

/-! ## Computations that follow one another -/

/-- If the one computation has a value, the other has a related value, or it ends because a value
is not finite. -/
def Outcome.Follows {ε α β : Type} (R : α → β → Prop) (x : Outcome ε α) (y : Outcome ε β) : Prop :=
  ∀ a, x = .ok a → y = Outcome.stop .nonFinite ∨ ∃ b, y = .ok b ∧ R a b

namespace Outcome.Follows

variable {ε α β γ δ : Type} {R : α → β → Prop} {Q : γ → δ → Prop}

theorem ok {a : α} {b : β} (related : R a b) : Follows R (.ok a : Outcome ε α) (.ok b) := by
  rintro _ ⟨⟩
  exact .inr ⟨b, rfl, related⟩

theorem same (x : Outcome ε α) : Follows (fun a a' => x = .ok a ∧ a' = a) x x :=
  fun a success => .inr ⟨a, success, success, rfl⟩

/-- Nothing has to follow a computation without a value. -/
theorem error {failure : Failure ε} {y : Outcome ε β} :
    Follows R (.error failure : Outcome ε α) y :=
  fun _ success => nomatch success

theorem ite {c : Prop} [Decidable c] {x x' : Outcome ε α} {y y' : Outcome ε β}
    (holds : c → Follows R x y) (fails : ¬ c → Follows R x' y') :
    Follows R (if c then x else x') (if c then y else y') := by
  split
  next h => exact holds h
  next h => exact fails h

theorem bind {x : Outcome ε α} {y : Outcome ε β} {f : α → Outcome ε γ} {g : β → Outcome ε δ}
    (first : Follows R x y) (second : ∀ a b, R a b → Follows Q (f a) (g b)) :
    Follows Q (x >>= f) (y >>= g) := by
  intro c success
  obtain ⟨a, success₁, success₂⟩ := Outcome.bind_eq_ok_iff.mp success
  obtain ended | ⟨b, success', related⟩ := first a success₁
  · rw [ended]
    exact .inl rfl
  · rw [success']
    exact second a b related c success₂

theorem mono {x : Outcome ε α} {y : Outcome ε β} {S : α → β → Prop} (follows : Follows R x y)
    (weaker : ∀ a b, R a b → S a b) : Follows S x y := by
  intro a success
  exact (follows a success).imp_right fun ⟨b, success', related⟩ =>
    ⟨b, success', weaker a b related⟩

end Outcome.Follows

/-! ## Contents -/

namespace Content

open Outcome (Follows)

/-- Two contents differ at most in their values. -/
def SameForm (c c' : Content) : Prop := c'.shape = c.shape ∧ c'.count = c.count

theorem make_follows {values values' : Buffer} (sizes : values'.size = values.size)
    (shape : Shape) : Follows SameForm (make values shape) (make values' shape) := by
  refine (Follows.same _).bind fun _ _ _ => (Follows.same _).bind ?_
  rintro count _ ⟨-, rfl⟩
  rw [sizes]
  refine .ite (fun _ => .error) fun _ => ?_
  intro c success
  split at success
  · cases success
  · split
    · exact .inl rfl
    · refine Follows.bind (Follows.same _) (fun strides _ related => ?_) c success
      obtain ⟨-, rfl⟩ := related
      exact .ok ⟨rfl, sizes⟩

theorem glorot_follows (shape : Shape) (fanIn fanOut : Nat) (words words' : Generator) :
    Follows (fun p p' => SameForm p.1 p'.1) (glorot shape fanIn fanOut words)
      (glorot shape fanIn fanOut words') := by
  refine (Follows.same _).bind ?_
  rintro limit _ ⟨-, rfl⟩
  refine (Follows.same _).bind fun _ _ _ => .ite (fun _ => .error) fun _ => ?_
  refine .ite (fun _ => .error) fun _ => (Follows.same _).bind ?_
  rintro count _ ⟨-, rfl⟩
  refine (make_follows ?_ shape).bind fun c c' form => .ok form
  exact (Buffer.size_tabulate _ _).trans (Buffer.size_tabulate _ _).symm

theorem he_follows (shape : Shape) (fanIn : Nat) (words words' : Generator) :
    Follows (fun p p' => SameForm p.1 p'.1) (he shape fanIn words) (he shape fanIn words') := by
  refine (Follows.same _).bind fun _ _ _ => .ite (fun _ => .error) fun _ => ?_
  refine (Follows.same _).bind ?_
  rintro count _ ⟨-, rfl⟩
  refine (make_follows ?_ shape).bind fun c c' form => .ok form
  exact (Buffer.size_tabulate _ _).trans (Buffer.size_tabulate _ _).symm

end Content

/-! ## Tensors -/

namespace Store

/-- Two tensors in two stores differ at most in their values. -/
def Twins (s : Store) (id : TensorId) (s' : Store) (id' : TensorId) : Prop :=
  ∃ t t', s.get? id = some t ∧ s'.get? id' = some t' ∧ t'.name = t.name
    ∧ t.toContent.SameForm t'.toContent

variable {s s' : Store}

theorem lt_of_get? {id : TensorId} {t : Tensor} (found : s.get? id = some t) :
    id.index < s.tensors.size := (Array.getElem?_eq_some_iff.mp found).1

/-- Twins stay twins when tensors are added. -/
theorem Twins.add {id id' : TensorId} (twins : s.Twins id s' id') (c c' : Content)
    (name : Option String) : (s.add c name).2.Twins id (s'.add c' name).2 id' := by
  obtain ⟨t, t', found, found', same⟩ := twins
  refine ⟨t, t', ?_, ?_, same⟩
  · rw [get?_add_of_lt _ _ _ (lt_of_get? found), found]
  · rw [get?_add_of_lt _ _ _ (lt_of_get? found'), found']

/-- What is told of a tensor by its shape and its number of elements is told of its twin. -/
theorem Twins.bind_eq {α : Type} {id id' : TensorId} (twins : s.Twins id s' id')
    {f : Tensor → Checked α}
    (agree : ∀ t t' : Tensor, t'.shape = t.shape → t'.count = t.count → f t' = f t) :
    (s'.tensor id' >>= f) = s.tensor id >>= f := by
  obtain ⟨t, t', found, found', -, shape, count⟩ := twins
  unfold Store.tensor
  rw [found, found']
  exact agree t t' shape count

end Store

/-! ## Building -/

namespace Building

open Outcome (Follows)

variable {α β : Type} {s s' : Store}

/-- From two supplies with these stores, the second computation follows the first, and twins stay
twins. -/
def Redraws (s s' : Store) (x x' : Building α) (Q : Store → α → Store → α → Prop) : Prop :=
  ∀ supply supply', supply.store = s → supply'.store = s' →
    Follows (fun p p' => (∀ id id', s.Twins id s' id' → p.2.store.Twins id p'.2.store id')
      ∧ Q p.2.store p.1 p'.2.store p'.1) (x.run supply) (x'.run supply')

namespace Redraws

variable {Q : Store → α → Store → α → Prop}

theorem pure {a a' : α} (fits : Q s a s' a') : Redraws s s' (Pure.pure a) (Pure.pure a') Q := by
  rintro supply supply' rfl rfl
  exact .ok ⟨fun _ _ twins => twins, fits⟩

theorem bind {x x' : Building α} {f f' : α → Building β} {R : Store → β → Store → β → Prop}
    (first : Redraws s s' x x' Q)
    (second : ∀ r a r' a', (∀ id id', s.Twins id s' id' → r.Twins id r' id') → Q r a r' a' →
      Redraws r r' (f a) (f' a') R) : Redraws s s' (x >>= f) (x' >>= f') R := by
  intro supply supply' same same'
  rw [StateT.run_bind, StateT.run_bind]
  refine (first supply supply' same same').bind fun p p' kept => ?_
  refine (second _ _ _ _ kept.1 kept.2 p.2 p'.2 rfl rfl).mono fun q q' kept' => ?_
  exact ⟨fun id id' twins => kept'.1 id id' (kept.1 id id' twins), kept'.2⟩

theorem lift (x : Checked α) :
    Redraws s s' (Building.lift x) (Building.lift x) fun _ a _ a' => x = .ok a ∧ a' = a := by
  rintro supply supply' rfl rfl
  cases x with
  | error failure => exact fun _ success => nomatch success
  | ok a => exact .ok ⟨fun _ _ twins => twins, rfl, rfl⟩

theorem mono {x x' : Building α} {R : Store → α → Store → α → Prop} (redraws : Redraws s s' x x' Q)
    (weaker : ∀ r a r' a', Q r a r' a' → R r a r' a') : Redraws s s' x x' R :=
  fun supply supply' same same' => (redraws supply supply' same same').mono fun _ _ kept =>
    ⟨kept.1, weaker _ _ _ _ kept.2⟩

theorem fail (cause : TensorError) {x' : Building α} :
    Redraws s s' (Building.fail cause) x' Q :=
  fun _ _ _ _ _ success => nomatch success

theorem draw {f : Generator → Checked (Content × Generator)}
    (follows : ∀ words words', Follows (fun p p' => p.1.SameForm p'.1) (f words) (f words')) :
    Redraws s s' (Building.draw f) (Building.draw f) fun _ c _ c' => c.SameForm c' := by
  rintro supply supply' rfl rfl
  have run (supply : Supply) : (Building.draw f).run supply
      = f supply.words >>= fun p => .ok (p.1, { supply with words := p.2 }) := by
    unfold Building.draw
    cases drew : f supply.words with
    | error failure =>
      show (liftM (f supply.words) : Building (Content × Generator)).run supply >>= _ = _
      rw [drew]
      rfl
    | ok p =>
      show (liftM (f supply.words) : Building (Content × Generator)).run supply >>= _ = _
      rw [drew]
      rfl
  rw [run, run]
  exact (follows _ _).bind fun p p' form => .ok ⟨fun _ _ twins => twins, form⟩

theorem parameter (name : String) {c c' : Content} (form : c.SameForm c') :
    Redraws s s' (Building.parameter name c) (Building.parameter name c')
      fun r id r' id' => r.Twins id r' id' := by
  rintro supply supply' rfl rfl
  refine .ok ⟨fun id id' twins => twins.add c c' (some name), ?_⟩
  exact ⟨_, _, Store.get?_add _ _ _, Store.get?_add _ _ _, rfl, form⟩

theorem zeros (name : String) (shape : Shape) :
    Redraws s s' (Building.zeros name shape) (Building.zeros name shape)
      fun r id r' id' => r.Twins id r' id' := by
  refine (lift _).bind ?_
  rintro _ _ _ c - ⟨-, rfl⟩
  exact parameter name ⟨rfl, rfl⟩

end Redraws

end Building

/-! ## Layers -/

namespace Layer

/-- The settings of two layers of one kind are the same. Factors are compared as numbers, so that
the two zeros are the same. -/
def SameSettings : Layer → Layer → Prop
  | .convolution _ _ windowing _ _, .convolution _ _ windowing' _ _ => windowing' = windowing
  | .pool _ size _ _, .pool _ size' _ _ => size' = size
  | .recurrent _ _ summarize _ _ _, .recurrent _ _ summarize' _ _ _ => summarize' = summarize
  | .dropout keep _, .dropout keep' _ => keep' = keep
  | .scale factor _, .scale factor' _ => (factor' == factor) = true
  | .normalization settings _, .normalization settings' _ => settings' = settings
  | _, _ => True

/-- Two layers, each with a store, differ at most in the values of their parameters. -/
structure Resembles (s : Store) (layer : Layer) (s' : Store) (layer' : Layer) : Prop where
  kind : layer'.kind = layer.kind
  outputShape : layer'.outputShape = layer.outputShape
  outputCount : layer'.outputCount = layer.outputCount
  parameters : List.Forall₂ (fun id id' => s.Twins id s' id') layer.parameters layer'.parameters
  activation : layer'.activation? = layer.activation?
  loss : layer'.loss? = layer.loss?
  settings : layer.SameSettings layer'

/-- Two layers resemble each other and write the same token. -/
def Matches (s : Store) (layer : Layer) (s' : Store) (layer' : Layer) : Prop :=
  layer.Resembles s s' layer' ∧ layer'.token s' = layer.token s

variable {s s' : Store}

/-- Without parameters, a layer resembles itself whatever the stores are. A factor has to be a
number for this. -/
theorem matches_self {layer : Layer} (none : layer.parameters = [])
    (noScale : ∀ factor shape, layer ≠ .scale factor shape) : layer.Matches s s' layer := by
  refine ⟨⟨rfl, rfl, rfl, none ▸ .nil, rfl, rfl, ?_⟩, ?_⟩
  · cases layer with
    | scale factor shape => exact absurd rfl (noScale factor shape)
    | _ => first | rfl | trivial
  · cases layer with
    | convolution => cases none
    | recurrent => cases none
    | _ => rfl

theorem ofUnits_redraws (shape : Shape) (units : Nat) :
    Building.Redraws s s' (ofUnits shape units) (ofUnits shape units) Matches := by
  refine (Building.Redraws.lift _).bind ?_
  rintro _ _ _ fanIn - ⟨-, rfl⟩
  refine (Building.Redraws.draw fun _ _ => Content.glorot_follows _ _ _ _ _).bind ?_
  intro _ weight _ weight' _ form
  refine (Building.Redraws.lift _).bind ?_
  rintro _ _ _ bias - ⟨-, rfl⟩
  refine (Building.Redraws.parameter "fc.weight" form).bind ?_
  intro _ weightId _ weightId' _ weights
  refine (Building.Redraws.parameter "fc.bias" ⟨rfl, rfl⟩).bind ?_
  intro _ biasId _ biasId' kept biases
  refine .pure ⟨⟨rfl, rfl, rfl, ?_, rfl, rfl, trivial⟩, rfl⟩
  exact .cons (kept _ _ weights) (.cons biases .nil)

theorem ofFilters_redraws (shape : Shape) (filters size : Nat) (windowing : Windowing) :
    Building.Redraws s s' (ofFilters shape filters size windowing)
      (ofFilters shape filters size windowing) Matches := by
  unfold ofFilters
  split
  next height width channels =>
    refine (Building.Redraws.lift _).bind ?_
    rintro _ _ _ windows - ⟨-, rfl⟩
    cases windows with
    | none => exact .fail _
    | some windows =>
      refine (Building.Redraws.lift _).bind ?_
      rintro _ _ _ area - ⟨-, rfl⟩
      refine (Building.Redraws.lift _).bind ?_
      rintro _ _ _ fanIn - ⟨-, rfl⟩
      refine (Building.Redraws.draw fun _ _ => Content.he_follows _ _ _ _).bind ?_
      intro _ kernel _ kernel' _ form
      refine (Building.Redraws.parameter "conv.kernel" form).bind ?_
      intro _ kernelId _ kernelId' _ kernels
      refine (Building.Redraws.zeros "conv.bias" [filters]).bind ?_
      intro _ biasId _ biasId' kept biases
      refine .pure ⟨⟨rfl, rfl, rfl, ?_, rfl, rfl, rfl⟩, ?_⟩
      · exact .cons (kept _ _ kernels) (.cons biases .nil)
      · rw [token, token]
        exact (kept _ _ kernels).bind_eq fun t t' shape _ => by rw [shape]
  · exact .fail _

theorem ofStates_redraws (shape : Shape) (units : Nat) (summarize : Bool) :
    Building.Redraws s s' (ofStates shape units summarize) (ofStates shape units summarize)
      Matches := by
  unfold ofStates
  split
  next steps length rest =>
    refine (Building.Redraws.lift _).bind ?_
    rintro _ _ _ features - ⟨-, rfl⟩
    refine (Building.Redraws.draw fun _ _ => Content.glorot_follows _ _ _ _ _).bind ?_
    intro _ inputWeight _ inputWeight' _ form
    refine (Building.Redraws.parameter "rnn.input_weight" form).bind ?_
    intro _ inputId _ inputId' _ inputs
    refine (Building.Redraws.draw fun _ _ => Content.glorot_follows _ _ _ _ _).bind ?_
    intro _ stateWeight _ stateWeight' kept form'
    refine (Building.Redraws.parameter "rnn.state_weight" form').bind ?_
    intro _ stateId _ stateId' kept' states
    refine (Building.Redraws.zeros "rnn.bias" [units]).bind ?_
    intro _ biasId _ biasId' kept'' biases
    refine .pure ⟨⟨rfl, rfl, rfl, ?_, rfl, rfl, rfl⟩, ?_⟩
    · refine .cons (kept'' _ _ (kept' _ _ (kept _ _ inputs))) ?_
      exact .cons (kept'' _ _ states) (.cons biases .nil)
    · rw [token, token]
      exact biases.bind_eq fun t t' _ count => by rw [count]
  · exact .fail _

end Layer

end LayerNet
