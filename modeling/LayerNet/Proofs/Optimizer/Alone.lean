import LayerNet.Optimizer
import LayerNet.Proofs.Session.Handing
import LayerNet.Proofs.Session.Regular
import Mathlib.Data.List.Nodup

/-!
# Parameters alone — an optimizer moves each parameter as if it held no other

Between the steps of an optimizer gradients are added to, allocated and dropped, one at a time or
all of them (`Optimizer.Event`). A run goes through such events, up to the first step that fails
(`Optimizer.after`).

A step of one slot reads and writes its own parameter only (`Slot.get?_step_of_ne`), and what it
makes of it hangs on nothing but the slot and the state of that parameter (`Slot.step_congr`). So an
optimizer over distinct parameters and one that holds a single one of them stay in accord on it
(`Optimizer.Accords`), through a step (`Accords.step`), through every other event and through a run
(`Accords.after`). This is `Optimizer.moves_alone`.
-/

namespace LayerNet

/-! ## One tensor -/

/-- What can happen to a gradient between steps. -/
inductive GradientChange where
  | add (amounts : Delta)
  | allocate
  | drop

namespace Tensor

/-- The tensor after a change of its gradient. Amounts that do not fit are refused, and change
nothing. -/
def changed (t : Tensor) : GradientChange → Tensor
  | .add amounts =>
    match t.add amounts with
    | .ok t' => t'
    | .error _ => t
  | .allocate => t.allocate
  | .drop => { t with gradient := none }

end Tensor

/-- Whoever holds a tensor changes its gradient in these ways. -/
theorem Access.run_changes (id : TensorId) (m : Machine) :
    (∀ amounts, ((accumulate id amounts).run m).2
        = { m with store := m.store.update id (·.changed (.add (.whole amounts))) })
      ∧ ((gradient id).run m).2 = { m with store := m.store.update id (·.changed .allocate) }
      ∧ ((dropGradient id).run m).2 = { m with store := m.store.update id (·.changed .drop) } := by
  refine ⟨fun amounts => ?_, ?_, rfl⟩
  · have unchanged (same : (m.store.get? id).map (·.changed (.add (.whole amounts)))
        = m.store.get? id) :
        m = { m with store := m.store.update id (·.changed (.add (.whole amounts))) } := by
      rw [← Store.eq_update rfl same.symm fun _ _ => rfl]
    unfold accumulate amend
    cases there : m.store.get? id with
    | none =>
      rcases Step.run_bind_tensor id _ m with ⟨_, missing⟩ | ⟨t, there', -⟩
      · rw [missing]
        exact unchanged (by rw [there]; rfl)
      · exact nomatch there.symm.trans there'
    | some t =>
      rw [Step.run_bind_ok (Step.run_tensor there)]
      dsimp only
      cases added : t.accumulate amounts with
      | error failure =>
        rw [Step.run_bind_error (Step.run_lift _ m)]
        refine unchanged ?_
        simp [there, Tensor.changed, Tensor.add, added]
      | ok t' =>
        rw [Step.run_bind_ok (Step.run_lift _ m)]
        have put : m.store.put id t' = m.store.update id (·.changed (.add (.whole amounts))) := by
          refine Store.eq_update rfl ?_ fun _ => m.store.get?_put_of_ne t'
          rw [Store.get?_put _ _ (Store.index_lt_of_get? there), there]
          simp [Tensor.changed, Tensor.add, added]
        rw [← put]
        rfl
  · unfold gradient
    rw [Step.run_bind_ok (Step.run_modifyStore _ m)]
    rcases Step.run_bind_tensor id _ _ with ⟨_, missing⟩ | ⟨_, -, read⟩
    · rw [missing]
      rfl
    · rw [read]
      rfl

namespace Tensor

/-- All of a tensor but the identity of its buffer, which hangs on how many buffers there were. -/
def state (t : Tensor) : Tensor := { t with buffer := ⟨0⟩ }

/-- Which buffer a tensor has makes no difference to what is added to its gradient. -/
theorem add_state (t : Tensor) (amounts : Delta) :
    t.state.add amounts = state <$> t.add amounts := by
  have count : t.state.count = t.count := rfl
  cases amounts with
  | whole amounts =>
    simp only [add, accumulate, count]
    split <;> rfl
  | sparse amounts =>
    simp only [add, scatter, count]
    split <;> rfl

/-- So it makes none to a change of the gradient. -/
theorem changed_state (t : Tensor) (change : GradientChange) :
    t.state.changed change = (t.changed change).state := by
  cases change with
  | allocate | drop => rfl
  | add amounts =>
    simp only [changed, add_state]
    cases t.add amounts <;> rfl

end Tensor

/-- The state of the tensor with an identity. -/
def Store.state? (s : Store) (id : TensorId) : Option Tensor := (s.get? id).map Tensor.state

section States

variable {s s' : Store} {id : TensorId} {f f' : Tensor → Tensor}

theorem Store.state?_congr (same : s.get? id = s'.get? id) : s.state? id = s'.state? id := by
  rw [state?, state?, same]

/-- Where the states are the same, so they are after changes that make the same of them. -/
theorem Store.state?_update (same : s.state? id = s'.state? id)
    (alike : ∀ t t', s.get? id = some t → s'.get? id = some t' → t.state = t'.state →
      (f t).state = (f' t').state) :
    (s.update id f).state? id = (s'.update id f').state? id := by
  unfold state? at same ⊢
  rw [get?_update, get?_update, if_pos rfl, if_pos rfl]
  cases there : s.get? id with
  | none =>
    rw [there] at same
    rw [Option.map_eq_none_iff.mp same.symm]
    rfl
  | some t =>
    rw [there] at same
    obtain ⟨t', there', states⟩ := Option.map_eq_some_iff.mp same.symm
    rw [there']
    exact congrArg some (alike t t' there there' states.symm)

theorem Store.state?_update_of_ne {other : TensorId} (different : other ≠ id) :
    (s.update other f).state? id = s.state? id :=
  state?_congr ((s.get?_update other id f).trans (if_neg different))

/-- Values that are changed alike stay the same, though each tensor gets a buffer of its own. -/
theorem Store.state?_mapValues (same : s.state? id = s'.state? id) (g : Buffer → Buffer) :
    (s.mapValues id g).state? id = (s'.mapValues id g).state? id := by
  apply state?_update same
  intro t t' _ _ states
  exact congrArg (fun t : Tensor => { t with values := g t.values }) states

/-- Whether a tensor is finite is seen from its state. -/
theorem Store.checkFinite_state? (s : Store) (id : TensorId) :
    (s.tensor id).bind Tensor.checkFinite
      = (Outcome.get (s.state? id)).bind Tensor.checkFinite := by
  unfold tensor state?
  cases s.get? id <;> rfl

end States

/-! ## One slot -/

namespace Slot

variable (rate momentum : Float32) {slot : Slot} {s t : Store}

theorem parameter_update (slot : Slot) (gradient : Buffer) :
    (slot.update momentum gradient).2.parameter = slot.parameter := by
  unfold update
  split <;> rfl

/-- The parameter of a slot stays. -/
theorem parameter_step (slot : Slot) (s : Store) :
    (slot.step rate momentum s).2.1.parameter = slot.parameter := by
  unfold step
  split
  · rfl
  · split
    · rfl
    · exact slot.parameter_update momentum _

/-- A slot moves no other tensor. -/
theorem get?_step_of_ne (s : Store) {id : TensorId} (other : slot.parameter ≠ id) :
    (slot.step rate momentum s).2.2.get? id = s.get? id := by
  unfold step
  split
  · rfl
  · split
    · rfl
    · simp only [Store.mapValues, parameter_update]
      exact (s.get?_update slot.parameter id _).trans (if_neg other)

/-- A parameter without a gradient is passed over. -/
theorem step_of_no_gradient (slot : Slot) {tensor : Tensor}
    (there : s.get? slot.parameter = some tensor) (none : tensor.gradient = none) :
    slot.step rate momentum s = (.ok (), slot, s) := by
  simp only [step, there, none]

/-- What a step makes of a slot and of its parameter, and whether it fails, hangs on the state of
the parameter alone. -/
theorem step_congr (same : s.state? slot.parameter = t.state? slot.parameter) :
    (slot.step rate momentum s).1 = (slot.step rate momentum t).1
      ∧ (slot.step rate momentum s).2.1 = (slot.step rate momentum t).2.1
      ∧ (slot.step rate momentum s).2.2.state? slot.parameter
        = (slot.step rate momentum t).2.2.state? slot.parameter := by
  have states := same
  unfold Store.state? at states
  cases there : s.get? slot.parameter with
  | none =>
    rw [there] at states
    have there' := Option.map_eq_none_iff.mp states.symm
    simp only [step, there, there']
    exact ⟨trivial, trivial, same⟩
  | some tensor =>
    rw [there] at states
    obtain ⟨tensor', there', alike⟩ := Option.map_eq_some_iff.mp states.symm
    have gradients : tensor'.gradient = tensor.gradient := by
      have fields : tensor'.state.gradient = tensor.state.gradient := by rw [alike]
      exact fields
    cases gradient : tensor.gradient with
    | none =>
      simp only [step, there, there', gradients, gradient]
      exact ⟨trivial, trivial, same⟩
    | some g =>
      simp only [step, there, there', gradients, gradient, Store.checkFinite_state?]
      have moved := Store.state?_mapValues same fun values =>
        Buffer.combine (fun p u => p - rate * u) values (slot.update momentum g).1
      rw [← slot.parameter_update momentum g] at moved
      rw [moved]
      refine ⟨rfl, trivial, ?_⟩
      exact slot.parameter_update momentum g ▸ moved

end Slot

/-! ## All slots -/

namespace Optimizer

section Slots

variable (rate momentum : Float32) {slots : List Slot} {s t : Store}

/-- The parameters of slots stay, also where a step fails midway. -/
theorem parameters_stepSlots (slots : List Slot) (s : Store) :
    (stepSlots rate momentum slots s).2.1.map Slot.parameter = slots.map Slot.parameter := by
  induction slots generalizing s with
  | nil => rfl
  | cons slot slots ih =>
    have kept := slot.parameter_step rate momentum s
    unfold stepSlots
    generalize slot.step rate momentum s = moved at kept
    obtain ⟨result, slot', s₁⟩ := moved
    cases result with
    | error failure => exact congrArg (· :: _) kept
    | ok _ =>
      show slot'.parameter :: (stepSlots rate momentum slots s₁).2.1.map Slot.parameter = _
      rw [ih]
      exact congrArg (· :: _) kept

/-- Slots move no other tensors than their parameters. -/
theorem get?_stepSlots_of_not_mem (s : Store) {id : TensorId}
    (other : id ∉ slots.map Slot.parameter) :
    (stepSlots rate momentum slots s).2.2.get? id = s.get? id := by
  induction slots generalizing s with
  | nil => rfl
  | cons slot slots ih =>
    rw [List.map_cons, List.mem_cons, not_or] at other
    have kept := slot.get?_step_of_ne rate momentum s (Ne.symm other.1)
    unfold stepSlots
    generalize slot.step rate momentum s = moved at kept
    obtain ⟨result, slot', s₁⟩ := moved
    cases result with
    | error failure => exact kept
    | ok _ => exact (ih s₁ other.2).trans kept

variable {rate momentum} in
/-- Slots are moved when the first is moved, and then the others. -/
theorem stepSlots_cons_eq_ok_iff {slot : Slot} {slots' : List Slot} {s' : Store} :
    stepSlots rate momentum (slot :: slots) s = (.ok (), slots', s') ↔
      ∃ first s₁ later, slot.step rate momentum s = (.ok (), first, s₁)
        ∧ stepSlots rate momentum slots s₁ = (.ok (), later, s') ∧ slots' = first :: later := by
  rw [stepSlots]
  generalize slot.step rate momentum s = moved
  obtain ⟨result, first, s₁⟩ := moved
  cases result with
  | error failure =>
    constructor
    · intro absurd
      cases absurd
    · rintro ⟨_, _, _, absurd, -⟩
      cases absurd
  | ok _ =>
    dsimp only
    generalize ran : stepSlots rate momentum slots s₁ = rest
    obtain ⟨result, later, last⟩ := rest
    constructor
    · intro success
      cases success
      exact ⟨first, s₁, later, rfl, ran, rfl⟩
    · rintro ⟨_, _, later', ⟨⟩, ran', rfl⟩
      cases ran.symm.trans ran'
      rfl

/-- A slot among others with other parameters is moved as it is alone. By induction on the slots:
those before it leave its parameter as it was, and those behind it leave it as it is then. -/
theorem stepSlots_alone (distinct : (slots.map Slot.parameter).Nodup) {slot : Slot}
    (member : slot ∈ slots) (same : t.state? slot.parameter = s.state? slot.parameter)
    {slots' : List Slot} {s' : Store}
    (success : stepSlots rate momentum slots s = (.ok (), slots', s')) :
    ∃ slot' t', stepSlots rate momentum [slot] t = (.ok (), [slot'], t') ∧ slot' ∈ slots'
      ∧ slot'.parameter = slot.parameter
      ∧ t'.state? slot.parameter = s'.state? slot.parameter := by
  induction slots generalizing s slots' with
  | nil => cases member
  | cons first slots ih =>
    obtain ⟨new, distinct⟩ := List.nodup_cons.mp distinct
    obtain ⟨first', s₁, later, moved, rest, rfl⟩ := stepSlots_cons_eq_ok_iff.mp success
    rcases List.mem_cons.mp member with rfl | member
    · obtain ⟨succeeds, moves, states⟩ := slot.step_congr rate momentum same
      rw [moved] at succeeds moves states
      have kept := slot.parameter_step rate momentum s
      rw [moved] at kept
      have unmoved := get?_stepSlots_of_not_mem rate momentum s₁ new
      rw [rest] at unmoved
      refine ⟨first', (slot.step rate momentum t).2.2, ?_, List.mem_cons_self, kept, ?_⟩
      · have moved' : slot.step rate momentum t
            = (.ok (), first', (slot.step rate momentum t).2.2) :=
          Prod.ext succeeds (Prod.ext moves rfl)
        exact stepSlots_cons_eq_ok_iff.mpr ⟨first', _, [], moved', rfl, rfl⟩
      · exact states.trans (Store.state?_congr unmoved).symm
    · have different : first.parameter ≠ slot.parameter := by
        intro equal
        exact new (equal ▸ List.mem_map_of_mem member)
      have others := first.get?_step_of_ne rate momentum s different
      rw [moved] at others
      have same₁ : t.state? slot.parameter = s₁.state? slot.parameter :=
        same.trans (Store.state?_congr others).symm
      obtain ⟨slot', t', ran, there, parameter, states⟩ := ih distinct member same₁ rest
      exact ⟨slot', t', ran, List.mem_cons_of_mem first' there, parameter, states⟩

/-- Slots that lose their gradients leave all other tensors alone. -/
theorem get?_dropGradients (o : Optimizer) (s : Store) (id : TensorId) :
    (o.dropGradients s).get? id = (s.get? id).map fun t =>
      if id ∈ o.slots.map Slot.parameter then { t with gradient := none } else t := by
  unfold dropGradients
  induction o.slots generalizing s with
  | nil => simp
  | cons slot slots ih =>
    rw [List.foldl_cons, ih, Store.dropGradient, Store.get?_update]
    by_cases own : slot.parameter = id
    · rw [if_pos own, Option.map_map]
      congr 1
      funext t
      simp [own]
    · simp [own, Ne.symm own]

/-- The gradient of a parameter is dropped, and all else of it stays. -/
theorem state?_dropGradients {o : Optimizer} (s : Store) {p : TensorId}
    (member : p ∈ o.slots.map Slot.parameter) :
    (o.dropGradients s).state? p = (s.state? p).map fun t => { t with gradient := none } := by
  unfold Store.state?
  rw [get?_dropGradients, Option.map_map, Option.map_map]
  congr 1
  funext t
  rw [Function.comp_apply, if_pos member]
  rfl

end Slots

/-! ## Runs -/

/-- What happens while an optimizer is used: to a gradient, to all gradients of its parameters, or
to the parameters. -/
inductive Event where
  | change (id : TensorId) (change : GradientChange)
  | dropGradients
  | step

namespace Event

/-- What an event makes of an optimizer and of the tensors, unless it is a step that fails. -/
def perform : Event → Optimizer × Store → Checked (Optimizer × Store)
  | change id c, (o, s) => .ok (o, s.update id (·.changed c))
  | dropGradients, (o, s) => .ok (o, o.dropGradients s)
  | step, (o, s) =>
    match o.step s with
    | (.ok (), moved) => .ok moved
    | (.error failure, _) => .error failure

/-- Whether an event belongs to the history of a parameter. -/
def concerns (p : TensorId) : Event → Bool
  | change id _ => id = p
  | dropGradients | step => true

end Event

/-- An optimizer and the tensors after events, of which no step failed. -/
def after (o : Optimizer) (s : Store) (events : List Event) : Checked (Optimizer × Store) :=
  events.foldlM (fun moved event => event.perform moved) (o, s)

/-- The velocity that an optimizer has for a parameter. -/
def velocity? (o : Optimizer) (p : TensorId) : Option Buffer :=
  (o.slots.find? fun slot => slot.parameter = p).bind Slot.velocity

theorem velocity?_of_mem {o : Optimizer} (distinct : (o.slots.map Slot.parameter).Nodup)
    {p : TensorId} {velocity : Option Buffer} (member : ⟨p, velocity⟩ ∈ o.slots) :
    o.velocity? p = velocity := by
  unfold velocity?
  have found : (o.slots.find? fun slot => slot.parameter = p).isSome :=
    List.find?_isSome.mpr ⟨_, member, decide_eq_true rfl⟩
  obtain ⟨slot, first⟩ := Option.isSome_iff_exists.mp found
  have passes := List.find?_some first
  have own : slot.parameter = p := of_decide_eq_true passes
  have same : slot = ⟨p, velocity⟩ :=
    List.inj_on_of_nodup_map distinct (List.mem_of_find?_eq_some first) member own
  rw [first, same]
  rfl

/-- One optimizer holds a parameter alone, and has for it what another one has for it that holds it
among others. -/
structure Accords (p : TensorId) (o : Optimizer) (s : Store) (alone : Optimizer) (t : Store) :
    Prop where
  distinct : (o.slots.map Slot.parameter).Nodup
  rate : alone.rate = o.rate
  momentum : alone.momentum = o.momentum
  slot : ∃ velocity, alone.slots = [⟨p, velocity⟩] ∧ ⟨p, velocity⟩ ∈ o.slots
  state : t.state? p = s.state? p

theorem perform_step_eq_ok {o o' : Optimizer} {s s' : Store} :
    Event.step.perform (o, s) = .ok (o', s') ↔ o.step s = (.ok (), o', s') := by
  generalize taken : o.step s = moved
  obtain ⟨result, moved⟩ := moved
  cases result <;> simp [Event.perform, taken]

namespace Accords

variable {p : TensorId} {o o' alone : Optimizer} {s s' t : Store}
  (accords : Accords p o s alone t)
include accords

/-- Both take a step, and it is the same step for the parameter. -/
theorem step (success : o.step s = (.ok (), o', s')) :
    ∃ alone' t', alone.step t = (.ok (), alone', t') ∧ Accords p o' s' alone' t' := by
  obtain ⟨velocity, only, member⟩ := accords.slot
  have parameters := parameters_stepSlots o.rate o.momentum o.slots s
  unfold Optimizer.step at success ⊢
  generalize ran : stepSlots o.rate o.momentum o.slots s = moved at success parameters
  obtain ⟨result, slots', s₁⟩ := moved
  cases success
  obtain ⟨slot', t', ran', member', same, states⟩ :=
    stepSlots_alone _ _ accords.distinct member accords.state ran
  obtain ⟨p', velocity'⟩ := slot'
  cases same
  rw [accords.rate, accords.momentum, only, ran']
  exact ⟨_, t', rfl, {
    distinct := parameters ▸ accords.distinct
    rate := rfl
    momentum := rfl
    slot := ⟨velocity', rfl, member'⟩
    state := states }⟩

/-- Both drop the gradient of the parameter. -/
theorem dropGradients : Accords p o (o.dropGradients s) alone (alone.dropGradients t) := by
  obtain ⟨velocity, only, member⟩ := accords.slot
  have among : p ∈ o.slots.map Slot.parameter := List.mem_map_of_mem member
  have among' : p ∈ alone.slots.map Slot.parameter := by simp [only]
  exact { accords with
    state := by rw [state?_dropGradients t among', state?_dropGradients s among, accords.state] }

/-- Both are there when the gradient of the parameter changes. -/
theorem change (c : GradientChange) :
    Accords p o (s.update p (·.changed c)) alone (t.update p (·.changed c)) := by
  have state : (t.update p (·.changed c)).state? p = (s.update p (·.changed c)).state? p := by
    apply Store.state?_update accords.state
    intro tensor tensor' _ _ states
    rw [← Tensor.changed_state, ← Tensor.changed_state, states]
  exact { accords with state := state }

/-- One of them alone is there when the gradient of another tensor changes. -/
theorem change_of_ne {id : TensorId} (other : id ≠ p) (f : Tensor → Tensor) :
    Accords p o (s.update id f) alone t :=
  { accords with state := accords.state.trans (Store.state?_update_of_ne other).symm }

/-- Through a run: the optimizer that holds the parameter alone sees what concerns it. By induction
on the events. -/
theorem after {events : List Event} (success : o.after s events = .ok (o', s')) :
    ∃ alone' t', alone.after t (events.filter (·.concerns p)) = .ok (alone', t')
      ∧ Accords p o' s' alone' t' := by
  induction events generalizing o s alone t with
  | nil =>
    cases success
    exact ⟨alone, t, rfl, accords⟩
  | cons event events ih =>
    obtain ⟨⟨o₁, s₁⟩, first, rest⟩ := except_bind_eq_ok_iff.mp success
    -- what concerns the parameter is an event for both, and what does not for none
    have passed (passed : event.concerns p = false) (accords : Accords p o₁ s₁ alone t) :
        ∃ alone' t', alone.after t ((event :: events).filter (·.concerns p)) = .ok (alone', t')
          ∧ Accords p o' s' alone' t' := by
      rw [List.filter_cons_of_neg (by simp [passed])]
      exact ih accords rest
    have shared {alone₁ : Optimizer} {t₁ : Store} (concerned : event.concerns p = true)
        (performed : event.perform (alone, t) = .ok (alone₁, t₁))
        (accords : Accords p o₁ s₁ alone₁ t₁) :
        ∃ alone' t', alone.after t ((event :: events).filter (·.concerns p)) = .ok (alone', t')
          ∧ Accords p o' s' alone' t' := by
      obtain ⟨alone', t', ran, accords⟩ := ih accords rest
      rw [List.filter_cons_of_pos concerned]
      exact ⟨alone', t', except_bind_eq_ok_iff.mpr ⟨_, performed, ran⟩, accords⟩
    cases event with
    | change id c =>
      cases first
      by_cases own : id = p
      · subst own
        exact shared (decide_eq_true rfl) rfl (accords.change c)
      · exact passed (decide_eq_false own) (accords.change_of_ne own _)
    | dropGradients =>
      cases first
      exact shared rfl rfl accords.dropGradients
    | step =>
      obtain ⟨alone₁, t₁, taken, accords₁⟩ := accords.step (perform_step_eq_ok.mp first)
      exact shared rfl (perform_step_eq_ok.mpr taken) accords₁

/-- A step at which the parameter has no gradient passes over it. -/
theorem pass {tensor : Tensor} (there : s.get? p = some tensor) (none : tensor.gradient = none)
    (success : o.step s = (.ok (), o', s')) :
    o'.velocity? p = o.velocity? p ∧ s'.state? p = s.state? p := by
  obtain ⟨velocity, -, member⟩ := accords.slot
  have parameters := parameters_stepSlots o.rate o.momentum o.slots s
  unfold Optimizer.step at success
  generalize ran : stepSlots o.rate o.momentum o.slots s = moved at success parameters
  obtain ⟨result, slots', s₁⟩ := moved
  cases success
  obtain ⟨slot', t', ran', member', -, states⟩ :=
    stepSlots_alone _ _ accords.distinct member (t := s) rfl ran
  have passed := Slot.step_of_no_gradient o.rate o.momentum ⟨p, velocity⟩ there none
  unfold stepSlots at ran'
  rw [passed] at ran'
  cases ran'
  rw [velocity?_of_mem accords.distinct member]
  exact ⟨velocity?_of_mem (o := ⟨slots', o.rate, o.momentum⟩) (parameters ▸ accords.distinct)
    member', states.symm⟩

end Accords

/-- An optimizer moves each of its parameters as it does one that it holds alone. After any run in
which no step fails, a parameter has the state and the velocity that it has when the optimizer was
made for it alone and saw what happened to its gradient; and each step at which it has no gradient
leaves both as they are. -/
theorem moves_alone {parameters : List TensorId} (distinct : parameters.Nodup)
    {rate momentum : Float32} {o : Optimizer} (made : atRest parameters rate momentum = .ok o)
    {s : Store} {events : List Event} {o' : Optimizer} {s' : Store}
    (ran : o.after s events = .ok (o', s')) : ∀ p ∈ parameters,
      (∃ alone alone' t, atRest [p] rate momentum = .ok alone
        ∧ alone.after s (events.filter (·.concerns p)) = .ok (alone', t)
        ∧ alone'.velocity? p = o'.velocity? p ∧ t.state? p = s'.state? p)
      ∧ ∀ before rest o₁ s₁ o₂ s₂ tensor, events = before ++ .step :: rest →
        o.after s before = .ok (o₁, s₁) → o₁.step s₁ = (.ok (), o₂, s₂) →
        s₁.get? p = some tensor → tensor.gradient = none →
        o₂.velocity? p = o₁.velocity? p ∧ s₂.state? p = s₁.state? p := by
  intro p member
  have accepted : 0 < rate ∧ 0 ≤ momentum ∧ momentum < 1 := by
    by_contra refused
    rw [atRest, if_neg refused] at made
    cases made
  rw [atRest, if_pos accepted] at made
  cases made
  have start : Accords p ⟨parameters.map fun p => ⟨p, none⟩, rate, momentum⟩ s
      ⟨[⟨p, none⟩], rate, momentum⟩ s := by
    constructor
    case distinct => simpa [Function.comp_def] using distinct
    case slot => exact ⟨none, rfl, List.mem_map_of_mem member⟩
    all_goals rfl
  constructor
  · obtain ⟨alone', t, ran', accords⟩ := start.after ran
    obtain ⟨velocity, only, member'⟩ := accords.slot
    refine ⟨_, alone', t, if_pos accepted, ran', ?_, accords.state⟩
    rw [velocity?_of_mem accords.distinct member']
    exact velocity?_of_mem (by simp [only]) (by simp [only])
  · intro before rest o₁ s₁ o₂ s₂ tensor _ reached taken there none
    obtain ⟨alone₁, t₁, -, accords⟩ := start.after reached
    exact accords.pass there none taken

/-- Two parameters, of which the second has no gradient at the first step. -/
theorem moves_alone_pair : ∃ s events o o' s',
    [(⟨0⟩ : TensorId), ⟨1⟩].Nodup ∧ atRest [⟨0⟩, ⟨1⟩] 1 0.5 = .ok o
      ∧ o.after s events = .ok (o', s')
      ∧ (s'.get? ⟨0⟩).map (·.values) = some #[-1.5] ∧ o'.velocity? ⟨0⟩ = some #[1.5]
      ∧ (s'.get? ⟨1⟩).map (·.values) = some #[-2] ∧ o'.velocity? ⟨1⟩ = some #[4]
      ∧ ∃ alone alone' t, atRest [⟨1⟩] 1 0.5 = .ok alone
        ∧ alone.after s (events.filter (·.concerns ⟨1⟩)) = .ok (alone', t)
        ∧ alone'.velocity? ⟨1⟩ = o'.velocity? ⟨1⟩ ∧ t.state? ⟨1⟩ = s'.state? ⟨1⟩ := by
  obtain ⟨s, is⟩ : ∃ s : Store, s = ((Store.empty.add ⟨[1], [1], #[1]⟩ none).2.add
      ⟨[1], [1], #[2]⟩ none).2 := ⟨_, rfl⟩
  obtain ⟨events, are⟩ : ∃ events : List Event, events = [.change ⟨0⟩ (.add (.whole #[1])), .step,
      .dropGradients, .change ⟨0⟩ (.add (.whole #[1])), .change ⟨1⟩ (.add (.sparse [(0, 4)])),
      .step] := ⟨_, rfl⟩
  have distinct : [(⟨0⟩ : TensorId), ⟨1⟩].Nodup := by decide
  obtain ⟨o, made⟩ : ∃ o, atRest [⟨0⟩, ⟨1⟩] 1 0.5 = .ok o := ⟨_, if_pos (by decide +kernel)⟩
  have runs : (atRest [⟨0⟩, ⟨1⟩] 1 0.5 >>= fun o => o.after s events).toOption.any
      (fun (o', s') => (s'.get? ⟨0⟩).map (·.values) = some #[-1.5]
        ∧ o'.velocity? ⟨0⟩ = some #[1.5] ∧ (s'.get? ⟨1⟩).map (·.values) = some #[-2]
        ∧ o'.velocity? ⟨1⟩ = some #[4]) = true := by
    rw [is, are]
    decide +kernel
  rw [made] at runs
  obtain ⟨⟨o', s'⟩, ran, shown⟩ := except_exists_of_any runs
  obtain ⟨first, velocity, second, velocity'⟩ := of_decide_eq_true shown
  obtain ⟨alone, -⟩ := moves_alone distinct made ran ⟨1⟩ (by decide)
  exact ⟨s, events, o, o', s', distinct, made, ran, first, velocity, second, velocity', alone⟩

end Optimizer

end LayerNet
