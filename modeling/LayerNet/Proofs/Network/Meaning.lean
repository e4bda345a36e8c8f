import LayerNet.Proofs.Network.Abreast

/-!
# Meaning — what a network computes, by recursion on its graph

By itself a layer gives contents for contents (`Layer.evaluate`). A node's value is what its layer
gives for the values that its predecessors have for it (`Network.value`); the recursion ends since
the graph has no cycle. It says nothing of an order in which nodes run, of tensors or of a session.

A run that infers is a sequence of calls, one for each node, after those of its predecessors; the
tensors that it leaves have the values of the nodes, and so has every other run in an order of this
kind (`Network.forwardAll_meaning`).
-/

namespace LayerNet

/-! ## Layers by themselves -/

/-- What a layer gives for contents: they are added to a store with its parameters, and it runs on
them in a new session. -/
def Layer.evaluate (layer : Layer) (s : Store) (inputs : List Content) : Checked (List Content) :=
  let alone : Step TensorError (List Content) := do
    let ids ← inputs.mapM fun c => Step.add c none
    let outputs ← layer.forward ids
    outputs.mapM fun id => do return (← Step.tensor id).toContent
  (alone.run ⟨s, Session.fresh false, Generator.ofSeed 0⟩).1

theorem Store.Shows.run_toContent {m : Machine} {ids : List TensorId} {contents : List Content}
    (shows : m.store.Shows ids contents) :
    (ids.mapM fun id => (do return (← Step.tensor id).toContent : Step TensorError Content)).run m
      = (.ok contents, m) := by
  induction shows with
  | nil => rfl
  | @cons id c ids contents there _ ih =>
    obtain ⟨t, found, rfl⟩ := Option.map_eq_some_iff.mp there
    have first : (do return (← Step.tensor id).toContent : Step TensorError Content).run m
        = (.ok t.toContent, m) := by
      rw [Step.run_bind_ok (Step.run_tensor found)]
      rfl
    rw [List.mapM_cons, Step.run_bind_ok first, Step.run_bind_ok ih]
    rfl

/-- A layer that gives something where it runs gives the same contents by itself. -/
theorem Layer.evaluate_eq_ok {layer : Layer} {s : Store} {shapes : List Shape}
    (accepts : layer.Accepts s shapes) (wf : s.WellFormed) {m m' : Machine}
    (keeps : s.Keeps m.store) (formed : m.store.WellFormed) (inferring : m.session.training = false)
    {ids outputs : List TensorId} {inputs contents : List Content} (shows : m.store.Shows ids inputs)
    (run : (layer.forward ids).run m = (.ok outputs, m')) (gave : m'.store.Shows outputs contents) :
    layer.evaluate s inputs = .ok contents := by
  obtain ⟨ids₂, s₂, stored, adds⟩ := @Session.run_mapM_store (fun c => Step.add c none)
    (fun c m => ⟨_, _, rfl, rfl, rfl⟩) inputs ⟨s, Session.fresh false, Generator.ofSeed 0⟩
  have inputs_wf := shows.wellFormed formed
  have abreast : m.Abreast ⟨s₂, Session.fresh false, Generator.ofSeed 0⟩ :=
    ⟨formed, adds.wellFormed wf inputs_wf, ⟨inferring, rfl⟩, fun _ => rfl⟩
  have tied := shows.tied adds.added (Content.forall₂_same.mpr ⟨rfl, inputs_wf⟩)
  have shared : ∀ p ∈ layer.parameters, m.store.Tied Content.Same s₂ p p := by
    intro p member
    obtain ⟨c, there⟩ := accepts.exists_parameter p member
    exact ⟨c, c, keeps p c there, adds.keeps p c there, rfl, wf.content there⟩
  obtain ⟨outputs₂, m₂, run₂, -, -, given⟩ := Layer.forward_follows Content.respected_same
    (accepts.keeps keeps) shared tied abreast outputs m' run
  obtain ⟨contents₂, shown⟩ := Store.exists_shows (Store.exists_second_of_tied given)
  obtain ⟨rfl, -⟩ := Content.forall₂_same.mp (gave.related shown given)
  unfold Layer.evaluate
  dsimp only
  rw [Step.run_bind_ok stored, Step.run_bind_ok run₂, shown.run_toContent]

namespace Network

/-- What a node gives, one content for each edge or for the result. -/
def value (n : Network) (dag : n.graph.IsDag) (s : Store) (input : Content) (v : Nat) :
    Checked (List Content) := do
  let node ← Outcome.get (n.node? v)
  let inputs ← (
    if n.graph.predecessorsInOrder v = [] then pure [input]
    else (n.graph.predecessorsInOrder v).attach.mapM fun p => do
      Outcome.get (← value n dag s input p.1)[n.place p.1 v]?)
  node.layer.evaluate s inputs
termination_by n.graph.executionOrder.idxOf v
decreasing_by
  exact Digraph.idxOf_executionOrder_lt dag.wellFormed dag.acyclic
    ((Digraph.mem_predecessorsInOrder n.graph v p.1).mp p.2)

variable {n : Network}

/-- A node's value is found from those of its predecessors. -/
theorem value_eq_ok {dag : n.graph.IsDag} {s : Store} {x : Content} {v : Nat} {node : Node}
    (label : n.node? v = some node) {inputs outputs : List Content}
    (fed : n.Fed x (fun p c => ∃ cs, n.value dag s x p = .ok cs ∧ cs[n.place p v]? = some c) v inputs)
    (computes : node.layer.evaluate s inputs = .ok outputs) : n.value dag s x v = .ok outputs := by
  rw [value, label]
  refine Outcome.bind_eq_ok_iff.mpr ⟨node, rfl, Outcome.bind_eq_ok_iff.mpr ⟨inputs, ?_, computes⟩⟩
  unfold Fed at fed
  split at fed
  next root =>
    rw [if_pos root, fed]
    rfl
  next entered =>
    rw [if_neg entered, Outcome.mapM_eq_ok_iff]
    rw [← List.attach_map_subtype_val (n.graph.predecessorsInOrder v),
      List.forall₂_map_left_iff] at fed
    refine fed.imp fun p c given => ?_
    obtain ⟨cs, value, given⟩ := given
    exact Outcome.bind_eq_ok_iff.mpr ⟨cs, value, Outcome.get_eq_ok_iff.mpr given⟩

theorem Fed.exists_fed {α β : Type} {x : α} {y : β} {comes : Nat → α → Prop}
    {comes' : Nat → β → Prop} {v : Nat} {xs : List α} (fed : n.Fed x comes v xs) {T : α → β → Prop}
    (first : T x y) (others : ∀ p a, comes p a → ∃ b, comes' p b ∧ T a b) :
    ∃ ys, n.Fed y comes' v ys ∧ List.Forall₂ T xs ys := by
  unfold Fed at fed ⊢
  split
  next root =>
    rw [if_pos root] at fed
    subst fed
    exact ⟨[y], rfl, .cons first .nil⟩
  next entered =>
    rw [if_neg entered] at fed
    generalize n.graph.predecessorsInOrder v = sources at fed
    induction fed with
    | nil => exact ⟨[], .nil, .nil⟩
    | cons comes _ ih =>
      obtain ⟨b, comes', related⟩ := others _ _ comes
      obtain ⟨ys, fed', rest⟩ := ih
      exact ⟨b :: ys, .cons comes' fed', .cons related rest⟩

/-! ## Runs compute values -/

/-- What a call gives is its node's value, by induction on the calls. -/
theorem Performs.values {input : TensorId} {m m' : Machine} {calls : List Call} {t : Traffic}
    (performs : n.Performs input m calls t m') (fit : n.Fit m.store) (wf : m.store.WellFormed)
    (inferring : m.session.training = false) {x : Content} (there : m.store.content? input = some x)
    (ordered : n.graph.InOrder [] (calls.map Call.node)) :
    ∀ c ∈ calls, ∃ contents, n.value fit.dag m.store x c.node = .ok contents
      ∧ m'.store.Shows c.outputs contents := by
  induction performs with
  | start => exact fun c member => absurd member List.not_mem_nil
  | @call calls t t₁ m₁ m₂ v node inputs outputs performs label taken ran count ih =>
    rw [List.map_append, List.map_singleton] at ordered
    have before := (Digraph.inOrder_concat_iff.mp ordered).1
    have earlier := ih before
    have onward := (performs.made fit wf inferring ⟨x, there⟩ before).1
    obtain ⟨contents, fed, shows⟩ : ∃ contents, n.Fed x (fun p c => ∃ cs,
        n.value fit.dag m.store x p = .ok cs ∧ cs[n.place p v]? = some c) v contents
        ∧ m₁.store.Shows inputs contents := by
      refine (performs.fed fit.dag.wellFormed ordered taken).exists_fed
        (onward.keeps input x there) ?_
      rintro p id ⟨d, member, rfl, given⟩
      obtain ⟨cs, value, shows⟩ := earlier d member
      obtain ⟨c, found, there⟩ := exists_rel_of_getElem? shows given
      exact ⟨c, ⟨cs, value, found⟩, there⟩
    have accepts := fit.accepts v node label
    have inferring₁ := onward.training.trans inferring
    obtain ⟨more, found⟩ := Layer.forward_onward (accepts.keeps onward.keeps)
      (onward.wellFormed wf) inferring₁ shows.exists_content ran
    obtain ⟨results, gave⟩ := Store.exists_shows found
    have computes := Layer.evaluate_eq_ok accepts wf onward.keeps (onward.wellFormed wf) inferring₁
      shows ran gave
    intro c member
    rcases List.mem_append.mp member with member | last
    · obtain ⟨cs, value, shows⟩ := earlier c member
      exact ⟨cs, value, shows.keeps more.keeps⟩
    · rw [List.mem_singleton.mp last]
      exact ⟨results, value_eq_ok label fed computes, gave⟩

/-- A run on an input, its nodes in a given order, that did what the network means: one call for each
node, after those of its predecessors; each handed what the calls of the predecessors gave for the
edges from there; the results those of the sinks, in order of creation; and the contents those that
the recursion on the graph gives. -/
structure Meant (n : Network) (dag : n.graph.IsDag) (input : TensorId) (x : Content) (m : Machine)
    (order : List Nat) (calls : List Call) (ids : List TensorId) (m' : Machine) : Prop where
  performed : ∃ t, n.Performs input m calls t m'
  nodes : calls.map Call.node = order
  once : order.Perm (List.range n.nodeCount)
  entered : ∀ before c after, calls = before ++ c :: after →
    ∀ p, n.graph.Adj p c.node → ∃ d ∈ before, d.node = p
  wired : ∀ c ∈ calls, n.Wired input calls c
  results : List.Forall₂ (fun v id => ∃ c ∈ calls, c.node = v ∧ c.outputs = [id]) n.sinks ids
  values : ∀ c ∈ calls, ∃ contents, n.value dag m.store x c.node = .ok contents
    ∧ m'.store.Shows c.outputs contents

/-- The results have the values of the sinks. -/
theorem Meant.exists_values {dag : n.graph.IsDag} {input : TensorId} {x : Content} {m m' : Machine}
    {order : List Nat} {calls : List Call} {ids : List TensorId}
    (meant : n.Meant dag input x m order calls ids m') : ∃ contents,
      List.Forall₂ (fun v c => n.value dag m.store x v = .ok [c]) n.sinks contents
      ∧ m'.store.Shows ids contents := by
  refine exists_between (meant.results.imp ?_)
  rintro v id ⟨c, member, rfl, only⟩
  obtain ⟨contents, value, shows⟩ := meant.values c member
  rw [only] at shows
  rcases shows with _ | ⟨there, ⟨⟩⟩
  exact ⟨_, value, there⟩

section Inferring

variable {m : Machine} (fit : n.Fit m.store) (wf : m.store.WellFormed)
  (inferring : m.session.training = false) {input : TensorId} {x : Content}
  (there : m.store.content? input = some x)
include wf inferring there

/-- Every run that succeeds does what the network means. -/
theorem meant_of_performs {order : List Nat} (topological : n.graph.Topological order)
    {calls : List Call} (nodes : calls.map Call.node = order) {t : Traffic} {m' : Machine}
    (performs : n.Performs input m calls t m') :
    n.Meant fit.dag input x m order calls ((List.range n.nodeCount).flatMap t.given) m' := by
  subst nodes
  have ordered := topological.ordered
  exact {
    performed := ⟨t, performs⟩
    nodes := rfl
    once := topological.perm_range
    entered := by
      intro before c after split p edge
      rw [split, List.map_append, List.map_cons] at ordered
      obtain ⟨-, -, entered, -⟩ := ordered.of_append
      simpa using entered p edge
    wired := performs.wired fit.dag.wellFormed ordered
    results := performs.results ordered topological.complete
    values := performs.values fit wf inferring there ordered }

include fit

/-- Where a run succeeds, so does one in any order of this kind, with the same contents. -/
theorem meant_of_forwardAlong {order order' : List Nat} (topological : n.graph.Topological order)
    (topological' : n.graph.Topological order') {ids : List TensorId} {m' : Machine}
    (run : (n.forwardAlong order input).run m = (.ok ids, m')) : ∃ calls ids' m'',
      (n.forwardAlong order' input).run m = (.ok ids', m'')
        ∧ n.Meant fit.dag input x m order' calls ids' m'' := by
  obtain ⟨t, m₁, ran, given⟩ := Step.run_bind_eq_ok_iff.mp run
  cases given
  obtain ⟨calls, rfl, performs⟩ := (performs_iff topological.ordered.inside).mp ran
  have self {id : TensorId} (found : ∃ c, m.store.content? id = some c) :
      m.store.Tied Content.Same m.store id id := by
    obtain ⟨c, found⟩ := found
    exact ⟨c, c, found, found, rfl, wf.content found⟩
  obtain ⟨calls', t', m'', nodes, performs', -, -⟩ := performs.follows Content.respected_same
    ⟨wf, wf, ⟨inferring, inferring⟩, id⟩ (self ⟨x, there⟩) fit
    (fun v node label p member => self ((fit.accepts v node label).exists_parameter p member))
    topological.ordered topological.complete topological'.ordered
  refine ⟨calls', _, m'', ?_, meant_of_performs fit wf inferring there topological' nodes performs'⟩
  unfold forwardAlong
  rw [Step.run_bind_ok ((performs_iff topological'.ordered.inside).mpr ⟨calls', nodes, performs'⟩)]
  rfl

end Inferring

/-- A run of a compiled network that infers and succeeds does what the network means, and so does a
run in any other order of the nodes that puts each after its predecessors; the results have the same
contents, the values of the sinks. -/
theorem forwardAll_meaning {text : String} {options : Options} {store store' : Store} {n : Network}
    (compiled : compile text options store = .ok (n, store')) (wf : store.WellFormed) {m : Machine}
    (later : store'.Evolves m.store) (inferring : m.session.training = false) {input : TensorId}
    {x : Content} (there : m.store.content? input = some x) {ids : List TensorId} {m' : Machine}
    (run : (n.forwardAll input).run m = (.ok ids, m')) : ∃ dag calls contents,
      n.Meant dag input x m n.graph.executionOrder calls ids m'
      ∧ List.Forall₂ (fun v c => n.value dag m.store x v = .ok [c]) n.sinks contents
      ∧ m'.store.Shows ids contents
      ∧ ∀ order, n.graph.Topological order → ∃ calls ids' m'',
        (n.forwardAlong order input).run m = (.ok ids', m'')
        ∧ n.Meant dag input x m order calls ids' m'' ∧ m''.store.Shows ids' contents := by
  obtain ⟨evolves, fit⟩ := fit_of_compile compiled
  have fit := fit.evolves later
  have formed := later.wellFormed (evolves.wellFormed wf)
  have topological := Digraph.topological_executionOrder fit.dag.wellFormed fit.dag.acyclic
  rw [← forwardAlong_executionOrder] at run
  have others {order : List Nat} (topological' : n.graph.Topological order) :=
    meant_of_forwardAlong fit formed inferring there topological topological' run
  obtain ⟨calls, ids₁, m₁, run₁, meant⟩ := others topological
  rw [run] at run₁
  cases run₁
  obtain ⟨contents, values, shows⟩ := meant.exists_values
  refine ⟨fit.dag, calls, contents, meant, values, shows, fun order topological' => ?_⟩
  obtain ⟨calls', ids', m'', run', meant'⟩ := others topological'
  obtain ⟨contents', values', shows'⟩ := meant'.exists_values
  have unique : Relator.RightUnique fun v c => n.value fit.dag m.store x v = .ok [c] := by
    intro v c d value value'
    rw [value] at value'
    cases value'
    rfl
  obtain rfl := unique.forall₂ values values'
  exact ⟨calls', ids', m'', run', meant', shows'⟩

/-- What two inputs pass on is the value of the second. -/
theorem forwardAll_meaning_passes : ∃ store store' n x m',
    compile "2~-1" ⟨false, false, [2], .relu, .squared, 0, 0⟩ store = .ok (n, store')
      ∧ store'.content? ⟨0⟩ = some x
      ∧ (n.forwardAll ⟨0⟩).run ⟨store', Session.fresh false, Generator.ofSeed 0⟩ = (.ok [⟨0⟩], m')
      ∧ ∃ dag c, List.Forall₂ (fun v c => n.value dag store' x v = .ok [c]) n.sinks [c]
        ∧ m'.store.content? ⟨0⟩ = some c := by
  obtain ⟨store, store', n, x, m', compiled, wf, -, there, -, run⟩ := exists_passing_run
  obtain ⟨dag, calls, contents, -, values, shows, -⟩ := forwardAll_meaning compiled wf
    (m := ⟨store', Session.fresh false, Generator.ofSeed 0⟩) (.refl store') rfl there run
  rcases shows with _ | ⟨shown, ⟨⟩⟩
  exact ⟨store, store', n, x, m', compiled, there, run, dag, _, values, shown⟩

end Network

end LayerNet
