import LayerNet.Proofs.Component.Scopes
import LayerNet.Proofs.Component.Watching

/-!
# Lagging — an assembly with a name behind one without

Of two statement lists, one has a definition where the other has its value inlined. Their
assemblies go side by side. While the value is instantiated the first one lags: the second has links
that the first makes later. Apart from these links their states have the same blueprints, edges and
exits, and scope by scope the same bindings, but for the name and for the value of another
definition that uses it (`Assembly.Lags`).

From such states a computation follows another one (`Follows`) when it stops, or both fail, or both
give the same answer and such states again; or the second one fails because a late link is there
already, which the first one will find out when it makes the link. There is one lemma for each way
to combine computations.
-/

namespace LayerNet

open Assembling

/-! ## States -/

section

variable (name : String) (value : List Segment)

/-- Two states with the same blueprints and exits, in which the frames in scope are at their stages.
The second has the edges of the first and the late ones. -/
structure Assembly.Lags (late : List Edge) (stages : List Stage) (s t : Assembly) : Prop where
  blueprints : s.components.graph.vertices.map Component.blueprint
    = t.components.graph.vertices.map Component.blueprint
  edges : t.components.graph.edges.Perm (late ++ s.components.graph.edges)
  nodup : t.components.graph.edges.Nodup
  exits : s.components.exits = t.components.exits
  frames : Stage.RelatesAll name value stages s.frames t.frames

end

section

variable {name : String} {value : List Segment} {late : List Edge} {stages : List Stage}

theorem Assembly.Lags.size {s t : Assembly} (lags : s.Lags name value late stages t) :
    s.components.size = t.components.size := by
  have sizes := congrArg Array.size lags.blueprints
  rw [Array.size_map, Array.size_map] at sizes
  exact sizes

theorem Assembly.Lags.mem_edges {s t : Assembly} (lags : s.Lags name value late stages t)
    (e : Edge) :
    e ∈ t.components.graph.edges ↔ e ∈ late ∨ e ∈ s.components.graph.edges := by
  rw [lags.edges.mem_iff, List.mem_append]

/-- Where the name is to be used, it stands for its value. -/
theorem Assembly.Lags.resolve?_ready {s t : Assembly}
    (lags : s.Lags name value late (.ready :: stages) t) :
    resolve? name s.frames = some (0, .fresh value) := by
  obtain ⟨-, -, -, -, related⟩ := lags
  generalize s.frames = fs, t.frames = gs at related
  cases related with
  | cons first _ => rw [resolve?, first.2]

namespace Assembling

variable {α β : Type}

/-! ## Computations that follow others -/

section

variable (name value late stages)

/-- How the results of two computations compare, from states of which the first lags. -/
inductive Meets : Outcome CompileError (α × Assembly) → Outcome CompileError (α × Assembly) → Prop
  | stopped (reason : Fatality) (y : Outcome CompileError (α × Assembly)) :
    Meets (Outcome.stop reason) y
  | failed (failure failure' : Failure CompileError) : Meets (.error failure) (.error failure')
  | ok {a : α} {s t : Assembly} : s.Lags name value late stages t → Meets (.ok (a, s)) (.ok (a, t))
  | refused {a : α} {s : Assembly} {e : Edge} (failure : Failure CompileError) : e ∈ late →
    e ∈ s.components.graph.edges → Meets (.ok (a, s)) (.error failure)

/-- From states of which the first lags, a computation follows another, to such states again. -/
structure Follows (stages' : List Stage) (x y : Assembling α) : Prop where
  advances : Advances x
  meets : ∀ s t, s.Lags name value late stages t →
    Meets name value late stages' (x.run s) (y.run t)

end

/-- When the second computation has failed at a late link, the first one does not get past it. -/
theorem Meets.of_refused {x : Assembling α} (advances : Advances x) {s : Assembly} {e : Edge}
    (isLate : e ∈ late) (made : e ∈ s.components.graph.edges) (failure : Failure CompileError) :
    Meets name value late stages (x.run s) (.error failure) := by
  cases run : x.run s with
  | error failure' => exact .failed _ _
  | ok p => exact .refused failure isLate ((advances s p.1 p.2 run).edges.subset made)

variable {stages₁ stages₂ : List Stage}

/-- Results still meet when the frames in scope are changed afterwards, on both sides. -/
theorem Meets.reframe {p q : Outcome CompileError (α × Assembly)}
    (meets : Meets name value late stages₁ p q) (k l : Assembly → Assembly)
    (left : ∀ s, (k s).components = s.components) (right : ∀ t, (l t).components = t.components)
    (frames : ∀ s t : Assembly, Stage.RelatesAll name value stages₁ s.frames t.frames →
      Stage.RelatesAll name value stages₂ (k s).frames (l t).frames) :
    Meets name value late stages₂ (p >>= fun r => .ok (r.1, k r.2))
      (q >>= fun r => .ok (r.1, l r.2)) := by
  cases meets with
  | stopped reason => exact .stopped reason _
  | failed failure failure' => exact .failed failure failure'
  | @refused a s e failure isLate made =>
    refine .refused failure isLate ?_
    show e ∈ (k s).components.graph.edges
    rwa [left]
  | @ok a s t lags =>
    obtain ⟨blueprints, edges, nodup, exits, related⟩ := lags
    rw [← left s, ← right t] at blueprints edges exits
    rw [← right t] at nodup
    exact .ok ⟨blueprints, edges, nodup, exits, frames s t related⟩

theorem Meets.bind {x y : Assembling α} {f g : α → Assembling β} {s t : Assembly}
    (first : Meets name value late stages₁ (x.run s) (y.run t))
    (second : ∀ a, Follows name value late stages₁ stages₂ (f a) (g a)) :
    Meets name value late stages₂ ((x >>= f).run s) ((y >>= g).run t) := by
  rw [StateT.run_bind, StateT.run_bind]
  revert first
  generalize x.run s = p, y.run t = q
  intro first
  cases first with
  | stopped reason => exact .stopped reason _
  | failed failure failure' => exact .failed failure failure'
  | ok lags => exact (second _).meets _ _ lags
  | refused failure isLate made => exact .of_refused (second _).advances isLate made failure

namespace Follows

theorem pure (a : α) : Follows name value late stages stages (Pure.pure a) (Pure.pure a) :=
  ⟨.pure a, fun _ _ lags => .ok lags⟩

theorem fail (cause cause' : CompileError) :
    Follows name value late stages stages₁ (Assembling.fail cause : Assembling α)
      (Assembling.fail cause') :=
  ⟨.fail cause, fun _ _ _ => .failed _ _⟩

theorem fatal (y : Assembling α) : Follows name value late stages stages₁
    (liftM (Outcome.fatal : Outcome CompileError α)) y where
  advances _ _ _ run := nomatch run
  meets _ _ _ := .stopped _ _

theorem bind {x y : Assembling α} {f g : α → Assembling β}
    (first : Follows name value late stages stages₁ x y)
    (second : ∀ a, Follows name value late stages₁ stages₂ (f a) (g a)) :
    Follows name value late stages stages₂ (x >>= f) (y >>= g) :=
  ⟨first.advances.bind fun a => (second a).advances,
    fun s t lags => (first.meets s t lags).bind second⟩

theorem foldlM {γ : Type} {f : β → α → Assembling β} {g : β → γ → Assembling β} {xs : List α}
    {ys : List γ} (step : List.Forall₂ (fun x y => ∀ b, Follows name value late stages stages
      (f b x) (g b y)) xs ys) (b : β) :
    Follows name value late stages stages (xs.foldlM f b) (ys.foldlM g b) := by
  induction step generalizing b with
  | nil => exact .pure b
  | cons first _ ih => exact (first b).bind ih

theorem mapM {γ : Type} {f : α → Assembling β} {g : γ → Assembling β} {xs : List α} {ys : List γ}
    (step : List.Forall₂ (fun x y => Follows name value late stages stages (f x) (g y)) xs ys) :
    Follows name value late stages stages (xs.mapM f) (ys.mapM g) := by
  induction step with
  | nil =>
    rw [List.mapM_nil, List.mapM_nil]
    exact .pure []
  | cons first _ ih =>
    rw [List.mapM_cons, List.mapM_cons]
    exact first.bind fun _ => ih.bind fun _ => .pure _

theorem forM {f g : α → Assembling Unit} (xs : List α)
    (step : ∀ x, Follows name value late stages stages (f x) (g x)) :
    Follows name value late stages stages (xs.forM f) (xs.forM g) := by
  induction xs with
  | nil => exact .pure ()
  | cons x xs ih => exact (step x).bind fun _ => ih

/-- In scopes of their own that are related. -/
theorem inFrame {x y : Assembling α} {stage stage' : Stage} {f g : Frame}
    (related : stage.Relates name value f g)
    (follows : Follows name value late (stage :: stages) (stage' :: stages) x y) :
    Follows name value late stages stages (inFrame f x) (inFrame g y) := by
  refine ⟨.inFrame f follows.advances, fun s t lags => ?_⟩
  have inside := follows.meets { s with frames := f :: s.frames }
    { t with frames := g :: t.frames }
    ⟨lags.blueprints, lags.edges, lags.nodup, lags.exits, .cons related lags.frames⟩
  refine inside.reframe
    (fun s => { s with frames := s.frames.tail
                       unused := (s.frames.headD []).unused.reverse ++ s.unused })
    (fun t => { t with frames := t.frames.tail
                       unused := (t.frames.headD []).unused.reverse ++ t.unused })
    (fun _ => rfl) (fun _ => rfl) fun s t related => ?_
  dsimp only
  generalize s.frames = fs, t.frames = gs at related
  cases related with
  | cons _ others => exact others

end Follows

/-- In the scope of an outer frame. -/
theorem Meets.inOuter {x y : Assembling α} {s t : Assembly}
    (lags : s.Lags name value late stages t) (outer : Nat)
    (inside : Meets name value late (stages.drop outer)
      (x.run { s with frames := s.frames.drop outer })
      (y.run { t with frames := t.frames.drop outer })) :
    Meets name value late stages ((inOuter outer x).run s) ((inOuter outer y).run t) := by
  exact inside.reframe (fun s' => { s' with frames := s.frames.take outer ++ s'.frames })
    (fun t' => { t' with frames := t.frames.take outer ++ t'.frames })
    (fun _ => rfl) (fun _ => rfl) fun _ _ related => lags.frames.restore related

/-! ## The computations of an assembly -/

/-- A layer may have a name on one side and none, or another, on the other. -/
theorem follows_leaf (token : String) (owner owner' : Option String) :
    Follows name value late stages stages (leaf token owner) (leaf token owner') := by
  refine ⟨advances_leaf token owner, fun s t lags => ?_⟩
  unfold leaf
  split
  · exact .failed _ _
  next blueprint _ =>
    have run (c : Option String) (s : Assembly) : (do
        let v := (← get).components.size
        modifyGraph fun g => .ok (g.add c blueprint)
        return (⟨[v], [v]⟩ : Ends) : Assembling Ends).run s
        = .ok (⟨[s.components.size], [s.components.size]⟩,
          { s with components := s.components.add c blueprint }) := rfl
    rw [run, run, lags.size]
    refine .ok ⟨?_, lags.edges, lags.nodup, lags.exits, lags.frames⟩
    show (s.components.graph.vertices.push _).map _ = (t.components.graph.vertices.push _).map _
    rw [Array.map_push, Array.map_push, lags.blueprints]

theorem run_modifyGraph_eq (f : ComponentGraph → Except CompileError ComponentGraph)
    (s : Assembly) :
    (modifyGraph f).run s = (match f s.components with
      | .ok components => set { s with components }
      | .error cause => fail cause : Assembling Unit).run s := rfl

/-- A link that is a loop or there already is refused. -/
theorem run_link_refused {s : Assembly} {source target : Nat}
    (refused : source = target ∨ (source, target) ∈ s.components.graph.edges) :
    ∃ failure, (modifyGraph fun c => c.link source target).run s = .error failure := by
  rw [run_modifyGraph_eq, ComponentGraph.link,
    if_pos (refused.imp_right (Digraph.hasEdge_iff _ _ _).mpr)]
  exact ⟨_, rfl⟩

/-- Any other link is made. -/
theorem run_link_made {s : Assembly} {source target : Nat} (noLoop : source ≠ target)
    (new : (source, target) ∉ s.components.graph.edges) :
    (modifyGraph fun c => c.link source target).run s = .ok ((), linked s [(source, target)]) := by
  have allowed : ¬ (source = target ∨ s.components.graph.hasEdge source target = true) :=
    not_or.mpr ⟨noLoop, new ∘ (Digraph.hasEdge_iff _ _ _).mp⟩
  rw [run_modifyGraph_eq, ComponentGraph.link, if_neg allowed]
  rfl

/-- Links can be made where there are other edges: none is a loop, or there, or made twice. -/
structure Fits (links edges : List Edge) : Prop where
  noLoop : ∀ e ∈ links, e.1 ≠ e.2
  nodup : links.Nodup
  new : ∀ e ∈ links, e ∉ edges

theorem fits_cons_iff {e : Edge} {links edges : List Edge} :
    Fits (e :: links) edges ↔ e.1 ≠ e.2 ∧ e ∉ edges ∧ Fits links (e :: edges) := by
  constructor
  · rintro ⟨noLoop, nodup, new⟩
    obtain ⟨once, nodup⟩ := List.nodup_cons.mp nodup
    refine ⟨noLoop e List.mem_cons_self, new e List.mem_cons_self,
      fun e' member => noLoop e' (List.mem_cons_of_mem e member), nodup, fun e' member made => ?_⟩
    rcases List.mem_cons.mp made with rfl | made
    · exact once member
    · exact new e' (List.mem_cons_of_mem e member) made
  · rintro ⟨noLoop, new, fits⟩
    refine ⟨List.forall_mem_cons.mpr ⟨noLoop, fits.noLoop⟩, List.nodup_cons.mpr ⟨fun member => ?_,
      fits.nodup⟩, List.forall_mem_cons.mpr ⟨new, fun e' member made => ?_⟩⟩
    · exact fits.new e member List.mem_cons_self
    · exact fits.new e' member (List.mem_cons_of_mem e made)

/-- Two pieces are linked exactly when their links can be made. -/
theorem run_connect_iff {a b : Ends} {s s' : Assembly} : (connect a b).run s = .ok ((), s')
    ↔ Fits (linksBetween a b) s.components.graph.edges ∧ s' = linked s (linksBetween a b) := by
  unfold connect
  generalize linksBetween a b = links
  induction links generalizing s with
  | nil =>
    constructor
    · rintro ⟨⟩
      exact ⟨⟨nofun, .nil, nofun⟩, rfl⟩
    · rintro ⟨-, rfl⟩
      rfl
  | cons e links ih =>
    obtain ⟨source, target⟩ := e
    rw [fits_cons_iff]
    show ((modifyGraph fun c => c.link source target).run s >>= _) = _ ↔ _
    by_cases known : source = target ∨ (source, target) ∈ s.components.graph.edges
    · obtain ⟨failure, failed⟩ := run_link_refused known
      rw [failed]
      exact ⟨nofun, fun ⟨⟨noLoop, new, _⟩, _⟩ => (known.elim noLoop new).elim⟩
    · obtain ⟨noLoop, new⟩ := not_or.mp known
      rw [run_link_made noLoop new]
      exact ih.trans (and_congr_left fun _ => ⟨fun fits => ⟨noLoop, new, fits⟩, fun all => all.2.2⟩)

theorem run_connect_error {a b : Ends} {s : Assembly}
    (unfit : ¬ Fits (linksBetween a b) s.components.graph.edges) :
    ∃ failure, (connect a b).run s = .error failure := by
  cases run : (connect a b).run s with
  | error failure => exact ⟨failure, rfl⟩
  | ok p => exact absurd (run_connect_iff.mp run).1 unfit

theorem edges_linked (s : Assembly) (links : List Edge) :
    (linked s links).components.graph.edges.Perm (links ++ s.components.graph.edges) := by
  induction links generalizing s with
  | nil => exact .refl _
  | cons e links ih => exact (ih (linked s [e])).trans List.perm_middle

/-- The second state may be linked before the first is. -/
theorem lags_ahead {s t : Assembly} {links : List Edge}
    (lags : s.Lags name value late stages t) (fits : Fits links t.components.graph.edges) :
    s.Lags name value (late ++ links) stages (linked t links) where
  blueprints := by
    rw [lags.blueprints, linked, Digraph.vertices_addEdges]
  edges := by
    refine (edges_linked t links).trans ((lags.edges.append_left links).trans ?_)
    rw [← List.append_assoc]
    exact List.perm_append_comm.append_right _
  nodup := (edges_linked t links).nodup_iff.mpr
    (List.nodup_append'.mpr ⟨fits.nodup, lags.nodup, fits.new⟩)
  exits := lags.exits
  frames := lags.frames

/-- The first state can be linked after the second was. -/
theorem lags_behind {s t : Assembly} {links : List Edge}
    (lags : s.Lags name value (late ++ links) stages t) (noLoop : ∀ e ∈ links, e.1 ≠ e.2) :
    Fits links s.components.graph.edges ∧ (linked s links).Lags name value late stages t := by
  have nodup := lags.edges.nodup_iff.mp lags.nodup
  rw [List.append_assoc] at nodup
  obtain ⟨nodup, -, new⟩ := List.nodup_append'.mp (List.nodup_append'.mp nodup).2.1
  refine ⟨⟨noLoop, nodup, fun e member made => new member made⟩, ?_, ?_, lags.nodup, lags.exits,
    lags.frames⟩
  · rw [← lags.blueprints, linked, Digraph.vertices_addEdges]
  · refine lags.edges.trans ?_
    rw [List.append_assoc]
    exact (edges_linked s links).symm.append_left late

/-- Links follow links. A link that is late on one side is refused on the other. -/
theorem follows_connect (a b : Ends) :
    Follows name value late stages stages (connect a b) (connect a b) := by
  refine .forM _ fun ⟨source, target⟩ => ⟨advances_link source target, fun s t lags => ?_⟩
  by_cases known : source = target ∨ (source, target) ∈ s.components.graph.edges
  · obtain ⟨failure, failed⟩ := run_link_refused known
    have known' : source = target ∨ (source, target) ∈ t.components.graph.edges :=
      known.imp_right fun made => (lags.mem_edges _).mpr (.inr made)
    obtain ⟨failure', failed'⟩ := run_link_refused known'
    rw [failed, failed']
    exact .failed failure failure'
  obtain ⟨noLoop, new⟩ := not_or.mp known
  rw [run_link_made noLoop new]
  by_cases isLate : (source, target) ∈ late
  · obtain ⟨failure', failed'⟩ :=
      run_link_refused (.inr ((lags.mem_edges (source, target)).mpr (.inl isLate)))
    rw [failed']
    exact .refused failure' isLate List.mem_cons_self
  · have new' : (source, target) ∉ t.components.graph.edges := fun made =>
      ((lags.mem_edges _).mp made).elim isLate new
    rw [run_link_made noLoop new']
    refine .ok ⟨lags.blueprints, (lags.edges.cons _).trans List.perm_middle.symm, ?_, lags.exits,
      lags.frames⟩
    exact List.nodup_cons.mpr ⟨new', lags.nodup⟩

/-- The ends of a module depend on the edges among its members only. -/
theorem moduleEnds_congr {c c' : ComponentGraph} {members : List Nat}
    (same : ∀ u ∈ members, ∀ v ∈ members, c.graph.Adj u v ↔ c'.graph.Adj u v) :
    moduleEnds c members = moduleEnds c' members := by
  unfold moduleEnds
  congr 1
  · refine List.filter_congr fun v member => congrArg not (Bool.eq_iff_iff.mpr ?_)
    simp only [List.any_eq_true, Digraph.mem_predecessors, List.contains_iff_mem]
    exact exists_congr fun u => and_congr_left fun member' => same u member' v member
  · refine List.filter_congr fun v member => congrArg not (Bool.eq_iff_iff.mpr ?_)
    simp only [List.any_eq_true, Digraph.mem_successors, List.contains_iff_mem]
    exact exists_congr fun w => and_congr_left fun member' => same v member w member'

/-- Gives the ends of a module, after recording its exits if there are several. -/
def recordEnds (ends : Ends) : Assembling Ends := do
  if 1 < ends.sinks.length then
    modifyGraph fun c => .ok { c with exits := ends.sinks :: c.exits }
  return ends

theorem follows_recordEnds (ends : Ends) :
    Follows name value late stages stages (recordEnds ends) (recordEnds ends) := by
  unfold recordEnds
  split
  · have record : Follows name value late stages stages
        (modifyGraph fun c => .ok { c with exits := ends.sinks :: c.exits })
        (modifyGraph fun c => .ok { c with exits := ends.sinks :: c.exits }) := by
      refine ⟨.modifyGraph ?_, fun s t lags => ?_⟩
      · rintro c _ ⟨⟩
        exact ⟨Nat.le_refl _, List.suffix_refl _, List.suffix_cons _ _⟩
      · have exits := congrArg (ends.sinks :: ·) lags.exits
        exact .ok ⟨lags.blueprints, lags.edges, lags.nodup, exits, lags.frames⟩
    exact record.bind fun _ => .pure ends
  · exact .pure ends

/-- Closing a module to which the late links would give the same ends follows closing it with
them. -/
theorem follows_closeApart (first : Nat) (chains : List Ends) :
    Follows name value late stages stages (closeApart late first chains)
      (closeModule first chains) := by
  refine ⟨(guards_closeApart late first chains).advances (advances_closeModule first chains),
    fun s t lags => ?_⟩
  have closes (s : Assembly) : (closeModule first chains).run s
      = (recordEnds (moduleEnds s.components (members s.components first chains))).run s := rfl
  have sameMembers : members t.components first chains = members s.components first chains := by
    unfold members
    rw [lags.size]
  have ahead (u v : Nat) :
      (linked s late).components.graph.Adj u v ↔ t.components.graph.Adj u v :=
    ((edges_linked s late).trans lags.edges.symm).mem_iff
  show Meets name value late stages ((ite _ _ _ : Assembling Ends).run s) _
  split
  next same =>
    rw [closes, closes, sameMembers, ← same, moduleEnds_congr fun u _ v _ => ahead u v]
    exact (follows_recordEnds _).meets s t lags
  · exact .stopped _ _

/-- Binding a name other than the one. -/
theorem follows_bind {stage : Stage} {n : String} (other : n ≠ name) {b : Binding}
    (same : Binding.Inlined name value b b) :
    Follows name value late (stage :: stages) (stage :: stages) (bind n b) (bind n b) := by
  refine ⟨.bindName n b, fun s t lags => ?_⟩
  obtain ⟨c, frames, unused⟩ := s
  obtain ⟨c', frames', unused'⟩ := t
  obtain ⟨blueprints, edges, nodup, exits, related⟩ := lags
  cases related with
  | cons first others =>
    exact .ok ⟨blueprints, edges, nodup, exits, .cons (first.put other same) others⟩

/-- The name is bound on one side only, when it is used. -/
theorem run_bind_name {stage : Stage} (used : stage = .ready ∨ stage = .spent) (b : Binding)
    {s t : Assembly} (lags : s.Lags name value late (stage :: stages) t) :
    ∃ s', (bind name b).run s = .ok ((), s') ∧ s'.components = s.components
      ∧ s'.Lags name value late (.spent :: stages) t := by
  obtain ⟨c, frames, unused⟩ := s
  obtain ⟨blueprints, edges, nodup, exits, related⟩ := lags
  generalize right : t.frames = frames' at related
  cases related with
  | cons first others =>
    refine ⟨_, rfl, rfl, blueprints, edges, nodup, exits, ?_⟩
    rw [right]
    exact .cons (first.put_name used b) others

theorem Follows.bind_name {stage : Stage} (used : stage = .ready ∨ stage = .spent) (b : Binding)
    {x y : Assembling α}
    (follows : Follows name value late (.spent :: stages) stages₁ x y) :
    Follows name value late (stage :: stages) stages₁ (do Assembling.bind name b; x) y := by
  refine ⟨(Advances.bindName name b).bind fun _ => follows.advances, fun s t lags => ?_⟩
  obtain ⟨s', bound, -, lags'⟩ := run_bind_name used b lags
  rw [StateT.run_bind, bound]
  exact follows.meets s' t lags'

theorem follows_isBound {text : String} (other : text ≠ name) :
    Follows name value late stages stages (isBound text) (isBound text) := by
  refine ⟨advances_isBound text, fun s t lags => ?_⟩
  show Meets name value late stages (.ok ((resolve? text s.frames).isSome, s))
    (.ok ((resolve? text t.frames).isSome, t))
  obtain ⟨none, none'⟩ | ⟨_, _, _, found, found', -⟩ := lags.frames.resolve? other
  · rw [none, none']
    exact .ok lags
  · rw [found, found']
    exact .ok lags

end Assembling

end

end LayerNet
