import LayerNet.Component.Assembly
import LayerNet.Proofs.Digraph.Acyclic
import LayerNet.Proofs.Outcome

/-!
# Invariance — what every successful assembly keeps

Assembly jumps between scopes, and a frame holds the ends of what it has instantiated and the values
that it has not. So an invariant speaks of the graph, and of the names, the segments and the ends
that frames hold (`Assembling.Invariant`), and it holds of a state when it holds of the graph and of
every frame in scope.

The number of components never falls, and what is said of ends stays true when it grows. `Keeps`
packs this: a computation that starts with at least `n` components keeps the invariant, and its
answer fits the number of components that there are then. There is one lemma for each way to combine
computations.

Few computations change the graph or make ends, and they are all that an invariant is asked about
(`Invariant.Closed`). From these, by induction on the depth, it holds of whatever is assembled
(`Closed.of_assemble`).

So whatever the statements, an assembled graph is well formed: edges join two different components
and none is there twice, the exits of a module are components and no two of them the same, and every
blueprint was read off a token (`ComponentGraph.WellFormed`, `assemble_wellFormed`). For this the
ends that frames remember must be components, too (`Assembling.soundness`).
-/

namespace LayerNet

/-- A blueprint that a token asks for. -/
def Blueprint.IsRead (b : Blueprint) : Prop := ∃ token, Blueprint.read? token = some b

namespace Assembling

/-- What is to hold of the graph so far, of the names that are bound, of the segments that may be
instantiated and, given the number of components, of ends. -/
structure Invariant where
  graph : ComponentGraph → Prop
  name : String → Prop
  segment : Segment → Prop
  ends : Nat → Ends → Prop
  mono : ∀ {n m : Nat} {e : Ends}, ends n e → n ≤ m → ends m e

namespace Invariant

variable (I : Invariant)

/-- What is to hold of a binding. -/
def Binds (n : Nat) : Binding → Prop
  | .fresh value => ∀ x ∈ value, I.segment x
  | .pending => True
  | .done ends => I.ends n ends

/-- What is to hold of a frame. -/
def Frames (n : Nat) (f : Frame) : Prop :=
  ∀ name binding, (name, binding) ∈ f → I.name name ∧ I.Binds n binding

/-- The invariant holds of the graph so far and of every frame in scope. -/
structure Holds (s : Assembly) : Prop where
  components : I.graph s.components
  frames : ∀ f ∈ s.frames, I.Frames s.components.size f

/-- What is to hold of statements. -/
structure Admits (statements : List Statement) : Prop where
  chains : ∀ chain ∈ chains statements, ∀ x ∈ chain, I.segment x
  definitions : ∀ name value, (name, value) ∈ definitions statements →
    I.name name ∧ ∀ x ∈ value, I.segment x

/-- The invariant is kept by the few computations that change the graph or make ends, and what it
asks of a module it asks of the statements in it. -/
structure Closed : Prop where
  add : ∀ {c : ComponentGraph} {name : Option String} {blueprint : Blueprint}, I.graph c →
    blueprint.IsRead → (∀ x ∈ name, I.name x) → I.graph (c.add name blueprint)
  leaf : ∀ v, I.ends (v + 1) ⟨[v], [v]⟩
  link : ∀ {c c' : ComponentGraph} {a b : Ends} {source target : Nat}, I.graph c →
    I.ends c.size a → I.ends c.size b → source ∈ a.sinks → target ∈ b.sources →
    c.link source target = .ok c' → I.graph c'
  chain : ∀ {n : Nat} {a b : Ends}, I.ends n a → I.ends n b → I.ends n ⟨a.sources, b.sinks⟩
  module : ∀ {c : ComponentGraph} (first : Nat) (chains : List Ends), I.graph c →
    I.ends c.size (moduleEnds c (members c first chains))
  exits : ∀ {c : ComponentGraph} {e : Ends}, I.graph c → I.ends c.size e → e.sinks.Nodup →
    I.graph { c with exits := e.sinks :: c.exits }
  body : ∀ {body : List Statement}, I.segment (.module body) → I.Admits body

variable {I}

theorem Binds.mono {n m : Nat} {binding : Binding} (fits : I.Binds n binding) (le : n ≤ m) :
    I.Binds m binding := by
  cases binding with
  | done ends => exact I.mono fits le
  | _ => exact fits

theorem Frames.mono {n m : Nat} {f : Frame} (fits : I.Frames n f) (le : n ≤ m) : I.Frames m f :=
  fun name binding member => (fits name binding member).imp_right fun bound => bound.mono le

theorem Frames.put {n : Nat} {f : Frame} (fits : I.Frames n f) (name : String) {binding : Binding}
    (bound : I.Binds n binding) : I.Frames n (f.put name binding) := by
  intro other binding' member
  obtain ⟨⟨key, old⟩, inFrame, put⟩ := List.mem_map.mp member
  obtain ⟨named, held⟩ := fits key old inFrame
  dsimp only at put
  split at put
  · obtain ⟨rfl, rfl⟩ := Prod.mk.inj put
    exact ⟨named, bound⟩
  · obtain ⟨rfl, rfl⟩ := Prod.mk.inj put
    exact ⟨named, held⟩

end Invariant

/-- From at least `n` components, a computation keeps the invariant and removes no component, and
its answer fits the number of components there are afterwards. -/
def Keeps {α : Type} (I : Invariant) (n : Nat) (x : Assembling α) (Q : Nat → α → Prop) : Prop :=
  ∀ s a s', I.Holds s → n ≤ s.components.size → x.run s = .ok (a, s') →
    I.Holds s' ∧ s.components.size ≤ s'.components.size ∧ Q s'.components.size a

variable {α β : Type} {I : Invariant}

/-! ## Combining computations -/

theorem Keeps.pure {n : Nat} {Q : Nat → α → Prop} {a : α} (fits : ∀ m, n ≤ m → Q m a) :
    Keeps I n (Pure.pure a) Q := by
  intro s _ _ holds le run
  cases run
  exact ⟨holds, Nat.le_refl _, fits _ le⟩

theorem Keeps.fail {n : Nat} {Q : Nat → α → Prop} (cause : CompileError) :
    Keeps I n (fail cause) Q :=
  fun _ _ _ _ _ run => nomatch run

theorem Keeps.bind {n : Nat} {x : Assembling α} {f : α → Assembling β} {Q : Nat → α → Prop}
    {R : Nat → β → Prop} (first : Keeps I n x Q)
    (second : ∀ m a, n ≤ m → Q m a → Keeps I m (f a) R) : Keeps I n (x >>= f) R := by
  intro s b s' holds le run
  obtain ⟨a, s₁, run₁, run₂⟩ := Outcome.run_bind_eq_ok.mp run
  obtain ⟨holds₁, le₁, fits⟩ := first s a s₁ holds le run₁
  obtain ⟨holds₂, le₂, fits'⟩ :=
    second _ a (Nat.le_trans le le₁) fits s₁ b s' holds₁ (Nat.le_refl _) run₂
  exact ⟨holds₂, Nat.le_trans le₁ le₂, fits'⟩

/-- A computation may look at the state before it goes on. -/
theorem Keeps.get_bind {n : Nat} {f : Assembly → Assembling β} {R : Nat → β → Prop}
    (next : ∀ s, I.Holds s → n ≤ s.components.size → Keeps I s.components.size (f s) R) :
    Keeps I n (get >>= f) R := by
  intro s b s' holds le run
  obtain ⟨a, s₁, run₁, run₂⟩ := Outcome.run_bind_eq_ok.mp run
  cases run₁
  exact next s holds le s b s' holds (Nat.le_refl _) run₂

theorem Keeps.foldlM {n : Nat} {f : β → α → Assembling β} {Q : Nat → β → Prop}
    (monotone : ∀ {m m' b}, Q m b → m ≤ m' → Q m' b) (xs : List α)
    (step : ∀ m b, ∀ x ∈ xs, n ≤ m → Q m b → Keeps I m (f b x) Q) {b : β} (start : Q n b) :
    Keeps I n (xs.foldlM f b) Q := by
  induction xs generalizing n b with
  | nil => exact Keeps.pure fun m le => monotone start le
  | cons x xs ih =>
    refine (step n b x List.mem_cons_self (Nat.le_refl _) start).bind fun m b' le fits => ih ?_ fits
    exact fun m' b'' y member le' => step m' b'' y (List.mem_cons_of_mem x member)
      (Nat.le_trans le le')

theorem Keeps.forM {n : Nat} {f : α → Assembling Unit} (xs : List α)
    (step : ∀ m, ∀ x ∈ xs, n ≤ m → Keeps I m (f x) fun _ _ => True) :
    Keeps I n (xs.forM f) fun _ _ => True := by
  induction xs generalizing n with
  | nil => exact Keeps.pure fun _ _ => trivial
  | cons x xs ih =>
    refine (step n x List.mem_cons_self (Nat.le_refl _)).bind fun m _ le _ => ih ?_
    exact fun m' y member le' => step m' y (List.mem_cons_of_mem x member) (Nat.le_trans le le')

theorem Keeps.mapM {n : Nat} {f : α → Assembling β} {Q : Nat → β → Prop}
    (monotone : ∀ {m m' b}, Q m b → m ≤ m' → Q m' b) (xs : List α)
    (step : ∀ m, ∀ x ∈ xs, n ≤ m → Keeps I m (f x) Q) :
    Keeps I n (xs.mapM f) fun m bs => ∀ b ∈ bs, Q m b := by
  induction xs generalizing n with
  | nil =>
    rw [List.mapM_nil]
    exact Keeps.pure fun _ _ b member => absurd member List.not_mem_nil
  | cons x xs ih =>
    rw [List.mapM_cons]
    refine (step n x List.mem_cons_self (Nat.le_refl _)).bind fun m b le fits => ?_
    refine (ih fun m' y member le' => step m' y (List.mem_cons_of_mem x member)
      (Nat.le_trans le le')).bind fun m' bs le' rest => Keeps.pure fun m'' le'' => ?_
    intro b' member
    rcases List.mem_cons.mp member with rfl | member
    · exact monotone fits (Nat.le_trans le' le'')
    · exact monotone (rest b' member) le''

/-! ## Changes of the graph and of the frames -/

/-- A change that keeps what holds of the graph and removes no component keeps the invariant. -/
theorem Keeps.modifyGraph {n : Nat} {f : ComponentGraph → Except CompileError ComponentGraph}
    {Q : Nat → Prop} (change : ∀ c c', I.graph c → n ≤ c.size → f c = .ok c' →
      I.graph c' ∧ c.size ≤ c'.size ∧ Q c'.size) :
    Keeps I n (modifyGraph f) fun m _ => Q m := by
  intro s _ s' holds le run
  obtain ⟨s₀, s₁, run₀, run⟩ := Outcome.run_bind_eq_ok.mp run
  cases run₀
  split at run
  next components changed =>
    cases run
    obtain ⟨kept, le', fits⟩ := change s.components components holds.components le changed
    exact ⟨⟨kept, fun f member => (holds.frames f member).mono le'⟩, le', fits⟩
  next => exact nomatch run

/-- A binding of the innermost frame that holds what it may keeps the invariant. -/
theorem Keeps.bindName {n : Nat} (name : String) (binding : Binding) (fits : I.Binds n binding) :
    Keeps I n (Assembling.bind name binding) fun _ _ => True := by
  intro s _ s' holds le run
  cases frames : s.frames with
  | nil =>
    obtain rfl : s' = s := by
      cases run
      simp only [frames]
    exact ⟨holds, Nat.le_refl _, trivial⟩
  | cons f rest =>
    obtain rfl : s' = { s with frames := f.put name binding :: rest } := by
      cases run
      simp only [frames]
    refine ⟨⟨holds.components, fun f' member => ?_⟩, Nat.le_refl _, trivial⟩
    rcases List.mem_cons.mp member with rfl | member
    · exact (holds.frames f (frames ▸ List.mem_cons_self)).put name (fits.mono le)
    · exact holds.frames f' (frames ▸ List.mem_cons_of_mem f member)

/-- In the scope of an outer frame a computation sees the frames from there on; the frames before
are put back afterwards. -/
theorem run_inOuter {x : Assembling α} {depth : Nat} {s s' : Assembly} {a : α}
    (run : (inOuter depth x).run s = .ok (a, s')) :
    ∃ s₁, x.run { s with frames := s.frames.drop depth } = .ok (a, s₁)
      ∧ s' = { s₁ with frames := s.frames.take depth ++ s₁.frames } := by
  obtain ⟨_, _, looked, run⟩ := Outcome.run_bind_eq_ok.mp run
  cases looked
  obtain ⟨_, _, dropped, run⟩ := Outcome.run_bind_eq_ok.mp run
  cases dropped
  obtain ⟨_, s₁, ran, run⟩ := Outcome.run_bind_eq_ok.mp run
  obtain ⟨_, _, back, run⟩ := Outcome.run_bind_eq_ok.mp run
  cases back
  cases run
  exact ⟨s₁, ran, rfl⟩

/-- In a scope of its own a computation sees one frame more, which is gone afterwards. -/
theorem run_inFrame {x : Assembling α} {f : Frame} {s s' : Assembly} {a : α}
    (run : (inFrame f x).run s = .ok (a, s')) :
    ∃ s₁, x.run { s with frames := f :: s.frames } = .ok (a, s₁)
      ∧ s'.components = s₁.components ∧ s'.frames = s₁.frames.tail := by
  obtain ⟨_, _, pushed, run⟩ := Outcome.run_bind_eq_ok.mp run
  cases pushed
  obtain ⟨_, s₁, ran, run⟩ := Outcome.run_bind_eq_ok.mp run
  obtain ⟨_, _, popped, run⟩ := Outcome.run_bind_eq_ok.mp run
  cases popped
  cases run
  exact ⟨s₁, ran, rfl, rfl⟩

theorem Keeps.inOuter {n : Nat} {x : Assembling α} {Q : Nat → α → Prop} (keeps : Keeps I n x Q)
    (depth : Nat) : Keeps I n (inOuter depth x) Q := by
  intro s a s' holds le run
  obtain ⟨s₁, ran, rfl⟩ := run_inOuter run
  have outer : I.Holds { s with frames := s.frames.drop depth } :=
    ⟨holds.components, fun f member => holds.frames f (List.mem_of_mem_drop member)⟩
  obtain ⟨holds₁, le₁, fits⟩ := keeps _ a s₁ outer le ran
  refine ⟨⟨holds₁.components, fun f member => ?_⟩, le₁, fits⟩
  rcases List.mem_append.mp member with inner | member
  · exact (holds.frames f (List.mem_of_mem_take inner)).mono le₁
  · exact holds₁.frames f member

theorem Keeps.inFrame {n : Nat} {x : Assembling α} {Q : Nat → α → Prop} {f : Frame}
    (framed : I.Frames n f) (keeps : Keeps I n x Q) : Keeps I n (inFrame f x) Q := by
  intro s a s' holds le run
  obtain ⟨s₁, ran, components, frames⟩ := run_inFrame run
  have within : I.Holds { s with frames := f :: s.frames } := by
    refine ⟨holds.components, fun f' member => ?_⟩
    rcases List.mem_cons.mp member with rfl | member
    · exact framed.mono le
    · exact holds.frames f' member
  obtain ⟨holds₁, le₁, fits⟩ := keeps _ a s₁ within le ran
  rw [components]
  refine ⟨⟨components ▸ holds₁.components, fun f' member => ?_⟩, le₁, fits⟩
  rw [frames] at member
  exact components ▸ holds₁.frames f' (List.mem_of_mem_tail member)

/-! ## The computations of an assembly -/

/-- A frame starts out with the definitions of statements, not instantiated. -/
theorem keeps_frameOf (n : Nat) {statements : List Statement} (admits : I.Admits statements) :
    Keeps I n (frameOf statements) I.Frames := by
  refine Keeps.foldlM (fun fits le => fits.mono le) _ (fun m f x defined _ fits => ?_)
    fun name binding member => absurd member List.not_mem_nil
  obtain ⟨name, value⟩ := x
  dsimp only
  split
  · exact Keeps.fail _
  · refine Keeps.pure fun m' le other binding member => ?_
    rcases List.mem_append.mp member with old | new
    · exact (fits.mono le) other binding old
    · obtain ⟨rfl, rfl⟩ := Prod.mk.inj (List.mem_singleton.mp new)
      exact admits.definitions other value defined

/-- Every link leads from a sink of the first piece to a source of the second. -/
theorem mem_linksBetween {a b : Ends} {source target : Nat}
    (member : (source, target) ∈ linksBetween a b) : source ∈ a.sinks ∧ target ∈ b.sources := by
  unfold linksBetween at member
  split at member
  · exact List.of_mem_zip member
  · obtain ⟨u, inSinks, links⟩ := List.mem_flatMap.mp member
    obtain ⟨v, inSources, same⟩ := List.mem_map.mp links
    obtain ⟨rfl, rfl⟩ := Prod.mk.inj same
    exact ⟨inSinks, inSources⟩

/-- The binding that a name resolves to stands under this name in one of the frames. -/
theorem resolve?_mem {name : String} {frames : List Frame} {depth : Nat} {binding : Binding}
    (found : resolve? name frames = some (depth, binding)) :
    ∃ f ∈ frames, (name, binding) ∈ f := by
  induction frames generalizing depth with
  | nil => exact nomatch found
  | cons f frames ih =>
    unfold resolve? at found
    split at found
    next bound =>
      cases found
      obtain ⟨before, after, here, -⟩ := List.lookup_eq_some_iff.mp bound
      exact ⟨f, List.mem_cons_self, here ▸ List.mem_append_right _ List.mem_cons_self⟩
    next =>
      obtain ⟨⟨depth', binding'⟩, deeper, same⟩ := Option.map_eq_some_iff.mp found
      obtain ⟨-, rfl⟩ := Prod.mk.inj same
      obtain ⟨f', member, stands⟩ := ih deeper
      exact ⟨f', List.mem_cons_of_mem f member, stands⟩

namespace Invariant.Closed

variable (closed : I.Closed)
include closed

/-- A leaf is a new component. -/
theorem keeps_leaf (n : Nat) (token : String) {name : Option String}
    (named : ∀ x ∈ name, I.name x) : Keeps I n (Assembling.leaf token name) I.ends := by
  unfold Assembling.leaf
  split
  · exact Keeps.fail _
  next blueprint found =>
    refine Keeps.get_bind fun s _ _ => ?_
    refine (Keeps.modifyGraph (Q := fun m => s.components.size < m) ?_).bind fun m _ _ more =>
      Keeps.pure fun m' le => I.mono (closed.leaf _) (Nat.le_trans more le)
    rintro c _ holds le ⟨⟩
    have size : (c.add name blueprint).size = c.size + 1 := Digraph.size_addVertex _ _
    exact ⟨closed.add holds ⟨token, found⟩ named, by omega, by omega⟩

theorem keeps_connect (n : Nat) {a b : Ends} (fitsA : I.ends n a) (fitsB : I.ends n b) :
    Keeps I n (connect a b) fun _ _ => True := by
  refine Keeps.forM _ fun m e member le => ?_
  obtain ⟨source, target⟩ := e
  obtain ⟨inSinks, inSources⟩ := mem_linksBetween member
  refine Keeps.modifyGraph (Q := fun _ => True) fun c c' holds le' linked => ?_
  have more := Nat.le_trans le le'
  refine ⟨closed.link holds (I.mono fitsA more) (I.mono fitsB more) inSinks inSources linked, ?_,
    trivial⟩
  unfold ComponentGraph.link at linked
  split at linked
  · exact nomatch linked
  · cases linked
    exact Nat.le_refl _

/-- A chain of pieces that fit, from a piece that fits. -/
theorem keeps_chainWith (n : Nat) {segment : Segment → Assembling Ends}
    (segments : List Segment) {previous : Option Ends}
    (keeps : ∀ m, ∀ x ∈ segments, Keeps I m (segment x) I.ends)
    (fits : ∀ ends ∈ previous, I.ends n ends) :
    Keeps I n (chainWith segment segments previous) I.ends := by
  unfold chainWith
  refine (Keeps.foldlM (Q := fun m (p : Option Ends × Option Ends) =>
    (∀ ends ∈ p.1, I.ends m ends) ∧ ∀ ends ∈ p.2, I.ends m ends) ?_ segments ?_ ?_).bind ?_
  · exact fun fits le => ⟨fun ends member => I.mono (fits.1 ends member) le,
      fun ends member => I.mono (fits.2 ends member) le⟩
  · rintro m ⟨head, last⟩ x member le ⟨headFits, lastFits⟩
    refine (keeps m x member).bind fun m' ends le' fits => ?_
    have first (m'' : Nat) (le'' : m' ≤ m'') :
        ∀ e ∈ head.orElse fun _ => some ends, I.ends m'' e := by
      intro e member
      cases head with
      | some h => exact I.mono (headFits e member) (Nat.le_trans le' le'')
      | none =>
        cases Option.some.inj member
        exact I.mono fits le''
    have only (m'' : Nat) (le'' : m' ≤ m'') : ∀ e ∈ some ends, I.ends m'' e := by
      intro e member
      cases Option.some.inj member
      exact I.mono fits le''
    cases last with
    | none => exact Keeps.pure fun m₂ le₂ => ⟨first m₂ le₂, only m₂ le₂⟩
    | some last =>
      have lastFits := I.mono (lastFits last rfl) le'
      refine (closed.keeps_connect m' lastFits fits).bind fun m₂ _ le₂ _ => ?_
      exact Keeps.pure fun m₃ le₃ =>
        ⟨first m₃ (Nat.le_trans le₂ le₃), only m₃ (Nat.le_trans le₂ le₃)⟩
  · exact ⟨fun _ member => (Option.not_mem_none _ member).elim, fits⟩
  · rintro m ⟨head, last⟩ le ⟨headFits, lastFits⟩
    cases head with
    | none => exact Keeps.fail _
    | some head =>
      cases last with
      | none => exact Keeps.fail _
      | some last => exact Keeps.pure fun m' le' =>
          closed.chain (I.mono (headFits head rfl) le') (I.mono (lastFits last rfl) le')

theorem keeps_closeModule (n first : Nat) (chains : List Ends) :
    Keeps I n (closeModule first chains) I.ends := by
  refine Keeps.get_bind fun s holds le => ?_
  have fits := closed.module first chains holds.components
  dsimp only
  split
  · refine (Keeps.modifyGraph (Q := fun _ => True) ?_).bind fun m _ le' _ =>
      Keeps.pure fun m' le'' => I.mono fits (Nat.le_trans le' le'')
    rintro c _ holds' le' ⟨⟩
    exact ⟨closed.exits holds' (I.mono fits le') ((List.nodup_range.filter _).filter _),
      Nat.le_refl _, trivial⟩
  · exact Keeps.pure fun m le' => I.mono fits le'

/-- The value of a definition is instantiated as a component or a chain of its own. -/
theorem keeps_define (n : Nat) {segment : Segment → Assembling Ends} {name : String}
    (named : I.name name) (value : List Segment)
    (keeps : ∀ m, ∀ x ∈ value, Keeps I m (segment x) I.ends) :
    Keeps I n (define segment name value) I.ends := by
  refine (Keeps.bindName name .pending trivial).bind fun m _ _ _ => ?_
  have chain (m : Nat) : Keeps I m (chainWith segment value none) I.ends :=
    closed.keeps_chainWith m value keeps fun _ member => (Option.not_mem_none _ member).elim
  have finish (m : Nat) (ends : Ends) (fits : I.ends m ends) :
      Keeps I m (do Assembling.bind name (.done ends); pure ends) I.ends :=
    (Keeps.bindName name (.done ends) fits).bind fun _ _ le _ =>
      Keeps.pure fun _ le' => I.mono fits (Nat.le_trans le le')
  dsimp only
  split
  · refine Keeps.bind (Q := fun _ _ => True) ?_ fun m bound _ _ => ?_
    · exact Keeps.get_bind fun _ _ _ => Keeps.pure fun _ _ => trivial
    · split
      · exact (chain m).bind fun m ends _ fits => finish m ends fits
      · refine (closed.keeps_leaf m _ fun x same => ?_).bind fun m ends _ fits => finish m ends fits
        exact Option.some.inj same ▸ named
  · exact (chain m).bind fun m ends _ fits => finish m ends fits

theorem keeps_moduleWith (n : Nat) {segment : Segment → Assembling Ends} {body : List Statement}
    (admits : I.Admits body) (keeps : ∀ m x, I.segment x → Keeps I m (segment x) I.ends) :
    Keeps I n (moduleWith segment body) I.ends := by
  refine (keeps_frameOf n admits).bind fun m f _ framed => Keeps.get_bind fun s _ le => ?_
  dsimp only
  split
  · exact Keeps.fail _
  · refine Keeps.bind (Keeps.inFrame (framed.mono le) (Keeps.mapM (Q := I.ends)
      (fun fits le => I.mono fits le) (chains body) fun m' chain member _ => ?_)) fun m' _ _ _ => ?_
    · exact closed.keeps_chainWith m' chain
        (fun m'' x within => keeps m'' x (admits.chains chain member x within))
        fun _ member => (Option.not_mem_none _ member).elim
    · exact closed.keeps_closeModule m' _ _

/-- Instantiating a segment keeps the invariant, by induction on the depth. -/
theorem keeps_segment (depth n : Nat) {x : Segment} (admitted : I.segment x) :
    Keeps I n (Assembling.segment depth x) I.ends := by
  induction depth generalizing n x with
  | zero => exact fun _ _ _ _ _ run => nomatch run
  | succ depth ih =>
    cases x with
    | module body =>
      exact closed.keeps_moduleWith n (closed.body admitted) fun m x admitted => ih m admitted
    | token text =>
      refine Keeps.get_bind fun s holds le => ?_
      split
      · exact closed.keeps_leaf _ _ fun _ member => (Option.not_mem_none _ member).elim
      next outer ends found =>
        obtain ⟨f, member, stands⟩ := resolve?_mem found
        exact Keeps.pure fun m le' => I.mono (holds.frames f member text _ stands).2 le'
      · exact Keeps.fail _
      next outer value found =>
        obtain ⟨f, member, stands⟩ := resolve?_mem found
        obtain ⟨named, admitted⟩ := holds.frames f member text _ stands
        exact Keeps.inOuter
          (closed.keeps_define _ named value fun m y within => ih m (admitted y within)) outer

theorem keeps_topLevel (depth n : Nat) {statements : List Statement}
    (admits : I.Admits statements) : Keeps I n (topLevel depth statements) fun _ _ => True := by
  refine (Keeps.foldlM (Q := fun m (tail : Option Ends) => ∀ ends ∈ tail, I.ends m ends)
    (fun fits le ends member => I.mono (fits ends member) le) _
    (fun m tail chain among _ fits => ?_)
    (fun _ member => (Option.not_mem_none _ member).elim)).bind fun _ _ _ _ =>
      Keeps.pure fun _ _ => trivial
  have begins : Keeps I m (beginsBound chain) fun _ _ => True := by
    unfold beginsBound
    split
    · exact Keeps.get_bind fun _ _ _ => Keeps.pure fun _ _ => trivial
    · exact Keeps.pure fun _ _ => trivial
  refine begins.bind fun m' bound le _ => ?_
  refine (closed.keeps_chainWith m' chain
    (fun m'' x within => closed.keeps_segment depth m'' (admits.chains chain among x within))
    ?_).bind fun m₂ ends _ fits' => Keeps.pure fun m₃ le₃ e member => ?_
  · intro ends member
    split at member
    · exact (Option.not_mem_none _ member).elim
    · exact I.mono (fits ends member) le
  · cases Option.some.inj member
    exact I.mono fits' le₃

/-- What holds of no components, and is kept by all that changes the graph, holds of whatever is
assembled. -/
theorem of_assemble {statements : List Statement} (start : I.graph .empty)
    (admits : I.Admits statements) {assembled : Assembled}
    (success : ComponentGraph.assemble statements = .ok assembled) :
    I.graph assembled.components ∧ 0 < assembled.components.size := by
  unfold ComponentGraph.assemble at success
  obtain ⟨⟨⟨⟩, s⟩, run, finished⟩ := Outcome.bind_eq_ok_iff.mp success
  have empty : I.Holds ⟨.empty, [], []⟩ := ⟨start, fun f member => absurd member List.not_mem_nil⟩
  have keeps := (keeps_frameOf 0 admits).bind fun m f _ framed =>
    (closed.keeps_topLevel (Statement.sizeAll statements + 1) m admits).inFrame framed
  obtain ⟨holds, -, -⟩ := keeps _ _ _ empty (Nat.zero_le _) run
  dsimp only at finished
  split at finished
  · exact nomatch finished
  next inhabited =>
    cases finished
    exact ⟨holds.components, Nat.pos_of_ne_zero inhabited⟩

end Invariant.Closed

end Assembling

/-! ## Assembled graphs -/

/-- The vertices of the ends are below a bound. -/
def Ends.Inside (n : Nat) (e : Ends) : Prop := (∀ v ∈ e.sources, v < n) ∧ ∀ v ∈ e.sinks, v < n

theorem Ends.Inside.mono {n m : Nat} {e : Ends} (inside : e.Inside n) (le : n ≤ m) : e.Inside m :=
  ⟨fun v member => Nat.lt_of_lt_of_le (inside.1 v member) le,
    fun v member => Nat.lt_of_lt_of_le (inside.2 v member) le⟩

/-- The graph is well formed, the exits of every module are components and no two of them the same,
and every blueprint was read off a token. -/
structure ComponentGraph.WellFormed (c : ComponentGraph) : Prop where
  graph : c.graph.WellFormed
  exits : ∀ xs ∈ c.exits, xs.Nodup ∧ ∀ v ∈ xs, v < c.size
  read : ∀ component ∈ c.graph.vertices, component.blueprint.IsRead

namespace ComponentGraph

theorem wellFormed_empty : empty.WellFormed where
  graph := Digraph.wellFormed_empty
  exits _ member := absurd member List.not_mem_nil
  read _ member := absurd member (Array.not_mem_empty _)

variable {c : ComponentGraph} (wf : c.WellFormed)
include wf

theorem WellFormed.add (name : Option String) {blueprint : Blueprint} (read : blueprint.IsRead) :
    (c.add name blueprint).WellFormed where
  graph := wf.graph.addVertex _
  exits xs member := by
    obtain ⟨nodup, inside⟩ := wf.exits xs member
    have size : (c.add name blueprint).size = c.size + 1 := Digraph.size_addVertex _ _
    exact ⟨nodup, fun v inExits => by have := inside v inExits; omega⟩
  read component member := by
    rcases Array.mem_push.mp member with old | rfl
    · exact wf.read component old
    · exact read

theorem WellFormed.link {source target : Nat} (insideSource : source < c.size)
    (insideTarget : target < c.size) {c' : ComponentGraph}
    (linked : c.link source target = .ok c') : c'.WellFormed := by
  unfold ComponentGraph.link at linked
  split at linked
  · exact nomatch linked
  next allowed =>
    cases linked
    rw [not_or, Digraph.hasEdge_iff] at allowed
    exact ⟨wf.graph.addEdge insideSource insideTarget allowed.1 allowed.2, wf.exits, wf.read⟩

theorem WellFormed.addExits {exits : List Nat} (nodup : exits.Nodup)
    (inside : ∀ v ∈ exits, v < c.size) : WellFormed { c with exits := exits :: c.exits } where
  graph := wf.graph
  exits := List.forall_mem_cons.mpr ⟨⟨nodup, inside⟩, wf.exits⟩
  read := wf.read

end ComponentGraph

namespace Assembling

/-- The graph so far is well formed, and the ends that are remembered are components. -/
def soundness : Invariant where
  graph := ComponentGraph.WellFormed
  name _ := True
  segment _ := True
  ends n e := e.Inside n
  mono := Ends.Inside.mono

/-- The ends of a module are members of it. -/
theorem moduleEnds_inside (c : ComponentGraph) (first : Nat) (chains : List Ends) :
    (moduleEnds c (members c first chains)).Inside c.size := by
  have small (v : Nat) (member : v ∈ members c first chains) : v < c.size :=
    List.mem_range.mp (List.mem_filter.mp member).1
  exact ⟨fun v member => small v (List.mem_filter.mp member).1,
    fun v member => small v (List.mem_filter.mp member).1⟩

theorem admits_soundness (statements : List Statement) : soundness.Admits statements :=
  ⟨fun _ _ _ _ => trivial, fun _ _ _ => ⟨trivial, fun _ _ => trivial⟩⟩

theorem closed_soundness : soundness.Closed where
  add wf read _ := wf.add _ read
  leaf v := by
    have below : ∀ w ∈ [v], w < v + 1 := fun w member =>
      List.mem_singleton.mp member ▸ Nat.lt_succ_self v
    exact ⟨below, below⟩
  link wf insideA insideB inSinks inSources linked :=
    wf.link (insideA.2 _ inSinks) (insideB.1 _ inSources) linked
  chain insideA insideB := ⟨insideA.1, insideB.2⟩
  module first chains _ := moduleEnds_inside _ first chains
  exits wf inside nodup := wf.addExits nodup inside.2
  body _ := admits_soundness _

end Assembling

/-- An assembled graph is well formed and has a component. -/
theorem ComponentGraph.assemble_wellFormed {statements : List Statement} {assembled : Assembled}
    (success : assemble statements = .ok assembled) :
    assembled.components.WellFormed ∧ 0 < assembled.components.size :=
  Assembling.closed_soundness.of_assemble wellFormed_empty (Assembling.admits_soundness _) success

end LayerNet
