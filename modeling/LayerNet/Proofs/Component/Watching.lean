import LayerNet.Proofs.Component.Joining
import LayerNet.Proofs.Digraph.Degree

/-!
# Watching — links that a chain in place would have made before

A name in a chain is linked to the piece before it when all of its value is instantiated. Written in
place of the name, the first segment of the value is linked to that piece at once, before the other
segments are instantiated. Only a module that is closed in between can tell the difference: if both
ends of such a link are members of it, it may have other sources or sinks with it than without.

A watching assembly does the same as an assembly (`assembleWatched_eq`), but stops where a name is
watched and this happens. With each segment of a value it knows the links that a chain in place
would have made by then (`late`), and with each segment of a chain the exits of the piece before.
-/

namespace LayerNet

namespace Assembling

/-- A state with links between its components. -/
def linked (s : Assembly) (links : List Edge) : Assembly :=
  { s with components := { s.components with graph := s.components.graph.addEdges links } }

/-- Closes a module, unless late links would give it other ends. -/
def closeApart (late : List Edge) (first : Nat) (chains : List Ends) : Assembling Ends := do
  let s ← get
  let members := members s.components first chains
  if moduleEnds (linked s late).components members = moduleEnds s.components members then
    closeModule first chains
  else liftM (Outcome.fatal : Outcome CompileError Ends)

/-- Instantiates the value of a definition, with its segments chained by a given computation. A
single token that names nothing becomes a component under the definition's name. -/
def valueWith (chain : List Segment → Assembling Ends) (owner : String)
    (value : List Segment) : Assembling Ends :=
  match value with
  | [.token token] => do
    if ← isBound token then chain value else leaf token (some owner)
  | _ => chain value

/-- Instantiates a definition of the innermost frame, with the segments of its value chained by a
given computation. -/
def defineWith (chain : List Segment → Assembling Ends) (name : String) (value : List Segment) :
    Assembling Ends := do
  bind name .pending
  let ends ← valueWith chain name value
  bind name (.done ends)
  return ends

/-- Instantiates a token, given what it stands for. -/
def tokenWith (chain : List Segment → Assembling Ends) (text : String) :
    Option (Nat × Binding) → Assembling Ends
  | none => leaf text none
  | some (_, .done ends) => return ends
  | some (_, .pending) => fail (.cyclic text)
  | some (outer, .fresh value) => inOuter outer (defineWith chain text value)

/-- Instantiates a segment, where chains are instantiated and modules closed by given computations.
The value of a definition comes with its name. -/
def stepWith (chain : Option String → List Segment → Assembling Ends)
    (close : Nat → List Ends → Assembling Ends) : Segment → Assembling Ends
  | .module body => do
    let f ← frameOf body
    let first := (← get).components.size
    if (chains body).isEmpty then
      fail (.malformed (Text.listed (Statement.shownAll body)) .noChains)
    else
      let chainEnds ← inFrame f ((chains body).mapM (chain none))
      close first chainEnds
  | .token text => do
    tokenWith (chain (some text)) text (resolve? text (← get).frames)

/-- Instantiates a value behind a piece with given exits, which it is not linked to yet. From the
second segment on, the links to the first one are late. -/
def valueFrom (g : List Edge → List Nat → Segment → Assembling Ends) (late : List Edge)
    (before : List Nat) : List Segment → Assembling Ends
  | [] => fail .emptyChain
  | x :: xs => do
    let first ← g late [] x
    let links := linksBetween ⟨[], before⟩ first
    let last ← xs.foldlM (fun last => follow (g (late ++ links) last.sinks) last) first
    return ⟨first.sources, last.sinks⟩

/-- Instantiates a segment, down to a depth, and watches a name. -/
def watched (name : String) : Nat → List Edge → List Nat → Segment → Assembling Ends
  | 0, _, _, _ => liftM (Outcome.fatal : Outcome CompileError Ends)
  | depth + 1, late, before, x =>
    stepWith (fun owner segments =>
      if owner = some name then valueFrom (watched name depth) late before segments
      else chainFrom (watched name depth late) none segments) (closeApart late) x

/-- Instantiates a chain that continues the one before, unless it begins with a bound name. -/
def continueFrom (g : List Nat → Segment → Assembling Ends) (tail : Option Ends)
    (segments : List Segment) : Assembling (Option Ends) := do
  let previous := if ← beginsBound segments then none else tail
  return some (← chainFrom g previous segments)

/-- Instantiates the chains of the top level and watches a name. -/
def topLevelWatched (name : String) (depth : Nat) (statements : List Statement) :
    Assembling Unit := do
  let _ ← (chains statements).foldlM (continueFrom (watched name depth [])) none

end Assembling

/-- What is assembled when all chains are instantiated. -/
def Assembly.outcome (s : Assembly) : Outcome CompileError Assembled :=
  if s.components.size = 0 then Outcome.fail .noLayers
  else .ok ⟨s.components, s.unused.reverse⟩

/-- Assembles statements, but stops where, within the value of a name, a module is closed to which
the links of a chain in place would give other ends. -/
def ComponentGraph.assembleWatched (name : String) (statements : List Statement) :
    Outcome CompileError Assembled := do
  let depth := Statement.sizeAll statements + 1
  let all : Assembling Unit := do
    let f ← Assembling.frameOf statements
    Assembling.inFrame f (Assembling.topLevelWatched name depth statements)
  let ((), s) ← all.run ⟨.empty, [], []⟩
  s.outcome

namespace Assembling

/-! ## The same assembly -/

theorem define_eq_defineWith (f : Segment → Assembling Ends) (name : String)
    (value : List Segment) : define f name value
      = defineWith (fun segments => chainWith f segments none) name value := by
  refine bind_congr fun _ => ?_
  match value with
  | [.token token] =>
    show _ = (isBound token >>= _) >>= _
    rw [bind_assoc]
    refine bind_congr fun bound => ?_
    cases bound <;> rfl
  | [] => rfl
  | .token _ :: _ :: _ => rfl
  | .module _ :: _ => rfl

theorem step_eq_stepWith (f : Segment → Assembling Ends) :
    step f = stepWith (fun _ segments => chainWith f segments none) closeModule := by
  funext x
  cases x with
  | module body => rfl
  | token text =>
    refine bind_congr fun s => ?_
    rcases resolve? text s.frames with _ | ⟨outer, value | _ | ends⟩
    · rfl
    · exact congrArg (inOuter outer) (define_eq_defineWith f text value)
    · rfl
    · rfl

variable {α β : Type}

/-- A computation stops, or does the same as another. -/
def Guards (x y : Assembling α) : Prop :=
  ∀ s, (∃ reason, x.run s = Outcome.stop reason) ∨ x.run s = y.run s

namespace Guards

theorem refl (x : Assembling α) : Guards x x := fun _ => .inr rfl

theorem bind {x y : Assembling α} {f g : α → Assembling β} (first : Guards x y)
    (second : ∀ a, Guards (f a) (g a)) : Guards (x >>= f) (y >>= g) := by
  intro s
  rw [StateT.run_bind, StateT.run_bind]
  obtain ⟨reason, stopped⟩ | same := first s
  · rw [stopped]
    exact .inl ⟨reason, rfl⟩
  · rw [← same]
    cases x.run s with
    | error failure => exact .inr rfl
    | ok p => exact second p.1 p.2

theorem foldlM {f g : β → α → Assembling β} (xs : List α) (step : ∀ b x, Guards (f b x) (g b x))
    (b : β) : Guards (xs.foldlM f b) (xs.foldlM g b) := by
  induction xs generalizing b with
  | nil => exact .refl _
  | cons x xs ih => exact (step b x).bind ih

theorem mapM {f g : α → Assembling β} (xs : List α) (step : ∀ x, Guards (f x) (g x)) :
    Guards (xs.mapM f) (xs.mapM g) := by
  induction xs with
  | nil => exact .refl _
  | cons x xs ih =>
    rw [List.mapM_cons, List.mapM_cons]
    exact (step x).bind fun _ => ih.bind fun _ => .refl _

theorem inFrame {x y : Assembling α} (f : Frame) (guards : Guards x y) :
    Guards (inFrame f x) (inFrame f y) :=
  (Guards.refl _).bind fun _ => guards.bind fun _ => .refl _

theorem inOuter {x y : Assembling α} (depth : Nat) (guards : Guards x y) :
    Guards (inOuter depth x) (inOuter depth y) :=
  (Guards.refl _).bind fun _ => (Guards.refl _).bind fun _ => guards.bind fun _ => .refl _

/-- What a computation that may stop leads to, the other one leads to. -/
theorem run_eq_ok {x y : Assembling α} (guards : Guards x y) {s s' : Assembly} {a : α}
    (run : x.run s = .ok (a, s')) : y.run s = .ok (a, s') := by
  obtain ⟨reason, stopped⟩ | same := guards s
  · rw [stopped] at run
    cases run
  · rw [← same, run]

/-- So it advances if the other one does. -/
theorem advances {x y : Assembling α} (guards : Guards x y) (advances : Advances y) : Advances x :=
  fun s a s' run => advances s a s' (guards.run_eq_ok run)

end Guards

theorem guards_closeApart (late : List Edge) (first : Nat) (chains : List Ends) :
    Guards (closeApart late first chains) (closeModule first chains) := by
  intro s
  show (∃ reason, (ite _ _ _ : Assembling Ends).run s = _) ∨ (ite _ _ _ : Assembling Ends).run s = _
  split
  · exact .inr rfl
  · exact .inl ⟨.broken, rfl⟩

theorem guards_follow {f g : Segment → Assembling Ends} (each : ∀ x, Guards (f x) (g x))
    (last : Ends) (x : Segment) : Guards (follow f last x) (follow g last x) :=
  (each x).bind fun _ => .refl _

theorem guards_chainFrom {g : List Nat → Segment → Assembling Ends} {f : Segment → Assembling Ends}
    (each : ∀ before x, Guards (g before x) (f x)) (previous : Option Ends)
    (segments : List Segment) :
    Guards (chainFrom g previous segments) (chainWith f segments previous) := by
  rw [chainWith_eq_chainFrom]
  cases segments with
  | nil => exact .refl _
  | cons x xs =>
    refine (each _ x).bind fun first => (Guards.refl _).bind fun _ => ?_
    refine (Guards.foldlM xs (fun last y => ?_) first).bind fun last => .refl _
    exact guards_follow (each _) last y

theorem guards_valueFrom {g : List Edge → List Nat → Segment → Assembling Ends}
    {f : Segment → Assembling Ends} (each : ∀ late before x, Guards (g late before x) (f x))
    (late : List Edge) (before : List Nat) (segments : List Segment) :
    Guards (valueFrom g late before segments) (chainWith f segments none) := by
  rw [chainWith_eq_chainFrom]
  cases segments with
  | nil => exact .refl _
  | cons x xs =>
    refine (each _ _ x).bind fun first => ?_
    refine (Guards.foldlM xs (fun last y => ?_) first).bind fun last => .refl _
    exact guards_follow (each _ _) last y

theorem guards_stepWith {chain chain' : Option String → List Segment → Assembling Ends}
    {close close' : Nat → List Ends → Assembling Ends}
    (chained : ∀ owner segments, Guards (chain owner segments) (chain' owner segments))
    (closed : ∀ first chains, Guards (close first chains) (close' first chains)) (x : Segment) :
    Guards (stepWith chain close x) (stepWith chain' close' x) := by
  cases x with
  | module body =>
    refine (Guards.refl _).bind fun f => (Guards.refl get).bind fun s => ?_
    dsimp only
    split
    · exact .refl _
    · exact (Guards.inFrame f (.mapM _ (chained none))).bind fun ends => closed _ ends
  | token text =>
    refine (Guards.refl get).bind fun s => ?_
    rcases resolve? text s.frames with _ | ⟨outer, value | _ | ends⟩
    · exact .refl _
    · refine .inOuter outer ((Guards.refl _).bind fun _ => Guards.bind ?_ fun _ => .refl _)
      unfold valueWith
      split
      · refine (Guards.refl _).bind fun bound => ?_
        split
        · exact chained _ _
        · exact .refl _
      · exact chained _ _
    · exact .refl _
    · exact .refl _

theorem guards_watched (name : String) (depth : Nat) (late : List Edge) (before : List Nat)
    (x : Segment) : Guards (watched name depth late before x) (segment depth x) := by
  induction depth generalizing late before x with
  | zero => exact .refl _
  | succ depth ih =>
    rw [segment_succ, step_eq_stepWith]
    refine guards_stepWith (fun owner segments => ?_) (guards_closeApart late) x
    split
    · exact guards_valueFrom ih late before segments
    · exact guards_chainFrom (ih late) none segments

theorem advances_watched (name : String) (depth : Nat) (late : List Edge) (before : List Nat)
    (x : Segment) : Advances (watched name depth late before x) :=
  (guards_watched name depth late before x).advances (advances_segment depth x)

theorem guards_topLevelWatched (name : String) (depth : Nat) (statements : List Statement) :
    Guards (topLevelWatched name depth statements) (topLevel depth statements) := by
  refine (Guards.foldlM _ (fun tail segments => ?_) none).bind fun _ => .refl _
  refine (Guards.refl _).bind fun bound => ?_
  exact (guards_chainFrom (guards_watched name depth []) _ segments).bind fun _ => .refl _

end Assembling

/-- A watching assembly stops, or does the same as an assembly. -/
theorem ComponentGraph.assembleWatched_eq (name : String) (statements : List Statement) :
    (∃ reason, assembleWatched name statements = Outcome.stop reason)
      ∨ assembleWatched name statements = assemble statements := by
  have guards := (Assembling.Guards.refl (Assembling.frameOf statements)).bind fun f =>
    Assembling.Guards.inFrame f
      (Assembling.guards_topLevelWatched name (Statement.sizeAll statements + 1) statements)
  unfold assembleWatched assemble
  obtain ⟨reason, stopped⟩ | same := guards ⟨.empty, [], []⟩
  · dsimp only
    rw [stopped]
    exact .inl ⟨reason, rfl⟩
  · dsimp only
    rw [same]
    exact .inr rfl

end LayerNet
