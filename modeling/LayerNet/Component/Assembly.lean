import LayerNet.Architecture.Syntax
import LayerNet.Blueprint.Reader
import LayerNet.Component.Basic

/-!
# Assembly — statements to a component graph

Names are resolved lexically: a frame of bindings for each statement list that is open, the
innermost first. A definition is instantiated on its first reference, in the scope that defines it,
and all later references share its ends (`Binding`). While it is being instantiated it is pending,
and a reference to it then closes a cycle.

A chain links the exits of each segment to the entries of the next: one to one where there are
equally many, more than one, on both sides, and each to each otherwise. The chains of a module run
in parallel; at the top level a chain that begins with a segment without a name continues the chain
before it.

Recursion descends into modules and into the values of definitions. `weight` counts the syntax that
is still to be instantiated, and every step down leaves less of it, so it bounds the depth
(`ComponentGraph.assemble`).
-/

namespace LayerNet

/-- The vertices that a piece of syntax shows to its neighbours. -/
structure Ends where
  sources : List Nat
  sinks : List Nat
  deriving Repr, DecidableEq

/-- What a name stands for: a value not yet instantiated, one being instantiated, or its ends. -/
inductive Binding where
  | fresh (value : List Segment)
  | pending
  | done (ends : Ends)

/-- The bindings of one statement list. -/
abbrev Frame := List (String × Binding)

/-- The graph so far, the frames in scope, the innermost first, and the names that scopes closed
without using, the last first. -/
structure Assembly where
  components : ComponentGraph
  frames : List Frame
  unused : List String

/-- A computation that assembles. -/
abbrev Assembling (α : Type) := StateT Assembly (Outcome CompileError) α

namespace Binding

/-- The syntax behind a binding that is still to be instantiated. -/
def weight : Binding → Nat
  | fresh value => 1 + Segment.sizeAll value
  | _ => 0

/-- Whether the binding was never referred to. -/
def isFresh : Binding → Bool
  | fresh _ => true
  | _ => false

end Binding

namespace Frame

/-- The syntax of a frame that is still to be instantiated. -/
def weight (f : Frame) : Nat := Size.total (f.map fun (_, b) => b.weight)

/-- The binding of a name. -/
def find? (f : Frame) (name : String) : Option Binding := (f.lookup name)

/-- The names that were never referred to. -/
def unused (f : Frame) : List String :=
  f.filterMap fun (name, b) => if b.isFresh then some name else none

/-- The frame with another binding for a name. -/
def put (f : Frame) (name : String) (binding : Binding) : Frame :=
  f.map fun (other, b) => if other = name then (other, binding) else (other, b)

end Frame

namespace Assembling

/-- An error with its cause. -/
def fail {α : Type} (cause : CompileError) : Assembling α :=
  liftM (Outcome.fail cause : Outcome CompileError α)

/-- A change of the graph that may be refused. -/
def modifyGraph (f : ComponentGraph → Except CompileError ComponentGraph) : Assembling Unit := do
  let s ← get
  match f s.components with
  | .ok components => set { s with components }
  | .error cause => fail cause

/-- The bindings of a statement list, which must not define a name twice. -/
def frameOf (statements : List Statement) : Assembling Frame :=
  (definitions statements).foldlM (fun (f : Frame) (name, value) =>
    if (f.find? name).isSome then fail (.duplicateVertex name)
    else return f ++ [(name, .fresh value)]) []

/-- The binding of a name in the innermost frame that has one, and the number of that frame. -/
def resolve? (name : String) : List Frame → Option (Nat × Binding)
  | [] => none
  | f :: rest =>
    match f.find? name with
    | some binding => some (0, binding)
    | none => (resolve? name rest).map fun (depth, binding) => (depth + 1, binding)

/-- Whether a name is bound in the frames in scope. -/
def isBound (name : String) : Assembling Bool := do
  return (resolve? name (← get).frames).isSome

/-- Binds a name of the innermost frame anew. -/
def bind (name : String) (binding : Binding) : Assembling Unit :=
  modify fun s =>
    match s.frames with
    | [] => s
    | f :: rest => { s with frames := f.put name binding :: rest }

/-- Runs a computation in the scope of an outer frame. -/
def inOuter {α : Type} (depth : Nat) (x : Assembling α) : Assembling α := do
  let inner := (← get).frames.take depth
  modify fun s => { s with frames := s.frames.drop depth }
  let a ← x
  modify fun s => { s with frames := inner ++ s.frames }
  return a

/-- Runs a computation in a scope of its own, and notes the names that it did not use. -/
def inFrame {α : Type} (f : Frame) (x : Assembling α) : Assembling α := do
  modify fun s => { s with frames := f :: s.frames }
  let a ← x
  modify fun s =>
    { s with frames := s.frames.tail, unused := (s.frames.headD []).unused.reverse ++ s.unused }
  return a

/-- Adds the layer of a token, under a name if it has one. -/
def leaf (token : String) (name : Option String) : Assembling Ends := do
  match Blueprint.read? token with
  | none => fail (.unrecognized token)
  | some blueprint =>
    let v := (← get).components.size
    modifyGraph fun c => .ok (c.add name blueprint)
    return ⟨[v], [v]⟩

/-- The edges between two pieces of a chain. -/
def linksBetween (a b : Ends) : List Edge :=
  if 1 < a.sinks.length ∧ a.sinks.length = b.sources.length then a.sinks.zip b.sources
  else a.sinks.flatMap fun source => b.sources.map fun target => (source, target)

/-- Links two pieces of a chain. -/
def connect (a b : Ends) : Assembling Unit :=
  (linksBetween a b).forM fun (source, target) => modifyGraph fun c => c.link source target

/-- The members of a module: the ends of its chains and the components that it added. -/
def members (c : ComponentGraph) (first : Nat) (chains : List Ends) : List Nat :=
  (List.range c.size).filter fun v =>
    first ≤ v || chains.any fun e => e.sources.contains v || e.sinks.contains v

/-- The ends of a module: the members without a predecessor and those without a successor among
the members. -/
def moduleEnds (c : ComponentGraph) (members : List Nat) : Ends where
  sources := members.filter fun v => !(c.graph.predecessors v).any members.contains
  sinks := members.filter fun v => !(c.graph.successors v).any members.contains

/-- Closes a module and gives its ends. -/
def closeModule (first : Nat) (chains : List Ends) : Assembling Ends := do
  let c := (← get).components
  let ends := moduleEnds c (members c first chains)
  if 1 < ends.sinks.length then
    modifyGraph fun c => .ok { c with exits := ends.sinks :: c.exits }
  return ends

/-- Links the segments of a chain, each instantiated by a given computation. -/
def chainWith (segment : Segment → Assembling Ends) (segments : List Segment)
    (previous : Option Ends) : Assembling Ends := do
  let (head, last) ← segments.foldlM (fun (head, last) s => do
    let ends ← segment s
    match last with
    | some last => connect last ends
    | none => pure ()
    return (head.orElse fun _ => some ends, some ends)) ((none : Option Ends), previous)
  match head, last with
  | some head, some last => return ⟨head.sources, last.sinks⟩
  | _, _ => fail .emptyChain

/-- Instantiates a definition of the innermost frame. A single token that names nothing becomes a
component under the definition's name. -/
def define (segment : Segment → Assembling Ends) (name : String) (value : List Segment) :
    Assembling Ends := do
  bind name .pending
  let ends ←
    match value with
    | [.token token] =>
      if ← isBound token then chainWith segment value none else leaf token (some name)
    | _ => chainWith segment value none
  bind name (.done ends)
  return ends

/-- Instantiates a module with segments instantiated by a given computation. -/
def moduleWith (segment : Segment → Assembling Ends) (body : List Statement) :
    Assembling Ends := do
  let f ← frameOf body
  let first := (← get).components.size
  if (chains body).isEmpty then
    fail (.malformed (Text.listed (Statement.shownAll body)) .noChains)
  else
    let chainEnds ← inFrame f ((chains body).mapM fun segments => chainWith segment segments none)
    closeModule first chainEnds

/-- Instantiates a segment, down to a depth. -/
def segment : Nat → Segment → Assembling Ends
  | 0, _ => liftM (Outcome.fatal : Outcome CompileError Ends)
  | depth + 1, .module body => moduleWith (segment depth) body
  | depth + 1, .token text => do
    match resolve? text (← get).frames with
    | none => leaf text none
    | some (_, .done ends) => return ends
    | some (_, .pending) => fail (.cyclic text)
    | some (outer, .fresh value) => inOuter outer (define (segment depth) text value)

/-- Whether a chain begins with a bound name. -/
def beginsBound (segments : List Segment) : Assembling Bool :=
  match segments with
  | .token text :: _ => isBound text
  | _ => return false

/-- Instantiates the chains of the top level, each continuing the one before unless it begins with
a bound name. -/
def topLevel (depth : Nat) (statements : List Statement) : Assembling Unit := do
  let _ ← (chains statements).foldlM (fun (tail : Option Ends) segments => do
    let previous := if ← beginsBound segments then none else tail
    return some (← chainWith (segment depth) segments previous)) none

end Assembling

/-- An assembled graph, and the names that were defined but never used. -/
structure Assembled where
  components : ComponentGraph
  unused : List String

/-- The component graph of an architecture. -/
def ComponentGraph.assemble (statements : List Statement) : Outcome CompileError Assembled := do
  let depth := Statement.sizeAll statements + 1
  let all : Assembling Unit := do
    let f ← Assembling.frameOf statements
    Assembling.inFrame f (Assembling.topLevel depth statements)
  let ((), s) ← all.run ⟨.empty, [], []⟩
  if s.components.size = 0 then Outcome.fail .noLayers
  else return ⟨s.components, s.unused.reverse⟩

end LayerNet
