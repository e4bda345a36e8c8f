import LayerNet.Proofs.Agreement
import LayerNet.Proofs.Component.Termination

/-!
# Journals — an assembly that records what it does

Assembly keeps no record of which token a component was made for, or of which definition a name
stood for when it was referred to. A journaling assembly does the same (`assembleJournaled_eq`) and
records it: the tokens that components are made for, the modules that are opened, the definitions
that are begun and ended, and the references to those that have ended (`Event`).

It knows tokens, modules and definitions by where they stand (`Site`). So a segment is instantiated
together with its site and with the sites of the definitions in scope, one list for each frame
(`Scope`).
-/

namespace LayerNet

/-! ## Sites -/

/-- Where a token, a module or a definition stands: how much is written before it, and before each
of the definitions that it lies in, the innermost first. -/
structure Site where
  number : Nat
  within : List Nat
  deriving Repr, DecidableEq

/-- The definitions of one statement list, with their sites. -/
abbrev Scope := List (String × Site)

section

variable (within : List Nat)

/-- The segments of a chain, the first of which has a given number. -/
def segmentsFrom : Nat → List Segment → List (Site × Segment)
  | _, [] => []
  | n, segment :: rest => (⟨n, within⟩, segment) :: segmentsFrom (n + segment.size) rest

/-- The chains of a statement list that begins with a given number. -/
def chainsFrom : Nat → List Statement → List (List (Site × Segment))
  | _, [] => []
  | n, .define name value :: rest => chainsFrom (n + (Statement.define name value).size) rest
  | n, .chain segments :: rest =>
    segmentsFrom within (n + 1) segments :: chainsFrom (n + (Statement.chain segments).size) rest

/-- The definitions of a statement list that begins with a given number. -/
def scopeFrom : Nat → List Statement → Scope
  | _, [] => []
  | n, .define name value :: rest =>
    (name, ⟨n, within⟩) :: scopeFrom (n + (Statement.define name value).size) rest
  | n, .chain segments :: rest => scopeFrom (n + (Statement.chain segments).size) rest

end

/-- The segments of the value of a definition. -/
def Site.value (definition : Site) (value : List Segment) : List (Site × Segment) :=
  segmentsFrom (definition.number :: definition.within) (definition.number + 1) value

/-- The chains of a module. -/
def Site.chains (module : Site) (body : List Statement) : List (List (Site × Segment)) :=
  chainsFrom module.within (module.number + 1) body

/-- The definitions of a module. -/
def Site.scope (module : Site) (body : List Statement) : Scope :=
  scopeFrom module.within (module.number + 1) body

/-- The site of the definition that a name stands for in a scope. -/
def siteIn (scopes : List Scope) (depth : Nat) (name : String) : Site :=
  ((scopes[depth]?.getD []).lookup name).getD ⟨0, []⟩

theorem mem_segmentsFrom {within : List Nat} {n : Nat} {segments : List Segment}
    {q : Site × Segment} (member : q ∈ segmentsFrom within n segments) : q.1.within = within := by
  induction segments generalizing n with
  | nil => cases member
  | cons x rest ih =>
    rcases List.mem_cons.mp member with rfl | member
    · rfl
    · exact ih member

theorem mem_chainsFrom {within : List Nat} {n : Nat} {statements : List Statement}
    {placed : List (Site × Segment)} (chain : placed ∈ chainsFrom within n statements) :
    ∀ q ∈ placed, q.1.within = within := by
  induction statements generalizing n with
  | nil => cases chain
  | cons statement rest ih =>
    cases statement with
    | define => exact ih chain
    | chain segments =>
      rcases List.mem_cons.mp chain with rfl | chain
      · exact fun q => mem_segmentsFrom
      · exact ih chain

theorem map_fst_scopeFrom (within : List Nat) (n : Nat) (statements : List Statement) :
    (scopeFrom within n statements).map Prod.fst = (definitions statements).map Prod.fst := by
  induction statements generalizing n with
  | nil => rfl
  | cons statement rest ih =>
    cases statement with
    | define name value => exact congrArg (name :: ·) (ih _)
    | chain segments => exact ih _

/-! ## Recording -/

/-- What an assembly does: it makes a component for a token, opens a module, begins a definition,
ends it with some ends, or answers a reference to it with ends. -/
inductive Event where
  | made (site : Site) (text : String)
  | opened (site : Site)
  | begun (site : Site) (name : String)
  | ended (site : Site) (name : String) (ends : Ends)
  | shared (site : Site) (name : String) (ends : Ends)
  deriving Repr, DecidableEq

/-- A computation that assembles and records what it does, the last event first. -/
abbrev Journaling (α : Type) := StateT (Assembly × List Event) (Outcome CompileError) α

namespace Journaling

/-- A computation that records nothing. -/
def plain {α : Type} (x : Assembling α) : Journaling α := fun (s, journal) => do
  let (a, s') ← x.run s
  return (a, s', journal)

/-- Records an event. -/
def note (event : Event) : Journaling Unit := modify fun (s, journal) => (s, event :: journal)

/-- Runs a computation in the scope of an outer frame. -/
def inOuter {α : Type} (depth : Nat) (x : Journaling α) : Journaling α := do
  let inner := (← plain get).frames.take depth
  plain (modify fun s => { s with frames := s.frames.drop depth })
  let a ← x
  plain (modify fun s => { s with frames := inner ++ s.frames })
  return a

/-- Runs a computation in a scope of its own, and notes the names that it did not use. -/
def inFrame {α : Type} (f : Frame) (x : Journaling α) : Journaling α := do
  plain (modify fun s => { s with frames := f :: s.frames })
  let a ← x
  plain (modify fun s =>
    { s with frames := s.frames.tail, unused := (s.frames.headD []).unused.reverse ++ s.unused })
  return a

/-- Adds the layer of a token, under a name if it has one. -/
def leaf (site : Site) (token : String) (name : Option String) : Journaling Ends := do
  let ends ← plain (Assembling.leaf token name)
  note (.made site token)
  return ends

/-- Links the segments of a chain, each instantiated by a given computation. -/
def chainWith (segment : Site → Segment → Journaling Ends) (segments : List (Site × Segment))
    (previous : Option Ends) : Journaling Ends := do
  let (head, last) ← segments.foldlM (fun (head, last) (site, s) => do
    let ends ← segment site s
    match last with
    | some last => plain (Assembling.connect last ends)
    | none => pure ()
    return (head.orElse fun _ => some ends, some ends)) ((none : Option Ends), previous)
  match head, last with
  | some head, some last => return ⟨head.sources, last.sinks⟩
  | _, _ => plain (Assembling.fail .emptyChain)

/-- Instantiates a definition of the innermost frame. A single token that names nothing becomes a
component under the definition's name. -/
def define (segment : Site → Segment → Journaling Ends) (site : Site) (name : String)
    (value : List Segment) : Journaling Ends := do
  note (.begun site name)
  plain (Assembling.bind name .pending)
  let ends ←
    match value with
    | [.token token] =>
      if ← plain (Assembling.isBound token) then chainWith segment (site.value value) none
      else leaf ⟨site.number + 1, site.number :: site.within⟩ token (some name)
    | _ => chainWith segment (site.value value) none
  note (.ended site name ends)
  plain (Assembling.bind name (.done ends))
  return ends

/-- Instantiates a module with segments instantiated by a given computation. -/
def moduleWith (segment : List Scope → Site → Segment → Journaling Ends) (scopes : List Scope)
    (site : Site) (body : List Statement) : Journaling Ends := do
  note (.opened site)
  let f ← plain (Assembling.frameOf body)
  let first := (← plain get).components.size
  if (chains body).isEmpty then
    plain (Assembling.fail (.malformed (Text.listed (Statement.shownAll body)) .noChains))
  else
    let chainEnds ← inFrame f ((site.chains body).mapM fun segments =>
      chainWith (segment (site.scope body :: scopes)) segments none)
    plain (Assembling.closeModule first chainEnds)

/-- Instantiates a segment, down to a depth. -/
def segment : Nat → List Scope → Site → Segment → Journaling Ends
  | 0, _, _, _ => plain (liftM (Outcome.fatal : Outcome CompileError Ends))
  | depth + 1, scopes, site, .module body => moduleWith (segment depth) scopes site body
  | depth + 1, scopes, site, .token text => do
    match Assembling.resolve? text (← plain get).frames with
    | none => leaf site text none
    | some (outer, .done ends) =>
      note (.shared (siteIn scopes outer text) text ends)
      return ends
    | some (_, .pending) => plain (Assembling.fail (.cyclic text))
    | some (outer, .fresh value) =>
      inOuter outer
        (define (segment depth (scopes.drop outer)) (siteIn scopes outer text) text value)

/-- Whether a chain begins with a bound name. -/
def beginsBound (segments : List (Site × Segment)) : Journaling Bool :=
  plain (Assembling.beginsBound (segments.map Prod.snd))

/-- Instantiates the chains of the top level, each continuing the one before unless it begins with
a bound name. -/
def topLevel (depth : Nat) (statements : List Statement) : Journaling Unit := do
  let _ ← (chainsFrom [] 0 statements).foldlM (fun (tail : Option Ends) segments => do
    let previous := if ← beginsBound segments then none else tail
    return some (← chainWith (segment depth [scopeFrom [] 0 statements]) segments previous)) none

end Journaling

/-- The component graph of an architecture, and the journal of its assembly. -/
def ComponentGraph.assembleJournaled (statements : List Statement) :
    Outcome CompileError (Assembled × List Event) := do
  let depth := Statement.sizeAll statements + 1
  let all : Journaling Unit := do
    let f ← Journaling.plain (Assembling.frameOf statements)
    Journaling.inFrame f (Journaling.topLevel depth statements)
  let ((), s, journal) ← all.run (⟨.empty, [], []⟩, [])
  if s.components.size = 0 then Outcome.fail .noLayers
  else return (⟨s.components, s.unused.reverse⟩, journal)

/-! ## The same assembly -/

theorem forall₂_segmentsFrom (within : List Nat) (n : Nat) (segments : List Segment) :
    List.Forall₂ (fun p x => p.2 = x) (segmentsFrom within n segments) segments := by
  induction segments generalizing n with
  | nil => exact .nil
  | cons segment rest ih => exact .cons rfl (ih _)

theorem forall₂_chainsFrom (within : List Nat) (n : Nat) (statements : List Statement) :
    List.Forall₂ (List.Forall₂ fun p x => p.2 = x) (chainsFrom within n statements)
      (chains statements) := by
  induction statements generalizing n with
  | nil => exact .nil
  | cons statement rest ih =>
    cases statement with
    | define => exact ih _
    | chain segments => exact .cons (forall₂_segmentsFrom within (n + 1) segments) (ih _)

namespace Journaling

variable {α β : Type}

/-- A computation that records does the same as one that does not. -/
abbrev Records (x : Journaling α) (y : Assembling α) : Prop :=
  Agree (fun (s : Assembly × List Event) t => s.1 = t) x y

theorem records_plain (x : Assembling α) : Records (plain x) x := by
  rintro ⟨s, journal⟩ _ rfl
  show (∃ failure failure', (x.run s >>= fun (a, s') => .ok (a, s', journal)) = _ ∧ _)
    ∨ ∃ a s' t', (x.run s >>= fun (a, s') => .ok (a, s', journal)) = _ ∧ _
  cases run : x.run s with
  | error failure => exact .inl ⟨failure, failure, rfl, rfl⟩
  | ok result => exact .inr ⟨result.1, (result.2, journal), result.2, rfl, rfl, rfl⟩

theorem records_note (event : Event) {x : Journaling α} {y : Assembling α} (records : Records x y) :
    Records (note event >>= fun _ => x) y :=
  fun s t same => records (s.1, event :: s.2) t same

theorem records_inOuter {x : Journaling α} {y : Assembling α} (depth : Nat)
    (records : Records x y) : Records (inOuter depth x) (Assembling.inOuter depth y) :=
  (records_plain get).bind fun _ => (records_plain _).bind fun _ => records.bind fun _ =>
    (records_plain _).bind fun _ => .pure _

theorem records_inFrame {x : Journaling α} {y : Assembling α} (f : Frame)
    (records : Records x y) : Records (inFrame f x) (Assembling.inFrame f y) :=
  (records_plain _).bind fun _ => records.bind fun _ => (records_plain _).bind fun _ => .pure _

theorem records_leaf (site : Site) (token : String) (name : Option String) :
    Records (leaf site token name) (Assembling.leaf token name) := by
  have same : Assembling.leaf token name = Assembling.leaf token name >>= pure := (bind_pure _).symm
  rw [same]
  exact (records_plain _).bind fun _ => records_note _ (.pure _)

theorem records_chainWith {f : Site → Segment → Journaling Ends} {g : Segment → Assembling Ends}
    (each : ∀ site x, Records (f site x) (g x)) {placed : List (Site × Segment)}
    {segments : List Segment} (same : List.Forall₂ (fun p x => p.2 = x) placed segments)
    (previous : Option Ends) :
    Records (chainWith f placed previous) (Assembling.chainWith g segments previous) := by
  refine (Agree.foldlM (same.imp ?_) _).bind fun p => ?_
  · rintro ⟨site, x⟩ _ rfl p
    refine (each site x).bind fun ends => ?_
    obtain ⟨head, last⟩ := p
    cases last with
    | none => exact .pure _
    | some last => exact (records_plain _).bind fun _ => .pure _
  · obtain ⟨head, last⟩ := p
    cases head with
    | none => exact records_plain _
    | some head =>
      cases last with
      | none => exact records_plain _
      | some last => exact .pure _

theorem records_define {f : Site → Segment → Journaling Ends} {g : Segment → Assembling Ends}
    (each : ∀ site x, Records (f site x) (g x)) (site : Site) (name : String)
    (value : List Segment) :
    Records (define f site name value) (Assembling.define g name value) := by
  have chain : Records (chainWith f (site.value value) none) (Assembling.chainWith g value none) :=
    records_chainWith each (forall₂_segmentsFrom _ _ value) none
  have finish (ends : Ends) : Records
      (do note (.ended site name ends); plain (Assembling.bind name (.done ends)); return ends)
      (do Assembling.bind name (.done ends); return ends) :=
    records_note _ ((records_plain _).bind fun _ => .pure _)
  refine records_note _ ((records_plain _).bind fun _ => ?_)
  match value, chain with
  | [.token token], chain =>
    refine (records_plain _).bind fun bound => ?_
    cases bound with
    | true => exact chain.bind finish
    | false => exact (records_leaf _ _ _).bind finish
  | [], chain => exact chain.bind finish
  | .token _ :: _ :: _, chain => exact chain.bind finish
  | .module _ :: _, chain => exact chain.bind finish

theorem records_moduleWith {f : List Scope → Site → Segment → Journaling Ends}
    {g : Segment → Assembling Ends} (each : ∀ scopes site x, Records (f scopes site x) (g x))
    (scopes : List Scope) (site : Site) (body : List Statement) :
    Records (moduleWith f scopes site body) (Assembling.moduleWith g body) := by
  refine records_note _ ((records_plain _).bind fun frame => (records_plain get).bind fun s => ?_)
  dsimp only
  split
  · exact records_plain _
  · refine (records_inFrame frame (.mapM ?_)).bind fun _ => records_plain _
    exact (forall₂_chainsFrom _ _ body).imp fun _ _ same => records_chainWith (each _) same none

theorem records_segment (depth : Nat) (scopes : List Scope) (site : Site) (x : Segment) :
    Records (segment depth scopes site x) (Assembling.segment depth x) := by
  induction depth generalizing scopes site x with
  | zero => exact records_plain _
  | succ depth ih =>
    cases x with
    | module body => exact records_moduleWith ih scopes site body
    | token text =>
      refine (records_plain get).bind fun s => ?_
      rcases Assembling.resolve? text s.frames with _ | ⟨outer, value | _ | ends⟩
      · exact records_leaf site text none
      · exact records_inOuter outer (records_define (ih _) _ text value)
      · exact records_plain _
      · exact records_note _ (.pure ends)

theorem records_topLevel (depth : Nat) (statements : List Statement) :
    Records (topLevel depth statements) (Assembling.topLevel depth statements) := by
  refine (Agree.foldlM ((forall₂_chainsFrom [] 0 statements).imp fun placed segments same tail =>
    ?_) none).bind fun _ => .pure ()
  have begins : Records (beginsBound placed) (Assembling.beginsBound segments) := by
    have forgotten : placed.map Prod.snd = segments :=
      List.forall₂_eq_eq_eq ▸ List.forall₂_map_left_iff.mpr same
    rw [beginsBound, forgotten]
    exact records_plain _
  exact begins.bind fun _ =>
    (records_chainWith (records_segment depth _) same _).bind fun _ => .pure _

end Journaling

namespace ComponentGraph

/-- Recording does not change what is assembled. -/
theorem assembleJournaled_eq (statements : List Statement) (assembled : Assembled) :
    assemble statements = .ok assembled
      ↔ ∃ journal, assembleJournaled statements = .ok (assembled, journal) := by
  have records := (Journaling.records_plain (Assembling.frameOf statements)).bind fun f =>
    Journaling.records_inFrame f
      (Journaling.records_topLevel (Statement.sizeAll statements + 1) statements)
  unfold assemble assembleJournaled
  dsimp only
  obtain ⟨_, _, failed, failed'⟩ | ⟨⟨⟩, ⟨s, journal⟩, _, ran, ran', rfl⟩ :=
    records (⟨.empty, [], []⟩, []) ⟨.empty, [], []⟩ rfl
  · rw [failed, failed']
    exact ⟨nofun, fun ⟨_, success⟩ => nomatch success⟩
  · rw [ran, ran']
    show (if s.components.size = 0 then _ else _) = _
      ↔ ∃ journal', (if s.components.size = 0 then _ else _) = _
    split
    · exact ⟨nofun, fun ⟨_, success⟩ => nomatch success⟩
    · constructor
      · rintro ⟨⟩
        exact ⟨journal, rfl⟩
      · rintro ⟨_, ⟨⟩⟩
        rfl

end ComponentGraph

end LayerNet
