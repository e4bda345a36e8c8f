import LayerNet.Proofs.Component.Closing
import LayerNet.Proofs.Component.Joining
import Mathlib.Logic.Relation

/-!
# Nesting — which modules are instantiated inside others

A visit is a segment that is instantiated from a state (`Visit`). Instantiating the top level visits
the segments of its chains, instantiating a module those of its chains, and the first reference to a
definition those of its value (`Visit.Starts`, `Visit.Enters`). So a module lies inside another one
when visits lead from the other to it.

Exits are recorded when a module ends, in front of those recorded before, so a module has recorded
its exits before those that it lies in do (`Visit.gives_of_transGen`), and normalization, which
begins in front, closes the outer ones first. Hence open modules are closed once
(`modules_closed_once`).
-/

namespace LayerNet

open Assembling Relation

/-- A segment that is instantiated from a state, down to a depth. -/
structure Visit where
  depth : Nat
  segment : Segment
  state : Assembly

namespace Visit

/-- What the instantiation gives, and the state that it leads to. -/
def Gives (v : Visit) (ends : Ends) (s : Assembly) : Prop :=
  (Assembling.segment v.depth v.segment).run v.state = .ok (ends, s)

/-- The segment is a module. -/
def IsModule (v : Visit) : Prop := ∃ body, v.segment = .module body

/-- A chain leads from one state to another with the first of its segments. -/
def Passes (depth : Nat) (previous : Option Ends) (before : List Segment) (s s' : Assembly) : Prop :=
  before = [] ∧ s' = s
    ∨ ∃ ends, (chainWith (Assembling.segment depth) before previous).run s = .ok (ends, s')

/-- Instantiating one segment instantiates another. -/
inductive Enters : Visit → Visit → Prop
  /-- The other is a segment of a chain of a module. -/
  | chain {depth : Nat} {body : List Statement} {f : Frame} {s s₁ s₂ : Assembly}
    {earlier later : List (List Segment)} {before after : List Segment} {x : Segment}
    {ends : List Ends} : (frameOf body).run s = .ok (f, s) →
    chains body = earlier ++ (before ++ x :: after) :: later →
    (earlier.mapM fun segments => chainWith (Assembling.segment depth) segments none).run
      { s with frames := f :: s.frames } = .ok (ends, s₁) →
    Passes depth none before s₁ s₂ → Enters ⟨depth + 1, .module body, s⟩ ⟨depth, x, s₂⟩
  /-- The other is a segment of the value of a definition that is referred to for the first time. A
  value that is a single token without a definition becomes a component at once. -/
  | value {depth outer : Nat} {text : String} {s s₁ s₂ : Assembly} {before after : List Segment}
    {x : Segment} : resolve? text s.frames = some (outer, .fresh (before ++ x :: after)) →
    (bind text .pending).run { s with frames := s.frames.drop outer } = .ok ((), s₁) →
    (∀ token, before ++ x :: after = [.token token] → (resolve? token s₁.frames).isSome) →
    Passes depth none before s₁ s₂ → Enters ⟨depth + 1, .token text, s⟩ ⟨depth, x, s₂⟩

/-- Instantiating the top level of statements instantiates a segment. -/
inductive Starts (statements : List Statement) : Visit → Prop
  | chain {f : Frame} {s₁ s₂ : Assembly} {earlier later : List (List Segment)}
    {before after : List Segment} {x : Segment} {tail : Option Ends} {bound : Bool} :
    (frameOf statements).run ⟨.empty, [], []⟩ = .ok (f, ⟨.empty, [], []⟩) →
    chains statements = earlier ++ (before ++ x :: after) :: later →
    (earlier.foldlM (continueWith (Assembling.segment (Statement.sizeAll statements + 1))) none).run
      ⟨.empty, [f], []⟩ = .ok (tail, s₁) →
    (beginsBound (before ++ x :: after)).run s₁ = .ok (bound, s₁) →
    Passes (Statement.sizeAll statements + 1) (if bound then none else tail) before s₁ s₂ →
    Starts statements ⟨Statement.sizeAll statements + 1, x, s₂⟩

/-- A segment that is instantiated when statements are assembled. -/
def Visited (statements : List Statement) (v : Visit) : Prop :=
  ∃ start, Starts statements start ∧ ReflTransGen Enters start v

/-- The module lies inside the segment. -/
abbrev Inside (inner outer : Visit) : Prop := TransGen Enters outer inner

end Visit

namespace Assembling

/-! ## What is instantiated on the way -/

section

variable {f : Segment → Assembling Ends} (each : ∀ x, Advances (f x))
include each

theorem advances_follow (last : Ends) (x : Segment) : Advances (follow f last x) :=
  (each x).bind fun ends => (advances_connect last ends).bind fun _ => .pure ends

/-- A segment of a chain is instantiated where the segments before it lead, and what comes after
leaves in place what it finds. -/
theorem exists_run_of_chain {before after : List Segment} {x : Segment} {previous : Option Ends}
    {s s₁ s' : Assembly} {ends : Ends}
    (run : (chainWith f (before ++ x :: after) previous).run s = .ok (ends, s'))
    (passes : before = [] ∧ s₁ = s
      ∨ ∃ ends, (chainWith f before previous).run s = .ok (ends, s₁)) :
    ∃ own s₂, (f x).run s₁ = .ok (own, s₂) ∧ s₂.Grows s' := by
  cases before with
  | nil =>
    obtain rfl : s₁ = s := by
      rcases passes with ⟨-, same⟩ | ⟨_, empty⟩
      · exact same
      · cases empty
    rw [List.nil_append, chainWith_cons] at run
    obtain ⟨own, s₂, ran, run⟩ := Outcome.run_bind_eq_ok.mp run
    refine ⟨own, s₂, ran, ?_⟩
    have onward : Advances (do
        connectFrom previous own
        let last ← after.foldlM (follow f) own
        return (⟨own.sources, last.sinks⟩ : Ends)) := by
      have linked : Advances (connectFrom previous own) := by
        cases previous with
        | none => exact .pure ()
        | some last => exact advances_connect last own
      refine linked.bind fun _ => (Advances.foldlM _ (fun last y _ => ?_) own).bind fun _ => .pure _
      exact advances_follow each last y
    exact onward s₂ ends s' run
  | cons y before =>
    obtain ⟨first, ran⟩ : ∃ ends, (chainWith f (y :: before) previous).run s = .ok (ends, s₁) := by
      rcases passes with ⟨empty, -⟩ | ran
      · cases empty
      · exact ran
    rw [chainWith_append] at run
    have run := Advances.run_rest run ran
    rw [List.foldlM_cons, follow] at run
    simp only [bind_assoc] at run
    obtain ⟨own, s₂, ran, run⟩ := Outcome.run_bind_eq_ok.mp run
    refine ⟨own, s₂, ran, ?_⟩
    refine Advances.bind (advances_connect first own) (fun _ => ?_) s₂ ends s' run
    refine Advances.bind (.pure own) fun _ => ?_
    exact (Advances.foldlM _ (fun last y _ => advances_follow each last y) _).bind fun _ => .pure _

theorem advances_continueWith (tail : Option Ends) (segments : List Segment) :
    Advances (continueWith f tail segments) :=
  (advances_beginsBound segments).bind fun _ =>
    (advances_chainWith each segments _).bind fun _ => .pure _

end

/-- The same in the middle of several chains. -/
theorem exists_run_of_mapM {g : List Segment → Assembling Ends} (chained : ∀ c, Advances (g c))
    {earlier later : List (List Segment)} {chain : List Segment} {s s₁ s' : Assembly}
    {all ends : List Ends} (run : ((earlier ++ chain :: later).mapM g).run s = .ok (all, s'))
    (first : (earlier.mapM g).run s = .ok (ends, s₁)) :
    ∃ own s₂, (g chain).run s₁ = .ok (own, s₂) ∧ s₂.Grows s' := by
  rw [List.mapM_append, List.mapM_cons] at run
  have run := Advances.run_rest run first
  simp only [bind_assoc] at run
  obtain ⟨own, s₂, ran, run⟩ := Outcome.run_bind_eq_ok.mp run
  refine ⟨own, s₂, ran, ?_⟩
  refine Advances.bind (.mapM later fun c _ => chained c) (fun _ => ?_) s₂ all s' run
  exact (Advances.pure _).bind fun _ => .pure _

/-- A module records its exits when it is closed, if it has several. -/
theorem exits_of_closeModule {first : Nat} {chains : List Ends} {s s' : Assembly} {ends : Ends}
    (run : (closeModule first chains).run s = .ok (ends, s')) :
    s'.components.exits = if 1 < ends.sinks.length then ends.sinks :: s.components.exits
      else s.components.exits := by
  unfold closeModule at run
  obtain ⟨_, _, looked, run⟩ := Outcome.run_bind_eq_ok.mp run
  cases looked
  dsimp only at run
  split at run
  next several =>
    cases run
    rw [if_pos several]
  next few =>
    cases run
    rw [if_neg few]

/-- What an instantiated module went through: its frame, its chains and its closing. -/
theorem of_moduleWith {f : Segment → Assembling Ends} {body : List Statement} {s s' : Assembly}
    {ends : Ends} (run : (moduleWith f body).run s = .ok (ends, s')) :
    ∃ frame chainEnds s₁, (frameOf body).run s = .ok (frame, s)
      ∧ ((chains body).mapM fun segments => chainWith f segments none).run
        { s with frames := frame :: s.frames } = .ok (chainEnds, s₁)
      ∧ s'.components.exits = if 1 < ends.sinks.length then ends.sinks :: s₁.components.exits
        else s₁.components.exits := by
  unfold moduleWith at run
  obtain ⟨frame, s₀, framed, rest⟩ := Outcome.run_bind_eq_ok.mp run
  obtain ⟨-, -, rfl⟩ := frameOf_eq_ok_iff.mp framed
  obtain ⟨_, _, looked, rest⟩ := Outcome.run_bind_eq_ok.mp rest
  cases looked
  dsimp only at rest
  split at rest
  · cases rest
  · obtain ⟨chainEnds, s₂, inside, closed⟩ := Outcome.run_bind_eq_ok.mp rest
    obtain ⟨s₁, ran, components, -⟩ := run_inFrame inside
    refine ⟨frame, chainEnds, s₁, framed, ran, ?_⟩
    rw [exits_of_closeModule closed, components]

end Assembling

namespace Visit

variable {v w : Visit}

theorem Passes.exits {depth : Nat} {previous : Option Ends} {before : List Segment}
    {s s' : Assembly} (passes : Passes depth previous before s s') :
    s.components.exits <:+ s'.components.exits := by
  rcases passes with ⟨-, rfl⟩ | ⟨ends, ran⟩
  · exact List.suffix_refl _
  · exact (advances_chainWith (advances_segment depth) _ _ _ _ _ ran).exits

/-- A module with several exits has recorded them when it ends. -/
theorem IsModule.recorded (isModule : v.IsModule) {ends : Ends} {s : Assembly}
    (gives : v.Gives ends s) (several : 1 < ends.sinks.length) :
    ∃ earlier, s.components.exits = ends.sinks :: earlier := by
  obtain ⟨depth, segment, state⟩ := v
  obtain ⟨body, rfl⟩ := isModule
  cases depth with
  | zero => cases gives
  | succ depth =>
    obtain ⟨_, _, _, _, _, exits⟩ := of_moduleWith gives
    rw [if_pos several] at exits
    exact ⟨_, exits⟩

/-- What is visited inside a segment gives ends when the segment does, and has recorded its exits
when the segment has. Before a module records its own, if it has several. -/
theorem Enters.gives (enters : Enters v w) {ends : Ends} {s : Assembly} (gives : v.Gives ends s) :
    ∃ inner t, w.Gives inner t ∧ t.components.exits <:+ s.components.exits
      ∧ (v.IsModule → 1 < ends.sinks.length → ∃ earlier, s.components.exits = ends.sinks :: earlier
        ∧ t.components.exits <:+ earlier) := by
  cases enters with
  | @chain depth body f s₀ s₁ s₂ earlier later before after x chainEnds framed split first passes =>
    obtain ⟨f', all, s₃, framed', ran, recorded⟩ := of_moduleWith gives
    obtain rfl : f = f' := by
      rw [framed] at framed'
      cases framed'
      rfl
    rw [split] at ran
    have advances := advances_segment depth
    obtain ⟨own, s₄, chained, grows⟩ := exists_run_of_mapM
      (fun c => advances_chainWith advances c none) ran first
    obtain ⟨inner, t, ran, grows'⟩ := exists_run_of_chain advances chained passes
    have within := grows'.exits.trans grows.exits
    refine ⟨inner, t, ran, ?_, fun _ several => ⟨_, ?_, within⟩⟩
    · rw [recorded]
      split
      · exact within.trans (List.suffix_cons _ _)
      · exact within
    · rw [recorded, if_pos several]
  | @value depth outer text s₀ s₁ s₂ before after x found pending named passes =>
    have whole : (inOuter outer
        (define (Assembling.segment depth) text (before ++ x :: after))).run s₀ = .ok (ends, s) := by
      obtain ⟨_, _, looked, rest⟩ := Outcome.run_bind_eq_ok.mp
        (show (get >>= _ : Assembling Ends).run s₀ = .ok (ends, s) from gives)
      cases looked
      rw [found] at rest
      exact rest
    obtain ⟨s₃, inside, rfl⟩ := run_inOuter whole
    unfold define at inside
    have rest := Advances.run_rest inside pending
    have advances := advances_segment depth
    obtain ⟨chained, s₄, ran, grows⟩ : ∃ chained s₄,
        (chainWith (Assembling.segment depth) (before ++ x :: after) none).run s₁
          = .ok (chained, s₄) ∧ s₄.Grows s₃ := by
      generalize before ++ x :: after = value at rest named ⊢
      have finish (own : Ends) : Advances (do bind text (.done own); return own) :=
        (Advances.bindName text (.done own)).bind fun _ => .pure own
      dsimp only at rest
      split at rest
      next token =>
        have bound : (isBound token).run s₁ = .ok (true, s₁) := by
          rw [← named token rfl]
          rfl
        have rest := Advances.run_rest rest bound
        rw [if_pos rfl] at rest
        obtain ⟨own, s₄, ran, rest⟩ := Outcome.run_bind_eq_ok.mp rest
        exact ⟨own, s₄, ran, finish own s₄ ends s₃ rest⟩
      next =>
        obtain ⟨own, s₄, ran, rest⟩ := Outcome.run_bind_eq_ok.mp rest
        exact ⟨own, s₄, ran, finish own s₄ ends s₃ rest⟩
    obtain ⟨inner, t, ran, grows'⟩ := exists_run_of_chain advances ran passes
    refine ⟨inner, t, ran, grows'.exits.trans grows.exits, ?_⟩
    rintro ⟨body, same⟩
    cases same

/-- So is what is visited further inside. -/
theorem gives_of_transGen (path : TransGen Enters v w) (isModule : v.IsModule) {ends : Ends}
    {s : Assembly} (gives : v.Gives ends s) :
    ∃ inner t, w.Gives inner t ∧ (1 < ends.sinks.length →
      ∃ earlier, s.components.exits = ends.sinks :: earlier ∧ t.components.exits <:+ earlier) := by
  induction path with
  | single enters =>
    obtain ⟨inner, t, given, -, recorded⟩ := enters.gives gives
    exact ⟨inner, t, given, recorded isModule⟩
  | tail _ enters ih =>
    obtain ⟨middle, u, given, recorded⟩ := ih
    obtain ⟨inner, t, given', within, -⟩ := enters.gives given
    refine ⟨inner, t, given', fun several => ?_⟩
    obtain ⟨earlier, same, before⟩ := recorded several
    exact ⟨earlier, same, within.trans before⟩

/-- What is visited at the top level gives ends when the statements are assembled. -/
theorem Starts.gives {statements : List Statement} (starts : Starts statements v)
    {assembled : Assembled} (success : ComponentGraph.assemble statements = .ok assembled) :
    ∃ ends t, v.Gives ends t ∧ t.components.exits <:+ assembled.components.exits := by
  cases starts with
  | @chain f s₁ s₂ earlier later before after x tail bound framed split first begins passes =>
    obtain ⟨⟨⟨⟩, s⟩, run, finished⟩ := Outcome.bind_eq_ok_iff.mp success
    have kept : assembled.components = s.components := by
      dsimp only at finished
      split at finished
      · cases finished
      · cases finished
        rfl
    have inside := Advances.run_rest run framed
    obtain ⟨s₃, ran, components, -⟩ := run_inFrame inside
    have advances := advances_segment (Statement.sizeAll statements + 1)
    have ran : (do
        let _ ← (chains statements).foldlM
          (continueWith (Assembling.segment (Statement.sizeAll statements + 1))) none
        return () : Assembling Unit).run ⟨.empty, [f], []⟩ = .ok ((), s₃) := ran
    rw [split, List.foldlM_append, bind_assoc] at ran
    have ran := Advances.run_rest ran first
    rw [List.foldlM_cons, continueWith] at ran
    simp only [bind_assoc] at ran
    have ran := Advances.run_rest ran begins
    obtain ⟨chained, s₄, ran, rest⟩ := Outcome.run_bind_eq_ok.mp ran
    obtain ⟨ends, t, given, grows⟩ := exists_run_of_chain advances ran passes
    have onward : Advances (do
        let next ← pure (some chained)
        let _ ← later.foldlM
          (continueWith (Assembling.segment (Statement.sizeAll statements + 1))) next
        return () : Assembling Unit) :=
      (Advances.pure _).bind fun next => (Advances.foldlM _ (fun tail segments _ =>
        advances_continueWith advances tail segments) next).bind fun _ => .pure ()
    have grows' := onward s₄ () s₃ rest
    refine ⟨ends, t, given, ?_⟩
    rw [kept, components]
    exact grows.exits.trans grows'.exits

/-- What is visited when statements are assembled gives ends, and the exits recorded by then are
recorded in the end. -/
theorem Visited.gives {statements : List Statement} (visited : Visited statements v)
    {assembled : Assembled} (success : ComponentGraph.assemble statements = .ok assembled) :
    ∃ ends t, v.Gives ends t ∧ t.components.exits <:+ assembled.components.exits := by
  obtain ⟨start, starts, path⟩ := visited
  induction path with
  | refl => exact starts.gives success
  | tail _ enters ih =>
    obtain ⟨ends, t, given, within⟩ := ih
    obtain ⟨inner, u, given', within', -⟩ := enters.gives given
    exact ⟨inner, u, given', within'.trans within⟩

end Visit

namespace ComponentGraph

/-- Open modules are closed once. Let statements assemble and normalize. Of every recorded set of
exits, at most one is followed by nothing in the normal form. Every module that is instantiated on
the way records its exits, if it has several. Any module inside it whose several exits are all
exits of the outer one gets no concatenation of its own; and if the outer one gets one, the exits of
the inner one that were open then lead to this concatenation and to nothing else. -/
theorem modules_closed_once {statements : List Statement} {assembled : Assembled}
    (success : assemble statements = .ok assembled) {normal : ComponentGraph}
    (done : assembled.components.normalize = .ok normal) :
    (∀ exits ∈ assembled.components.exits, ∀ u ∈ exits, ∀ v ∈ exits,
      normal.IsOpen u → normal.IsOpen v → u = v)
    ∧ ∀ outer : Visit, outer.Visited statements → outer.IsModule →
      ∃ ends s, outer.Gives ends s ∧ (1 < ends.sinks.length →
        ends.sinks ∈ assembled.components.exits
        ∧ ∀ inner : Visit, inner.Inside outer → inner.IsModule →
          ∃ ends' t, inner.Gives ends' t ∧ (1 < ends'.sinks.length → ends'.sinks ⊆ ends.sinks →
            ¬ assembled.components.GetsConcat t.components.exits
            ∧ (assembled.components.GetsConcat s.components.exits →
              ∃ concat key, assembled.components.closeModules.graph.label? concat
                  = some ⟨key, .concat⟩
                ∧ ∀ v ∈ ends'.sinks, (assembled.components.turn s.components.exits).IsOpen v →
                  ∀ w, assembled.components.closeModules.graph.Adj v w ↔ w = concat))) := by
  have wf := (assemble_wellFormed success).1
  constructor
  · intro exits recorded u first v second open_u open_v
    exact open_unique_closeModules recorded first second (open_u.of_normalize wf done)
      (open_v.of_normalize wf done)
  intro outer visited isModule
  obtain ⟨ends, s, gives, within⟩ := visited.gives success
  refine ⟨ends, s, gives, fun several => ?_⟩
  obtain ⟨earlier, exits⟩ := isModule.recorded gives several
  rw [exits] at within ⊢
  refine ⟨within.subset List.mem_cons_self, fun inner inside isModule' => ?_⟩
  obtain ⟨ends', t, gives', before⟩ := Visit.gives_of_transGen inside isModule gives
  refine ⟨ends', t, gives', fun several' subset => ?_⟩
  -- the inner module recorded its exits before the outer one did
  obtain ⟨earlier', exits'⟩ := isModule'.recorded gives' several'
  obtain ⟨_, same, before⟩ := before several
  obtain ⟨-, rfl⟩ := List.cons.inj (exits.symm.trans same)
  rw [exits'] at before ⊢
  have recorded : ends'.sinks ∈ assembled.components.exits :=
    within.subset (List.mem_cons_of_mem _ (before.subset List.mem_cons_self))
  refine ⟨not_getsConcat within before subset (wf.exits _ recorded).1, fun gets => ?_⟩
  obtain ⟨key, label⟩ := label?_closeModules_of_getsConcat within gets
  refine ⟨_, key, label, fun v member open_v w => ?_⟩
  exact adj_closeModules_of_getsConcat within gets (mem_openAmong.mpr ⟨subset member, open_v⟩) w

/-- A module left open inside another one: both have several exits, the outer one gets a
concatenation and the inner one none. -/
theorem modules_closed_once_nested :
    let inside : List Statement := [.chain [.token "5N"], .chain [.token "6N"]]
    let around : List Statement := [.chain [.token "4N"], .chain [.module inside]]
    let statements : List Statement := [.chain [.token "3N", .module around]]
    ∃ (assembled : Assembled) (outer inner : Visit) (ends ends' : Ends) (s t : Assembly),
      assemble statements = .ok assembled
      ∧ outer.Visited statements ∧ outer.IsModule ∧ inner.Inside outer ∧ inner.IsModule
      ∧ outer.Gives ends s ∧ ends.sinks = [1, 2, 3] ∧ inner.Gives ends' t ∧ ends'.sinks = [2, 3]
      ∧ assembled.components.GetsConcat s.components.exits
      ∧ ¬ assembled.components.GetsConcat t.components.exits := by
  intro inside around statements
  let depth := Statement.sizeAll statements
  have evaluates : (assemble statements).toOption.any (fun assembled =>
      assembled.components.normalize.toOption.isSome
      && ((chainWith (segment (depth + 1)) [.token "3N"] none).run ⟨.empty, [[]], []⟩).toOption.any
        fun first =>
          ((segment (depth + 1) (.module around)).run first.2).toOption.any (fun whole =>
            whole.1.sinks == [1, 2, 3]
            && decide (assembled.components.GetsConcat whole.2.components.exits))
          && (([[.token "4N"]].mapM fun segments => chainWith (segment depth) segments none).run
            { first.2 with frames := [] :: first.2.frames }).toOption.any fun second =>
              ((segment depth (.module inside)).run second.2).toOption.any fun part =>
                part.1.sinks == [2, 3]) = true := by
    decide +kernel
  obtain ⟨assembled, success, evaluates⟩ := except_exists_of_any evaluates
  obtain ⟨normalizes, evaluates⟩ := Bool.and_eq_true _ _ ▸ evaluates
  obtain ⟨⟨head, s₁⟩, began, evaluates⟩ := except_exists_of_any evaluates
  obtain ⟨outside, within⟩ := Bool.and_eq_true _ _ ▸ evaluates
  obtain ⟨⟨ends, s⟩, gives, outside⟩ := except_exists_of_any outside
  obtain ⟨sinks, gets⟩ := Bool.and_eq_true _ _ ▸ outside
  obtain ⟨⟨earlier, s₂⟩, before, within⟩ := except_exists_of_any within
  obtain ⟨⟨ends', t⟩, gives', sinks'⟩ := except_exists_of_any within
  let outer : Visit := ⟨depth + 1, .module around, s₁⟩
  let inner : Visit := ⟨depth, .module inside, s₂⟩
  have starts : Visit.Starts statements outer :=
    @Visit.Starts.chain statements [] ⟨.empty, [[]], []⟩ s₁ [] [] [.token "3N"] [] (.module around)
      none false rfl rfl rfl rfl (.inr ⟨head, began⟩)
  have visited : outer.Visited statements := ⟨outer, starts, .refl⟩
  have enters : Visit.Enters outer inner :=
    @Visit.Enters.chain depth around [] s₁ s₂ s₂ [[.token "4N"]] [] [] [] (.module inside) earlier
      rfl rfl before (.inl ⟨rfl, rfl⟩)
  have lies : inner.Inside outer := .single enters
  obtain ⟨normal, done⟩ : ∃ normal, assembled.components.normalize = .ok normal := by
    cases normalized : assembled.components.normalize with
    | error failure =>
      rw [normalized] at normalizes
      cases normalizes
    | ok normal => exact ⟨normal, rfl⟩
  obtain ⟨ends₁, s', given, closed⟩ :=
    (modules_closed_once success done).2 outer visited ⟨around, rfl⟩
  obtain ⟨rfl, rfl⟩ : ends = ends₁ ∧ s = s' := by
    rw [Visit.Gives, gives] at given
    cases given
    exact ⟨rfl, rfl⟩
  have sinks : ends.sinks = [1, 2, 3] := eq_of_beq sinks
  obtain ⟨-, closed⟩ := closed (by rw [sinks]; decide)
  obtain ⟨ends₂, t', given', closed⟩ := closed inner lies ⟨inside, rfl⟩
  obtain ⟨rfl, rfl⟩ : ends' = ends₂ ∧ t = t' := by
    rw [Visit.Gives, gives'] at given'
    cases given'
    exact ⟨rfl, rfl⟩
  have sinks' : ends'.sinks = [2, 3] := eq_of_beq sinks'
  obtain ⟨never, -⟩ := closed (by rw [sinks']; decide) (by rw [sinks, sinks']; decide)
  exact ⟨assembled, outer, inner, ends, ends', s, t, success, visited, ⟨around, rfl⟩, lies,
    ⟨inside, rfl⟩, gives, sinks, gives', sinks', of_decide_eq_true gets, never⟩

end ComponentGraph

end LayerNet
