import LayerNet.Proofs.Agreement
import LayerNet.Proofs.Architecture.Rearranging
import LayerNet.Proofs.Component.Frames
import LayerNet.Proofs.Component.Termination

/-!
# Rearranging — where definitions stand does not change what is assembled

Components are numbered as names are first referred to, wherever the definitions stand. So two
statement lists that differ in the places of definitions only, or in definitions that nothing refers
to, give the same components, edges and module exits (`assemble_rearranged`).

The two assemblies go side by side. Their states have the same components and, scope by scope, the
same bindings of the names that are not spare, up to values that match (`Assembly.Alike`). From such
states two computations agree (`Agrees`) when both fail or both give the same answer and such states
again. There is one lemma for each way to combine computations; for segments it is an induction on
the depth, one case for each form of a segment.
-/

namespace LayerNet

open Assembling

section

variable (spare : String → Prop)

/-- Two bindings are at the same stage: values that match, or the same ends. -/
inductive Binding.Alike : Binding → Binding → Prop
  | fresh {value value' : List Segment} : List.Forall₂ (Segment.Matches spare) value value' →
    Alike (.fresh value) (.fresh value')
  | pending : Alike .pending .pending
  | done (ends : Ends) : Alike (.done ends) (.done ends)

/-- Two frames bind the names that are not spare alike. -/
def Frame.Alike (f g : Frame) : Prop :=
  ∀ name, ¬ spare name → Option.Rel (Binding.Alike spare) (f.find? name) (g.find? name)

/-- Two states with the same components, in which the frames in scope are alike. -/
structure Assembly.Alike (s t : Assembly) : Prop where
  components : s.components = t.components
  frames : List.Forall₂ (Frame.Alike spare) s.frames t.frames

end

variable {spare : String → Prop}

/-! ## Frames -/

theorem Frame.Alike.put {f g : Frame} (alike : Frame.Alike spare f g) (name : String)
    {binding binding' : Binding} (same : Binding.Alike spare binding binding') :
    Frame.Alike spare (f.put name binding) (g.put name binding') := by
  intro other kept
  rw [Frame.find?_put, Frame.find?_put]
  split
  next here =>
    subst here
    have old := alike other kept
    revert old
    generalize f.find? other = x, g.find? other = y
    intro old
    cases old with
    | none => exact .none
    | some _ => exact .some same
  next => exact alike other kept

namespace Assembling

/-- Statement lists that match have frames that are alike. -/
theorem frames_alike {a b : List Statement} (same : Statement.Matches spare a b) :
    Frame.Alike spare ((definitions a).map fun d => (d.1, .fresh d.2))
      ((definitions b).map fun d => (d.1, .fresh d.2)) := by
  intro name kept
  rw [Frame.find?_fresh, Frame.find?_fresh]
  have values := same.values name kept
  revert values
  generalize (definitions a).lookup name = x, (definitions b).lookup name = y
  intro values
  cases values with
  | none => exact .none
  | some matching => exact .some (.fresh matching)

variable {α β : Type}

/-! ## Computations that agree -/

/-- From alike states two computations both fail, or give the same answer and alike states. -/
abbrev Agrees (spare : String → Prop) (x y : Assembling α) : Prop :=
  Agree (Assembly.Alike spare) x y

theorem agrees_fail (cause cause' : CompileError) :
    Agrees spare (fail cause : Assembling α) (fail cause') :=
  .error _ _

theorem agrees_modifyGraph (f : ComponentGraph → Except CompileError ComponentGraph) :
    Agrees spare (modifyGraph f) (modifyGraph f) := by
  refine .get_bind fun s t alike => ?_
  rw [← alike.components]
  split
  next components _ =>
    rintro s' t' ⟨-, frames⟩
    exact .inr ⟨(), _, _, rfl, rfl, rfl, alike.frames⟩
  next => exact agrees_fail _ _

theorem agrees_bind (name : String) {binding binding' : Binding}
    (same : Binding.Alike spare binding binding') :
    Agrees spare (bind name binding) (bind name binding') := by
  rintro ⟨c, frames, unused⟩ ⟨c', frames', unused'⟩ ⟨components, pairs⟩
  cases pairs with
  | nil => exact .inr ⟨(), _, _, rfl, rfl, components, .nil⟩
  | cons first others =>
    exact .inr ⟨(), _, _, rfl, rfl, components, .cons (first.put name same) others⟩

/-- Computations that agree do so in the scope of an outer frame. -/
theorem agrees_inOuter {x y : Assembling α} (depth : Nat) (agree : Agrees spare x y) :
    Agrees spare (inOuter depth x) (inOuter depth y) := by
  intro s t alike
  have unfolded (z : Assembling α) (s : Assembly) : (inOuter depth z).run s =
      z.run { s with frames := s.frames.drop depth } >>= fun p =>
        .ok (p.1, { p.2 with frames := s.frames.take depth ++ p.2.frames }) := rfl
  rw [unfolded, unfolded]
  obtain ⟨_, _, failed, failed'⟩ | ⟨a, s₁, t₁, ran, ran', alike₁⟩ :=
    agree { s with frames := s.frames.drop depth } { t with frames := t.frames.drop depth }
      ⟨alike.components, List.forall₂_drop depth alike.frames⟩
  · rw [failed, failed']
    exact .inl ⟨_, _, rfl, rfl⟩
  · rw [ran, ran']
    exact .inr ⟨a, _, _, rfl, rfl, alike₁.components,
      List.rel_append (List.forall₂_take depth alike.frames) alike₁.frames⟩

/-- Computations that agree do so in scopes of their own that are alike. -/
theorem agrees_inFrame {x y : Assembling α} {f g : Frame} (scopes : Frame.Alike spare f g)
    (agree : Agrees spare x y) : Agrees spare (inFrame f x) (inFrame g y) := by
  intro s t alike
  have unfolded (z : Assembling α) (f : Frame) (s : Assembly) : (inFrame f z).run s =
      z.run { s with frames := f :: s.frames } >>= fun p => .ok (p.1, { p.2 with
        frames := p.2.frames.tail
        unused := (p.2.frames.headD []).unused.reverse ++ p.2.unused }) := rfl
  rw [unfolded, unfolded]
  obtain ⟨_, _, failed, failed'⟩ | ⟨a, s₁, t₁, ran, ran', alike₁⟩ :=
    agree { s with frames := f :: s.frames } { t with frames := g :: t.frames }
      ⟨alike.components, .cons scopes alike.frames⟩
  · rw [failed, failed']
    exact .inl ⟨_, _, rfl, rfl⟩
  · rw [ran, ran']
    refine .inr ⟨a, _, _, rfl, rfl, alike₁.components, ?_⟩
    obtain ⟨c, frames, unused⟩ := s₁
    obtain ⟨c', frames', unused'⟩ := t₁
    cases alike₁.frames with
    | nil => exact .nil
    | cons _ others => exact others

/-! ## The computations of an assembly -/

/-- A name that is not spare resolves alike, in the same scope. -/
theorem resolve?_alike {name : String} (kept : ¬ spare name) {frames frames' : List Frame}
    (alike : List.Forall₂ (Frame.Alike spare) frames frames') :
    Option.Rel (fun p q : Nat × Binding => p.1 = q.1 ∧ Binding.Alike spare p.2 q.2)
      (resolve? name frames) (resolve? name frames') := by
  induction alike with
  | nil => exact .none
  | @cons f g _ _ first _ ih =>
    unfold resolve?
    have here := first name kept
    generalize f.find? name = x, g.find? name = y at here
    cases here with
    | some same => exact .some ⟨rfl, same⟩
    | none =>
      revert ih
      generalize resolve? name _ = x, resolve? name _ = y
      intro ih
      cases ih with
      | none => exact .none
      | some same => exact .some ⟨congrArg (· + 1) same.1, same.2⟩

theorem agrees_isBound {name : String} (kept : ¬ spare name) :
    Agrees spare (isBound name) (isBound name) := by
  refine .get_bind fun s t alike => ?_
  have same := resolve?_alike kept alike.frames
  generalize resolve? name s.frames = x, resolve? name t.frames = y at same
  cases same <;> exact .pure _

theorem agrees_leaf (token : String) (name : Option String) :
    Agrees spare (leaf token name) (leaf token name) := by
  unfold leaf
  split
  · exact agrees_fail _ _
  · refine .get_bind fun s t alike => ?_
    rw [← alike.components]
    exact (agrees_modifyGraph _).bind fun _ => .pure _

theorem agrees_connect (a b : Ends) : Agrees spare (connect a b) (connect a b) :=
  .forM _ fun _ => agrees_modifyGraph _

theorem agrees_closeModule (first : Nat) (chains : List Ends) :
    Agrees spare (closeModule first chains) (closeModule first chains) := by
  refine .get_bind fun s t alike => ?_
  rw [← alike.components]
  dsimp only
  split
  · exact (agrees_modifyGraph _).bind fun _ => .pure _
  · exact .pure _

section

variable {f g : Segment → Assembling Ends}

theorem agrees_chainWith {xs ys : List Segment}
    (each : List.Forall₂ (fun x y => Agrees spare (f x) (g y)) xs ys) (previous : Option Ends) :
    Agrees spare (chainWith f xs previous) (chainWith g ys previous) := by
  refine (Agree.foldlM (each.imp fun x y agree p => ?_) _).bind fun p => ?_
  · refine agree.bind fun ends => ?_
    obtain ⟨head, last⟩ := p
    cases last with
    | none => exact .pure _
    | some last => exact (agrees_connect last ends).bind fun _ => .pure _
  · obtain ⟨head, last⟩ := p
    cases head with
    | none => exact agrees_fail _ _
    | some head =>
      cases last with
      | none => exact agrees_fail _ _
      | some last => exact .pure _

variable (each : ∀ {x y : Segment}, Segment.Matches spare x y → Agrees spare (f x) (g y))

include each

theorem agrees_define (name : String) {value value' : List Segment}
    (same : List.Forall₂ (Segment.Matches spare) value value') :
    Agrees spare (define f name value) (define g name value') := by
  have chain : Agrees spare (chainWith f value none) (chainWith g value' none) :=
    agrees_chainWith (same.imp fun _ _ => each) none
  have finish (ends : Ends) : Agrees spare
      (do bind name (.done ends); Pure.pure ends)
      (do bind name (.done ends); Pure.pure ends) :=
    (agrees_bind name (.done ends)).bind fun _ => .pure _
  refine (agrees_bind name .pending).bind fun _ => ?_
  -- a value is a single token when the matching one is that token
  by_cases single : ∃ token, value = [.token token]
  · obtain ⟨token, rfl⟩ := single
    obtain ⟨y, rest, first, others, rfl⟩ := List.forall₂_cons_left_iff.mp same
    obtain rfl := List.forall₂_nil_left_iff.mp others
    obtain ⟨rfl, kept⟩ := first.token
    refine (agrees_isBound kept).bind fun bound => ?_
    cases bound with
    | true => exact chain.bind finish
    | false => exact (agrees_leaf token (some name)).bind finish
  · have single' : ¬ ∃ token, value' = [.token token] := by
      rintro ⟨token, rfl⟩
      obtain ⟨x, rest, first, others, rfl⟩ := List.forall₂_cons_right_iff.mp same
      obtain rfl := List.forall₂_nil_right_iff.mp others
      cases x with
      | module body => cases first.outline
      | token text => exact single ⟨text, rfl⟩
    dsimp only
    split
    · exact absurd ⟨_, rfl⟩ single
    · split
      · exact absurd ⟨_, rfl⟩ single'
      · exact chain.bind finish

theorem agrees_moduleWith {body body' : List Statement}
    (same : Statement.Matches spare body body') :
    Agrees spare (moduleWith f body) (moduleWith g body') := by
  have chainEnds : Agrees spare ((chains body).mapM fun segments => chainWith f segments none)
      ((chains body').mapM fun segments => chainWith g segments none) :=
    .mapM (same.chains.imp fun _ _ matching =>
      agrees_chainWith (matching.imp fun _ _ => each) none)
  unfold moduleWith
  rw [frameOf_eq same.nodup.1, frameOf_eq same.nodup.2, pure_bind, pure_bind]
  refine .get_bind fun s t alike => ?_
  have empty : (chains body).isEmpty = (chains body').isEmpty := by
    rw [Bool.eq_iff_iff, List.isEmpty_iff_length_eq_zero, List.isEmpty_iff_length_eq_zero,
      same.chains.length_eq]
  rw [← alike.components, ← empty]
  dsimp only
  split
  · exact agrees_fail _ _
  · exact (agrees_inFrame (frames_alike same) chainEnds).bind fun ends => agrees_closeModule _ ends

theorem agrees_topLevelWith {a b : List Statement} (same : Statement.Matches spare a b) :
    Agrees spare (topLevelWith f a) (topLevelWith g b) := by
  refine (Agree.foldlM (same.chains.imp fun xs ys matching tail => ?_) none).bind fun _ =>
    .pure ()
  have begins : Agrees spare (beginsBound xs) (beginsBound ys) := by
    cases matching with
    | nil => exact .pure false
    | @cons x y _ _ first _ =>
      cases x with
      | token text =>
        obtain ⟨rfl, kept⟩ := first.token
        exact agrees_isBound kept
      | module body =>
        obtain ⟨body', rfl, -⟩ := first.module
        exact .pure false
  exact begins.bind fun bound =>
    (agrees_chainWith (matching.imp fun _ _ => each) _).bind fun _ => .pure _

end

/-- Segments that match agree, down to any depth. -/
theorem agrees_segment (depth : Nat) {x y : Segment} (same : Segment.Matches spare x y) :
    Agrees spare (segment depth x) (segment depth y) := by
  induction depth generalizing x y with
  | zero => exact fun _ _ _ => .inl ⟨_, _, rfl, rfl⟩
  | succ depth ih =>
    rw [segment_succ]
    cases x with
    | module body =>
      obtain ⟨body', rfl, inside⟩ := same.module
      exact agrees_moduleWith ih inside
    | token text =>
      obtain ⟨rfl, kept⟩ := same.token
      refine .get_bind fun s t alike => ?_
      have found := resolve?_alike kept alike.frames
      revert found
      generalize resolve? text s.frames = p, resolve? text t.frames = q
      intro found
      cases found with
      | none => exact agrees_leaf text none
      | @some p q both =>
        obtain ⟨outer, binding⟩ := p
        obtain ⟨outer', binding'⟩ := q
        obtain ⟨rfl, stage⟩ := both
        cases stage with
        | done ends => exact .pure ends
        | pending => exact agrees_fail _ _
        | fresh values => exact agrees_inOuter outer (agrees_define ih text values)

end Assembling

namespace ComponentGraph

/-- Statement lists that match assemble to the same components, or both to none. -/
theorem assembleWith_alike {a b : List Statement} (same : Statement.Matches spare a b)
    (depth : Nat) (components : ComponentGraph) :
    (∃ unused, assembleWith (segment depth) a = .ok ⟨components, unused⟩)
      ↔ ∃ unused, assembleWith (segment depth) b = .ok ⟨components, unused⟩ := by
  let start : Assembly := ⟨.empty, [], []⟩
  have agree := (agrees_inFrame (frames_alike same)
    (agrees_topLevelWith (agrees_segment depth) same)) start start ⟨rfl, .nil⟩
  have unfolded {statements : List Statement} (nodup : (names statements).Nodup) :
      assembleWith (segment depth) statements
        = (inFrame ((definitions statements).map fun d => (d.1, Binding.fresh d.2))
            (topLevelWith (segment depth) statements)).run start >>= fun p =>
          if p.2.components.size = 0 then Outcome.fail .noLayers
          else return ⟨p.2.components, p.2.unused.reverse⟩ := by
    unfold assembleWith
    rw [frameOf_eq nodup, pure_bind]
  have final (s : Assembly) : (∃ unused, (if s.components.size = 0 then Outcome.fail .noLayers
        else return ⟨s.components, s.unused.reverse⟩ : Outcome CompileError Assembled)
          = .ok ⟨components, unused⟩)
      ↔ s.components.size ≠ 0 ∧ s.components = components := by
    split
    next empty =>
      constructor
      · rintro ⟨_, ⟨⟩⟩
      · rintro ⟨full, -⟩
        exact absurd empty full
    next full =>
      constructor
      · rintro ⟨_, ⟨⟩⟩
        exact ⟨full, rfl⟩
      · rintro ⟨-, rfl⟩
        exact ⟨_, rfl⟩
  rw [unfolded same.nodup.1, unfolded same.nodup.2]
  obtain ⟨_, _, failed, failed'⟩ | ⟨⟨⟩, s, t, ran, ran', alike⟩ := agree
  · rw [failed, failed']
    constructor
    · rintro ⟨_, ⟨⟩⟩
    · rintro ⟨_, ⟨⟩⟩
  · rw [ran, ran']
    refine (final s).trans ?_
    rw [alike.components]
    exact (final t).symm

/-- Definitions that stand elsewhere, or that nothing refers to, do not change what is assembled. Of
two lists in which no scope defines a name twice, and which differ in the places of definitions, or
in definitions whose names are not tokens of either, one is assembled when the other is, and then
both give the same components, with the same edges and module exits. -/
theorem assemble_rearranged {a b : List Statement}
    (rearranged : Rearranged
      (fun name => name ∉ Statement.tokensAll a ∧ name ∉ Statement.tokensAll b) a b)
    (once : DefinesOnce a) (once' : DefinesOnce b) (components : ComponentGraph) :
    (∃ unused, assemble a = .ok ⟨components, unused⟩)
      ↔ ∃ unused, assemble b = .ok ⟨components, unused⟩ := by
  obtain ⟨sameChains, sameValues⟩ := rearranged.outline_eq
  have same := Statement.matches_of_outline sameChains sameValues
    (fun text member spare => member.elim spare.1 spare.2) once once'
  -- both are assembled with one bound on the depth, which is enough for either
  rw [assemble_eq_assembleWith (Nat.le_max_left (Statement.sizeAll a) (Statement.sizeAll b)),
    assemble_eq_assembleWith (Nat.le_max_right (Statement.sizeAll a) (Statement.sizeAll b))]
  exact assembleWith_alike same _ components

/-- Two layers side by side, one of them named where it stands, between two layers of which the
first is named. In the second list both definitions stand after the chains, and a third is new. -/
theorem assemble_rearranged_nested :
    let inside (x y : Statement) : Statement :=
      .chain [.token "A", .module [x, y, .chain [.token "5N"]], .token "4N"]
    let definition : Statement := .define "B" [.token "2N"]
    let reference : Statement := .chain [.token "B"]
    let a : List Statement := [.define "A" [.token "3N"], inside definition reference]
    let b : List Statement :=
      [inside reference definition, .define "A" [.token "3N"], .define "C" [.token "D"]]
    Rearranged (fun name => name ∉ Statement.tokensAll a ∧ name ∉ Statement.tokensAll b) a b
      ∧ DefinesOnce a ∧ DefinesOnce b
      ∧ ∃ components, components.size = 4
        ∧ (∃ unused, assemble a = .ok ⟨components, unused⟩)
        ∧ ∃ unused, assemble b = .ok ⟨components, unused⟩ := by
  intro inside definition reference a b
  have rearranged :
      Rearranged (fun name => name ∉ Statement.tokensAll a ∧ name ∉ Statement.tokensAll b) a b := by
    refine .trans (.behind _ (.inChain [.token "A"] [.token "4N"] [] (.move _ _ nofun))) ?_
    refine .trans (.behind _ (.behind _ (@Rearranged.add _ "C" [.token "D"] [] ?_))) ?_
    · decide
    · exact .move _ _ nofun
  have once : DefinesOnce a := by
    refine ⟨by decide, ⟨trivial, trivial⟩, ⟨trivial, ⟨by decide, ?_⟩, trivial, trivial⟩, trivial⟩
    exact ⟨⟨trivial, trivial⟩, ⟨trivial, trivial⟩, ⟨trivial, trivial⟩, trivial⟩
  have once' : DefinesOnce b := by
    refine ⟨by decide, ⟨trivial, ⟨by decide, ?_⟩, trivial, trivial⟩, ⟨trivial, trivial⟩,
      ⟨trivial, trivial⟩, trivial⟩
    exact ⟨⟨trivial, trivial⟩, ⟨trivial, trivial⟩, ⟨trivial, trivial⟩, trivial⟩
  have assembles :
      (assemble a).toOption.any (fun assembled => assembled.components.size == 4) = true := by
    decide +kernel
  obtain ⟨⟨components, unused⟩, success, four⟩ := except_exists_of_any assembles
  have success' := (assemble_rearranged rearranged once once' components).mp ⟨unused, success⟩
  exact ⟨rearranged, once, once', components, of_decide_eq_true four, ⟨unused, success⟩, success'⟩

end ComponentGraph

end LayerNet
