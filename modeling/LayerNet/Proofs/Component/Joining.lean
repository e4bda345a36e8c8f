import LayerNet.Proofs.Architecture.Reading
import LayerNet.Proofs.Architecture.Rearranging
import LayerNet.Proofs.Component.Progress
import LayerNet.Proofs.Component.Termination

/-!
# Joining — at the top level a comma continues like a tilde

A chain of the top level that begins with a segment without a name continues the chain before it. So
the chains of a statement list can be written as one, if all but the first begin so
(`assemble_joinChains`).

Both ways carry on from the piece at the end of what has been chained (`follow`). The one hands it
from segment to segment, the other also from chain to chain, where it comes with the entries of the
chain; but a link looks at its exits only.
-/

namespace LayerNet

open Assembling

/-! ## Joined chains -/

/-- The statements with all their chains joined to one, in the place of the first. -/
def joinChains : List Statement → List Statement
  | [] => []
  | .define name value :: rest => .define name value :: joinChains rest
  | .chain segments :: rest =>
    .chain (segments ++ (chains rest).flatten)
      :: rest.filter fun statement => statement.definition?.isSome

/-- A chain begins with a module, or with a token that is none of the names. -/
def BeginsUnnamed (names : List String) : List Segment → Prop
  | [] => False
  | .token text :: _ => text ∉ names
  | .module _ :: _ => True

theorem definitions_joinChains (statements : List Statement) :
    definitions (joinChains statements) = definitions statements := by
  induction statements with
  | nil => rfl
  | cons statement rest ih =>
    cases statement with
    | define name value => exact congrArg ((name, value) :: ·) ih
    | chain segments =>
      show List.filterMap _ (List.filter _ rest) = List.filterMap _ rest
      rw [List.filterMap_filter]
      refine List.filterMap_congr fun statement _ => ?_
      cases statement <;> rfl

/-- Joined chains are one chain, if there is any. -/
theorem chains_joinChains (statements : List Statement) :
    chains (joinChains statements) = match chains statements with
      | [] => []
      | segments :: rest => [segments ++ rest.flatten] := by
  induction statements with
  | nil => rfl
  | cons statement rest ih =>
    cases statement with
    | define name value => exact ih
    | chain segments =>
      have none : chains (rest.filter fun statement => statement.definition?.isSome) = [] := by
        refine List.filterMap_eq_nil_iff.mpr fun statement member => ?_
        obtain ⟨-, defines⟩ := List.mem_filter.mp member
        cases statement with
        | define name value => rfl
        | chain other => cases defines
      exact congrArg ((segments ++ (chains rest).flatten) :: ·) none

/-- The reader gives no chain without segments. -/
theorem nil_not_mem_chains {text : String} {statements : List Statement}
    (read : readArchitecture text = .ok statements) : [] ∉ chains statements := by
  intro empty
  obtain ⟨statement, member, is⟩ := List.mem_filterMap.mp empty
  have formed := Statement.allWellFormed_iff.mp (isWellFormed_of_readArchitecture read).2
  cases statement with
  | define name value => cases is
  | chain segments =>
    cases is
    exact (formed _ member).1 rfl

namespace Assembling

/-! ## Chains piece by piece -/

/-- Instantiates the next segment of a chain and links it to the piece before. -/
def follow (f : Segment → Assembling Ends) (last : Ends) (x : Segment) : Assembling Ends := do
  let ends ← f x
  connect last ends
  return ends

/-- A link looks at the exits of the piece before. -/
theorem follow_congr (f : Segment → Assembling Ends) {e e' : Ends} (same : e.sinks = e'.sinks)
    (x : Segment) : follow f e x = follow f e' x := by
  unfold follow connect linksBetween
  rw [same]

/-- Links a piece to the one before it, if there is one. -/
def connectFrom : Option Ends → Ends → Assembling Unit
  | none, _ => pure ()
  | some last, ends => connect last ends

/-- A chain begins with its first segment, and each of the others follows. -/
theorem chainWith_cons (f : Segment → Assembling Ends) (x : Segment) (xs : List Segment)
    (previous : Option Ends) : chainWith f (x :: xs) previous = (do
      let first ← f x
      connectFrom previous first
      let last ← xs.foldlM (follow f) first
      return ⟨first.sources, last.sinks⟩) := by
  -- with a piece before it, a segment only changes the last piece
  have rest (step : Option Ends × Option Ends → Segment → Assembling (Option Ends × Option Ends))
      (head : Ends) (next : ∀ last y, step (some head, some last) y = (do
        let ends ← follow f last y
        return (some head, some ends))) (last : Ends) :
      xs.foldlM step (some head, some last) = (do
        let last ← xs.foldlM (follow f) last
        return (some head, some last)) := by
    induction xs generalizing last with
    | nil => rfl
    | cons y xs ih =>
      rw [List.foldlM_cons, List.foldlM_cons, next]
      simp only [bind_assoc, pure_bind, ih]
  unfold chainWith
  rw [List.foldlM_cons]
  simp only [bind_assoc]
  refine bind_congr fun first => ?_
  cases previous with
  | none =>
    simp only [connectFrom, pure_bind, Option.orElse_none]
    rw [rest _ first fun last y => by simp only [follow, bind_assoc, pure_bind, Option.orElse_some]]
    simp only [bind_assoc, pure_bind]
  | some e =>
    simp only [connectFrom, bind_assoc, pure_bind, Option.orElse_none]
    refine bind_congr fun _ => ?_
    rw [rest _ first fun last y => by simp only [follow, bind_assoc, pure_bind, Option.orElse_some]]
    simp only [bind_assoc, pure_bind]

/-- Instantiates a chain where a segment may depend on the exits of the piece before it. -/
def chainFrom (g : List Nat → Segment → Assembling Ends) (previous : Option Ends) :
    List Segment → Assembling Ends
  | [] => fail .emptyChain
  | x :: xs => do
    let first ← g (previous.getD ⟨[], []⟩).sinks x
    connectFrom previous first
    let last ← xs.foldlM (fun last => follow (g last.sinks) last) first
    return ⟨first.sources, last.sinks⟩

theorem chainWith_eq_chainFrom (f : Segment → Assembling Ends) (segments : List Segment)
    (previous : Option Ends) :
    chainWith f segments previous = chainFrom (fun _ => f) previous segments := by
  cases segments with
  | nil => cases previous <;> rfl
  | cons x xs => exact chainWith_cons f x xs previous

/-- A chain can be cut in two, where the second part follows the first. -/
theorem chainFrom_append (g : List Nat → Segment → Assembling Ends) (x : Segment)
    (xs ys : List Segment) (previous : Option Ends) :
    chainFrom g previous (x :: xs ++ ys) = (do
      let ends ← chainFrom g previous (x :: xs)
      let last ← ys.foldlM (fun last => follow (g last.sinks) last) ends
      return ⟨ends.sources, last.sinks⟩) := by
  rw [List.cons_append, chainFrom, chainFrom]
  cases ys with
  | nil => simp only [List.append_nil, List.foldlM_nil, bind_assoc, pure_bind]
  | cons y ys =>
    have cut (first last : Ends) :
        follow (g last.sinks) ⟨first.sources, last.sinks⟩ y = follow (g last.sinks) last y :=
      follow_congr _ rfl y
    simp only [List.foldlM_append, List.foldlM_cons, bind_assoc, pure_bind, cut]

theorem chainWith_append (f : Segment → Assembling Ends) (x : Segment) (xs ys : List Segment)
    (previous : Option Ends) : chainWith f (x :: xs ++ ys) previous = (do
      let ends ← chainWith f (x :: xs) previous
      let last ← ys.foldlM (follow f) ends
      return ⟨ends.sources, last.sinks⟩) := by
  rw [chainWith_eq_chainFrom, chainWith_eq_chainFrom]
  exact chainFrom_append (fun _ => f) x xs ys previous

/-- A chain that continues a piece ends as its segments do when they follow the piece. -/
theorem run_chainWith_some (f : Segment → Assembling Ends) {segments : List Segment}
    (some_segment : segments ≠ []) {e e' : Ends} (same : e.sinks = e'.sinks) (s : Assembly) :
    (∃ failure, (chainWith f segments (some e)).run s = .error failure
      ∧ (segments.foldlM (follow f) e').run s = .error failure)
    ∨ ∃ ends last s', (chainWith f segments (some e)).run s = .ok (ends, s')
      ∧ (segments.foldlM (follow f) e').run s = .ok (last, s') ∧ ends.sinks = last.sinks := by
  obtain ⟨x, xs, rfl⟩ := List.exists_cons_of_ne_nil some_segment
  have chained : (chainWith f (x :: xs) (some e)).run s
      = (f x).run s >>= fun (first, s₁) => (connect e first).run s₁ >>= fun (_, s₂) =>
        (xs.foldlM (follow f) first).run s₂ >>= fun (last, s₃) =>
          .ok (⟨first.sources, last.sinks⟩, s₃) := by
    rw [chainWith_cons]
    rfl
  have followed : ((x :: xs).foldlM (follow f) e').run s
      = (f x).run s >>= fun (first, s₁) => (connect e first).run s₁ >>= fun (_, s₂) =>
        (xs.foldlM (follow f) first).run s₂ := by
    rw [List.foldlM_cons, follow_congr f same.symm, follow]
    simp only [bind_assoc, pure_bind]
    rfl
  rw [chained, followed]
  cases (f x).run s with
  | error failure => exact .inl ⟨failure, rfl, rfl⟩
  | ok p =>
    obtain ⟨first, s₁⟩ := p
    show (∃ failure, (connect e first).run s₁ >>= _ = _ ∧ (connect e first).run s₁ >>= _ = _)
      ∨ ∃ ends last s', (connect e first).run s₁ >>= _ = _
        ∧ (connect e first).run s₁ >>= _ = _ ∧ _
    cases (connect e first).run s₁ with
    | error failure => exact .inl ⟨failure, rfl, rfl⟩
    | ok p =>
      obtain ⟨-, s₂⟩ := p
      show (∃ failure, (xs.foldlM (follow f) first).run s₂ >>= _ = _
          ∧ (xs.foldlM (follow f) first).run s₂ = _)
        ∨ ∃ ends last s', (xs.foldlM (follow f) first).run s₂ >>= _ = _
          ∧ (xs.foldlM (follow f) first).run s₂ = _ ∧ _
      cases (xs.foldlM (follow f) first).run s₂ with
      | error failure => exact .inl ⟨failure, rfl, rfl⟩
      | ok p => exact .inr ⟨_, p.1, p.2, rfl, rfl, rfl⟩

/-! ## Chains one after the other -/

/-- With one frame in scope, a chain that begins with none of its names begins with nothing that is
bound. -/
theorem run_beginsBound {names : List String} {s : Assembly}
    (scopes : s.frames.map Frame.names = [names]) {segments : List Segment}
    (unnamed : BeginsUnnamed names segments) : (beginsBound segments).run s = .ok (false, s) := by
  cases segments with
  | nil => exact unnamed.elim
  | cons x rest =>
    cases x with
    | module body => rfl
    | token text =>
      obtain ⟨frame, frames, rfl⟩ : ∃ frame, s.frames = [frame] ∧ frame.names = names := by
        obtain ⟨frame, frames, both, same, none⟩ := List.map_eq_cons_iff.mp scopes
        obtain rfl := List.map_eq_nil_iff.mp none
        exact ⟨frame, both, same⟩
      have unbound : frame.find? text = none := by
        rw [← Option.not_isSome_iff_eq_none, Frame.isSome_find?_iff]
        exact unnamed
      show Except.ok ((resolve? text s.frames).isSome, s) = _
      rw [frames, resolve?, unbound]
      rfl

/-- In a scope of their own computations do the same that do so where its frame is in scope. -/
theorem run_inFrame_congr {α : Type} {x y : Assembling α} {f : Frame} {s : Assembly}
    (same : x.run { s with frames := f :: s.frames } = y.run { s with frames := f :: s.frames }) :
    (inFrame f x).run s = (inFrame f y).run s := by
  show x.run _ >>= _ = y.run _ >>= _
  rw [same]

/-- Instantiates a chain that continues the one before, unless it begins with a bound name. -/
def continueWith (f : Segment → Assembling Ends) (tail : Option Ends) (segments : List Segment) :
    Assembling (Option Ends) := do
  let previous := if ← beginsBound segments then none else tail
  return some (← chainWith f segments previous)

variable {f : Segment → Assembling Ends} (each : ∀ x, Advances (f x))
include each

/-- Chains that each continue the one before do what one chain of all their segments does. -/
theorem run_continued {names : List String} (cs : List (List Segment))
    (unnamed : ∀ segments ∈ cs, BeginsUnnamed names segments) {e e' : Ends}
    (same : e.sinks = e'.sinks) {s : Assembly} (scopes : s.frames.map Frame.names = [names]) :
    (do
      let _ ← cs.foldlM (continueWith f) (some e)
      return () : Assembling Unit).run s
    = (do
      let _ ← cs.flatten.foldlM (follow f) e'
      return () : Assembling Unit).run s := by
  induction cs generalizing e e' s with
  | nil => rfl
  | cons segments cs ih =>
    obtain ⟨first, others⟩ := List.forall_mem_cons.mp unnamed
    have some_segment : segments ≠ [] := by
      rintro rfl
      exact first
    rw [List.foldlM_cons, List.flatten_cons, List.foldlM_append, continueWith]
    simp only [bind_assoc]
    rw [StateT.run_bind, run_beginsBound scopes first]
    show ((chainWith f segments (some e)).run s >>= _)
      = ((segments.foldlM (follow f) e').run s >>= _)
    obtain ⟨failure, failed, failed'⟩ | ⟨ends, last, s', ran, ran', sinks⟩ :=
      run_chainWith_some f some_segment same s
    · rw [failed, failed']
      rfl
    · rw [ran, ran']
      have grows := advances_chainWith each segments (some e) s ends s' ran
      exact ih others sinks (grows.scopes.trans scopes)

/-- Where one frame is in scope, the chains of statements and the joined chain do the same, if the
first has a segment and the others begin with none of the names. -/
theorem run_topLevelWith_joinChains {statements : List Statement}
    (opens : ∀ others, chains statements = [] :: others → others = [])
    (continues : ∀ segments ∈ (chains statements).tail, BeginsUnnamed (names statements) segments)
    {s : Assembly} (scopes : s.frames.map Frame.names = [names statements]) :
    (topLevelWith f (joinChains statements)).run s = (topLevelWith f statements).run s := by
  show (do let _ ← (chains (joinChains statements)).foldlM (continueWith f) none).run s
    = (do let _ ← (chains statements).foldlM (continueWith f) none).run s
  rw [chains_joinChains]
  revert opens continues
  cases chains statements with
  | nil => exact fun _ _ => rfl
  | cons segments others =>
    intro opens continues
    cases segments with
    | nil =>
      rw [opens others rfl]
      rfl
    | cons x xs =>
      have begins : beginsBound (x :: xs ++ others.flatten) = beginsBound (x :: xs) := by
        cases x <;> rfl
      simp only [List.foldlM_cons, List.foldlM_nil, continueWith, begins, ite_self, chainWith_append,
        bind_assoc, pure_bind]
      refine (advances_beginsBound _).run_bind_congr fun _ s₁ grows => ?_
      refine (advances_chainWith each _ none).run_bind_congr fun ends s₂ grows' => ?_
      exact (run_continued each others continues rfl
        (grows'.scopes.trans (grows.scopes.trans scopes))).symm

end Assembling

namespace ComponentGraph

/-- At the top level a comma continues like a tilde. Where every chain after the first begins with a
module or with a token that the statements do not define, all chains can be joined to one in the
place of the first: the same is assembled, with the same keys, the same edges and exits in the same
order and the same names unused, or there is the same error. The first chain must not be without
segments when others follow; the reader gives no such chain (`nil_not_mem_chains`). -/
theorem assemble_joinChains {statements : List Statement}
    (opens : ∀ others, chains statements = [] :: others → others = [])
    (continues : ∀ segments ∈ (chains statements).tail,
      BeginsUnnamed (names statements) segments) :
    assemble (joinChains statements) = assemble statements := by
  -- both are assembled with one bound on the depth, which is enough for either
  rw [assemble_eq_assembleWith (Nat.le_max_left (Statement.sizeAll (joinChains statements))
      (Statement.sizeAll statements)), assemble_eq_assembleWith (Nat.le_max_right _ _)]
  generalize max (Statement.sizeAll (joinChains statements)) (Statement.sizeAll statements) = depth
  have frames : frameOf (joinChains statements) = frameOf statements := by
    unfold frameOf
    rw [definitions_joinChains]
  unfold assembleWith
  rw [frames]
  dsimp only
  rw [StateT.run_bind, StateT.run_bind]
  cases ran : (frameOf statements).run ⟨.empty, [], []⟩ with
  | error failure => rfl
  | ok p =>
    obtain ⟨frame, s⟩ := p
    obtain ⟨-, rfl, rfl⟩ := frameOf_eq_ok_iff.mp ran
    have scopes : [Frame.names ((definitions statements).map fun d => (d.1, .fresh d.2))]
        = [names statements] := by
      unfold Frame.names names
      rw [List.map_map]
      rfl
    have same := run_inFrame_congr (s := ⟨.empty, [], []⟩)
      (run_topLevelWith_joinChains (advances_segment depth) opens continues scopes)
    exact congrArg (· >>= _) same

/-- Three chains, of which the second begins with a module and the third with a layer. The module
is linked one to one with the module before it. -/
theorem assemble_joinChains_modules :
    let inside (x y : String) : Segment := .module [.chain [.token x], .chain [.token y]]
    let statements : List Statement := [.define "A" [.token "3N"],
      .chain [.token "A", inside "2N" "4N"], .chain [inside "4N" "2N", .token "5N"],
      .chain [.token "6N"]]
    assemble (joinChains statements) = assemble statements
      ∧ ∃ assembled, assemble statements = .ok assembled ∧ assembled.components.graph.edges
        = [(5, 6), (4, 5), (3, 5), (2, 4), (1, 3), (0, 2), (0, 1)] := by
  intro inside statements
  have assembles : (assemble statements).toOption.any (fun assembled =>
      assembled.components.graph.edges
        == [(5, 6), (4, 5), (3, 5), (2, 4), (1, 3), (0, 2), (0, 1)]) = true := by
    decide +kernel
  obtain ⟨assembled, success, edges⟩ := except_exists_of_any assembles
  refine ⟨assemble_joinChains nofun ?_, assembled, success, eq_of_beq edges⟩
  have sixth : "6N" ∉ names statements := by decide
  exact List.forall_mem_cons.mpr ⟨trivial, List.forall_mem_cons.mpr ⟨sixth, nofun⟩⟩

end ComponentGraph

end LayerNet
