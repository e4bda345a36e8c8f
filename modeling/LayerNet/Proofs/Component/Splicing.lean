import LayerNet.Proofs.Component.Lagging

/-!
# Splicing — a name in a chain, and its value in the chain

Where a name is used, its value is instantiated, the name is bound to the ends of the value, and
these are linked to the piece before. In place of the name, the first segment of the value is linked
to that piece, and the other segments come behind it. Both make the same links, in another order:
the links to the first segment are late while the others are instantiated (`follows_late`). So the
use of the name follows the value in its place, as a segment of a chain (`follows_spliced`) and as
the whole value of another definition (`follows_valueWith_spliced`), given that the segments of the
chain and of the value, in which the name does not occur, follow themselves.
-/

namespace LayerNet

open Assembling

variable {name : String} {value : List Segment}

namespace Assembling

variable {α : Type} {late : List Edge} {stages stages₁ : List Stage}

/-! ## Chains -/

section

variable {g : List Nat → Segment → Assembling Ends} {h : Segment → Assembling Ends}

theorem follows_follow {f : Segment → Assembling Ends} {x y : Segment}
    (each : Follows name value late stages stages (f x) (h y)) (last : Ends) :
    Follows name value late stages stages (follow f last x) (follow h last y) :=
  each.bind fun ends => (follows_connect last ends).bind fun _ => .pure ends

theorem follows_connectFrom (previous : Option Ends) (ends : Ends) :
    Follows name value late stages stages (connectFrom previous ends)
      (connectFrom previous ends) := by
  cases previous with
  | none => exact .pure ()
  | some last => exact follows_connect last ends

/-- Segments behind a piece follow segments behind it. -/
theorem follows_behind {xs ys : List Segment} (each : List.Forall₂ (fun x y => ∀ before,
      Follows name value late stages stages (g before x) (h y)) xs ys) (last : Ends) :
    Follows name value late stages stages (xs.foldlM (fun last => follow (g last.sinks) last) last)
      (ys.foldlM (follow h) last) :=
  .foldlM (each.imp fun _ _ follows last => follows_follow (follows last.sinks) last) last

theorem follows_chainFrom {xs ys : List Segment} (each : List.Forall₂ (fun x y => ∀ before,
      Follows name value late stages stages (g before x) (h y)) xs ys) (previous : Option Ends) :
    Follows name value late stages stages (chainFrom g previous xs) (chainWith h ys previous) := by
  rw [chainWith_eq_chainFrom]
  cases each with
  | nil => exact .fail _ _
  | cons first others =>
    exact (first _).bind fun ends => (follows_connectFrom previous ends).bind fun _ =>
      (follows_behind others ends).bind fun _ => .pure _

/-- A value that is written in place behind a piece does the same as a chain behind it. -/
theorem foldlM_insert (h : Segment → Assembling Ends) (some_segment : value ≠ [])
    (after : List Segment) (e : Ends) (sources : List Nat) : (do
      let last ← (value ++ after).foldlM (follow h) e
      return (⟨sources, last.sinks⟩ : Ends)) = (do
      let ends ← chainWith h value (some e)
      let last ← after.foldlM (follow h) ends
      return (⟨sources, last.sinks⟩ : Ends)) := by
  obtain ⟨x, xs, rfl⟩ := List.exists_cons_of_ne_nil some_segment
  rw [List.cons_append, List.foldlM_cons, follow, chainWith_cons]
  simp only [List.foldlM_append, bind_assoc, pure_bind, connectFrom]
  cases after with
  | nil => simp only [List.foldlM_nil, pure_bind]
  | cons y ys =>
    have cut (first last : Ends) : follow h ⟨first.sources, last.sinks⟩ y = follow h last y :=
      follow_congr h rfl y
    simp only [List.foldlM_cons, cut]

/-- A chain with the name in it follows the chain with the value in its place. -/
theorem follows_spliced (some_segment : value ≠ []) {before after : List Segment}
    (unused : name ∉ Segment.tokensAll before ∧ name ∉ Segment.tokensAll after)
    (each : ∀ {stages x} before, name ∉ Segment.tokens x →
      Follows name value late stages stages (g before x) (h x))
    (use : ∀ previous, Follows name value late (.ready :: stages) (.spent :: stages) (do
        let ends ← g (previous.getD ⟨[], []⟩).sinks (.token name)
        connectFrom previous ends
        return ends) (chainWith h value previous)) (previous : Option Ends) :
    Follows name value late (.ready :: stages) (.spent :: stages)
      (chainFrom g previous (before ++ .token name :: after))
      (chainWith h (before ++ (value ++ after)) previous) := by
  have all {segments : List Segment} (clean : name ∉ Segment.tokensAll segments)
      (stages : List Stage) : List.Forall₂ (fun x y => ∀ before,
        Follows name value late stages stages (g before x) (h y)) segments segments :=
    List.forall₂_same.mpr fun x member before =>
      each before fun inside => clean (Segment.tokens_subset member inside)
  cases before with
  | nil =>
    obtain ⟨x, xs, rfl⟩ := List.exists_cons_of_ne_nil some_segment
    rw [List.nil_append, List.nil_append, chainWith_append]
    have used : chainFrom g previous (.token name :: after) = (do
        let ends ← (do
          let ends ← g (previous.getD ⟨[], []⟩).sinks (.token name)
          connectFrom previous ends
          return ends)
        let last ← after.foldlM (fun last => follow (g last.sinks) last) ends
        return ⟨ends.sources, last.sinks⟩) := by
      simp only [chainFrom, bind_assoc, pure_bind]
    rw [used]
    exact (use previous).bind fun ends =>
      (follows_behind (all unused.2 _) ends).bind fun _ => .pure _
  | cons x xs =>
    rw [chainFrom_append, chainWith_append]
    refine (follows_chainFrom (all unused.1 _) previous).bind fun head => ?_
    rw [foldlM_insert h some_segment, List.foldlM_cons]
    have used : follow (g head.sinks) head (.token name) = (do
        let ends ← g ((some head).getD ⟨[], []⟩).sinks (.token name)
        connectFrom (some head) ends
        return ends) := rfl
    rw [used, bind_assoc]
    exact (use (some head)).bind fun ends =>
      (follows_behind (all unused.2 _) ends).bind fun _ => .pure _

end

/-! ## The use of the name -/

/-- The name is bound to its ends and linked to the piece before it. -/
def finish (name : String) (previous ends : Ends) : Assembling Ends := do
  bind name (.done ends)
  connect previous ends
  return ends

theorem advances_finish (name : String) (previous ends : Ends) :
    Advances (finish name previous ends) :=
  (Advances.bindName name _).bind fun _ => (advances_connect previous ends).bind fun _ => .pure _

/-- If it can be linked then none of the links was there, and all are now. -/
theorem of_finish {previous ends : Ends} {s s' : Assembly} {a : Ends}
    (run : (finish name previous ends).run s = .ok (a, s')) :
    Fits (linksBetween previous ends) s.components.graph.edges
      ∧ ∀ e ∈ linksBetween previous ends, e ∈ s'.components.graph.edges := by
  obtain ⟨_, s₁, bound, run⟩ := Outcome.run_bind_eq_ok.mp run
  obtain ⟨⟨⟩, s₂, connected, run⟩ := Outcome.run_bind_eq_ok.mp run
  cases run
  obtain ⟨fits, rfl⟩ := run_connect_iff.mp connected
  have same : s₁.components = s.components := by
    obtain ⟨c, frames, unused⟩ := s
    cases bound
    cases frames <;> rfl
  rw [same] at fits
  exact ⟨fits, fun e member => (edges_linked s₁ _).mem_iff.mpr (List.mem_append_left _ member)⟩

/-- Links that were late are made in the end, as they do not lie among the edges yet. -/
theorem meets_finish (previous ends : Ends) {s t : Assembly}
    (lags : s.Lags name value (late ++ linksBetween previous ends) (.spent :: stages) t)
    (noLoop : ∀ e ∈ linksBetween previous ends, e.1 ≠ e.2) :
    Meets name value late (.spent :: stages) ((finish name previous ends).run s)
      (.ok (ends, t)) := by
  obtain ⟨s₁, bound, -, lags₁⟩ := run_bind_name (.inr rfl) (.done ends) lags
  obtain ⟨fits, lags₂⟩ := lags_behind lags₁ noLoop
  have linked : (connect previous ends).run s₁ = .ok ((), _) := run_connect_iff.mpr ⟨fits, rfl⟩
  rw [finish, StateT.run_bind, bound]
  show Meets name value late _ ((connect previous ends).run s₁ >>= _) _
  rw [linked]
  exact .ok lags₂

/-- If one of them was made meanwhile then both sides fail, on the one when it is made again. -/
theorem meets_finish_refused (previous ends : Ends) {s : Assembly} {e : Edge}
    (isLate : e ∈ late ++ linksBetween previous ends) (made : e ∈ s.components.graph.edges)
    (failure : Failure CompileError) :
    Meets name value late stages ((finish name previous ends).run s) (.error failure) := by
  rcases List.mem_append.mp isLate with isLate | isLink
  · exact .of_refused (advances_finish name previous ends) isLate made failure
  · cases run : (finish name previous ends).run s with
    | error failure' => exact .failed failure' failure
    | ok p => exact absurd made ((of_finish run).1.new e isLink)

/-- Links that cannot be made on one side cannot on the other, later, unless one of them is late. -/
theorem meets_unlinked {previous first : Ends} {x : Assembling Ends} (advances : Advances x)
    {s t : Assembly} (lags : s.Lags name value late stages t)
    (unfit : ¬ Fits (linksBetween previous first) t.components.graph.edges)
    (failure : Failure CompileError) :
    Meets name value late stages ((do
      let last ← x
      finish name previous ⟨first.sources, last.sinks⟩).run s) (.error failure) := by
  cases run : StateT.run _ s with
  | error failure' => exact .failed failure' failure
  | ok p =>
    obtain ⟨last, s₁, ran, finished⟩ := Outcome.run_bind_eq_ok.mp run
    obtain ⟨fits, made⟩ := of_finish finished
    obtain ⟨e, isLink, there⟩ : ∃ e ∈ linksBetween previous first,
        e ∈ t.components.graph.edges := by
      by_contra none
      exact unfit ⟨fits.noLoop, fits.nodup, fun e isLink there => none ⟨e, isLink, there⟩⟩
    rcases (lags.mem_edges e).mp there with isLate | old
    · exact .refused failure isLate (made e isLink)
    · exact absurd ((advances s last s₁ ran).edges.subset old) (fits.new e isLink)

/-- The segments of the value behind the first, and the late links to it, follow the links and the
segments. -/
theorem follows_late {G : List Edge → List Nat → Segment → Assembling Ends}
    {h : Segment → Assembling Ends} {xs : List Segment}
    (each : ∀ late, List.Forall₂ (fun x y => ∀ before, Follows name value late (.spent :: stages)
      (.spent :: stages) (G late before x) (h y)) xs xs) (previous first : Ends) :
    Follows name value late (.spent :: stages) (.spent :: stages) (do
        let last ← xs.foldlM (fun last =>
          follow (G (late ++ linksBetween previous first) last.sinks) last) first
        finish name previous ⟨first.sources, last.sinks⟩) (do
        connect previous first
        let last ← xs.foldlM (follow h) first
        return ⟨first.sources, last.sinks⟩) := by
  have behind := follows_behind (each (late ++ linksBetween previous first)) first
  refine ⟨behind.advances.bind fun last => advances_finish name previous _, fun s t lags => ?_⟩
  by_cases fits : Fits (linksBetween previous first) t.components.graph.edges
  · -- the links are made on one side, and the segments lag until they are made on the other
    have inside := behind.meets s _ (lags_ahead lags fits)
    rw [StateT.run_bind, StateT.run_bind, run_connect_iff.mpr ⟨fits, rfl⟩]
    show Meets name value late _ (_ >>= _) ((xs.foldlM (follow h) first).run _ >>= _)
    revert inside
    generalize StateT.run _ s = p, (xs.foldlM (follow h) first).run _ = q
    intro inside
    cases inside with
    | stopped reason => exact .stopped reason _
    | failed failure failure' => exact .failed failure failure'
    | @refused last s₂ e failure isLate made =>
      exact meets_finish_refused previous ⟨first.sources, last.sinks⟩ isLate made failure
    | @ok last s₂ t₂ lags₂ =>
      exact meets_finish previous ⟨first.sources, last.sinks⟩ lags₂ fits.noLoop
  · obtain ⟨failure, failed⟩ := run_connect_error fits
    rw [StateT.run_bind (connect previous first), failed]
    exact meets_unlinked behind.advances lags fits failure

/-- A piece without exits is linked to nothing. -/
theorem connectFrom_eq_connect (previous : Option Ends) (ends : Ends) :
    connectFrom previous ends = connect (previous.getD ⟨[], []⟩) ends := by
  cases previous <;> rfl

/-- The value, bound and linked when all of it is instantiated, follows the value in place. -/
theorem follows_value {G : List Edge → List Nat → Segment → Assembling Ends}
    {h : Segment → Assembling Ends} (some_segment : value ≠ [])
    (unused : name ∉ Segment.tokensAll value)
    (each : ∀ late {x} before, name ∉ Segment.tokens x →
      Follows name value late (.spent :: stages) (.spent :: stages) (G late before x) (h x))
    (previous : Option Ends) :
    Follows name value late (.spent :: stages) (.spent :: stages) (do
        let ends ← valueFrom G late (previous.getD ⟨[], []⟩).sinks value
        finish name (previous.getD ⟨[], []⟩) ends) (chainWith h value previous) := by
  obtain ⟨x, xs, rfl⟩ := List.exists_cons_of_ne_nil some_segment
  have first : name ∉ x.tokens := unused ∘ fun inside => List.mem_append_left _ inside
  have others : name ∉ Segment.tokensAll xs := unused ∘ fun inside => List.mem_append_right _ inside
  rw [chainWith_cons]
  simp only [valueFrom, bind_assoc, pure_bind, connectFrom_eq_connect]
  refine (each late [] first).bind fun ends => follows_late (fun late => ?_) _ ends
  refine List.forall₂_same.mpr fun y member before => each late before fun inside => ?_
  exact others (Segment.tokens_subset member inside)

/-- A value that is not a single token is chained. -/
theorem valueWith_eq (chain : List Segment → Assembling Ends) (owner : String)
    {segments : List Segment} (several : ¬ ∃ token, segments = [.token token]) :
    valueWith chain owner segments = chain segments := by
  unfold valueWith
  split
  · exact absurd ⟨_, rfl⟩ several
  · rfl

/-- A single token that names nothing becomes a component, under the one name or the other. -/
theorem follows_use_token {token : String} (other : token ≠ name) (previous : Ends)
    {x right right' : Assembling Ends}
    (whole : Follows name [.token token] late (.spent :: stages) (.spent :: stages) (do
        let ends ← x
        finish name previous ends) right')
    (advances : Advances x)
    (bound : ∀ t : Assembly, resolve? token t.frames ≠ none → right.run t = right'.run t)
    (unbound : ∀ t : Assembly, resolve? token t.frames = none → ∃ owner, right.run t = (do
        let ends ← leaf token owner
        connect previous ends
        return ends).run t) :
    Follows name [.token token] late (.spent :: stages) (.spent :: stages) (do
        let ends ← valueWith (fun _ => x) name [.token token]
        finish name previous ends) right := by
  have leaves (owner : Option String) :
      Follows name [.token token] late (.spent :: stages) (.spent :: stages) (do
        let ends ← leaf token (some name)
        finish name previous ends) (do
        let ends ← leaf token owner
        connect previous ends
        return ends) :=
    (follows_leaf token _ _).bind fun ends =>
      .bind_name (.inr rfl) _ ((follows_connect _ ends).bind fun _ => .pure ends)
  refine ⟨Advances.bind ?_ fun ends => advances_finish name _ ends, fun s t lags => ?_⟩
  · refine (advances_isBound token).bind fun known => ?_
    split
    · exact advances
    · exact advances_leaf token (some name)
  · have left : (valueWith (fun _ => x) name [.token token]).run s
        = (if (resolve? token s.frames).isSome then x else leaf token (some name)).run s := rfl
    rw [StateT.run_bind, left]
    obtain ⟨none, none'⟩ | ⟨_, _, _, found, found', -⟩ := lags.frames.resolve? other
    · obtain ⟨owner, same⟩ := unbound t none'
      rw [none, same]
      exact (leaves owner).meets s t lags
    · rw [found, bound t (found' ▸ nofun)]
      exact whole.meets s t lags

/-- Whatever does the same as the value in place, but that a single token may get a name, is
followed by the use of the name. -/
theorem follows_use {G : List Edge → List Nat → Segment → Assembling Ends}
    {h : Segment → Assembling Ends} (some_segment : value ≠ [])
    (unused : name ∉ Segment.tokensAll value)
    (each : ∀ late {x} before, name ∉ Segment.tokens x →
      Follows name value late (.spent :: stages) (.spent :: stages) (G late before x) (h x))
    (previous : Option Ends) {right : Assembling Ends}
    (bound : ∀ t : Assembly, (∀ token, value = [.token token] → resolve? token t.frames ≠ none) →
      right.run t = (chainWith h value previous).run t)
    (unbound : ∀ (t : Assembly) token, value = [.token token] → resolve? token t.frames = none →
      ∃ owner, right.run t = (do
        let ends ← leaf token owner
        connect (previous.getD ⟨[], []⟩) ends
        return ends).run t) :
    Follows name value late (.spent :: stages) (.spent :: stages) (do
        let ends ← valueWith (valueFrom G late (previous.getD ⟨[], []⟩).sinks) name value
        finish name (previous.getD ⟨[], []⟩) ends) right := by
  have whole : Follows name value late (.spent :: stages) (.spent :: stages) _ _ :=
    follows_value some_segment unused each previous
  by_cases single : ∃ token, value = [.token token]
  · obtain ⟨token, rfl⟩ := single
    have own : name ∉ (Segment.token token).tokens :=
      unused ∘ fun inside => List.mem_append_left _ inside
    have other : token ≠ name := by
      rintro rfl
      exact own List.mem_cons_self
    refine follows_use_token other _ whole ((each late [] own).advances.bind fun _ => .pure _)
      (fun t known => bound t ?_) fun t unknown => unbound t token rfl unknown
    rintro _ ⟨⟩
    exact known
  · rw [valueWith_eq _ _ single]
    refine ⟨whole.advances, fun s t lags => ?_⟩
    rw [bound t fun token is => absurd ⟨token, is⟩ single]
    exact whole.meets s t lags

theorem inOuter_zero (x : Assembling α) : inOuter 0 x = x := by
  funext s
  show x.run s >>= (fun p => .ok (p.1, p.2)) = x.run s
  cases x.run s <;> rfl

/-- Where the name is to be used, its definition is begun. -/
theorem follows_name {depth : Nat} {previous : Ends} {right : Assembling Ends}
    (follows : Follows name value late (.spent :: stages) (.spent :: stages) (do
        let ends ← valueWith (valueFrom (watched name depth) late previous.sinks) name value
        finish name previous ends) right) :
    Follows name value late (.ready :: stages) (.spent :: stages) (do
        let ends ← watched name (depth + 1) late previous.sinks (.token name)
        connect previous ends
        return ends) right := by
  refine ⟨(advances_watched name _ late _ _).bind fun ends =>
    (advances_connect previous ends).bind fun _ => .pure _, fun s t lags => ?_⟩
  have started : Follows name value late (.ready :: stages) (.spent :: stages) (do
      bind name .pending
      let ends ← valueWith (valueFrom (watched name depth) late previous.sinks) name value
      finish name previous ends) right := .bind_name (.inl rfl) .pending follows
  have found := lags.resolve?_ready
  have begun : (watched name (depth + 1) late previous.sinks (.token name)).run s
      = (defineWith (valueFrom (watched name depth) late previous.sinks) name value).run s := by
    show (tokenWith _ name (resolve? name s.frames)).run s = _
    rw [found, tokenWith, inOuter_zero]
    simp only [if_pos]
  have same : (do
      let ends ← watched name (depth + 1) late previous.sinks (.token name)
      connect previous ends
      return ends : Assembling Ends).run s = (do
      bind name .pending
      let ends ← valueWith (valueFrom (watched name depth) late previous.sinks) name value
      finish name previous ends : Assembling Ends).run s := by
    have assoc : (do
        bind name .pending
        let ends ← valueWith (valueFrom (watched name depth) late previous.sinks) name value
        finish name previous ends : Assembling Ends) = (do
        let ends ← defineWith (valueFrom (watched name depth) late previous.sinks) name value
        connect previous ends
        return ends) := by
      simp only [defineWith, finish, bind_assoc, pure_bind]
    rw [assoc, StateT.run_bind, StateT.run_bind, begun]
  rw [same]
  exact started.meets s t lags

/-! ## Values -/

/-- Values that are the same part by part. -/
theorem follows_valueWith {chain chain' : List Segment → Assembling Ends} (owner : String)
    {xs ys : List Segment} (same : List.Forall₂ (Segment.Inlined name value) xs ys)
    (chained : Follows name value late stages stages (chain xs) (chain' ys)) :
    Follows name value late stages stages (valueWith chain owner xs)
      (valueWith chain' owner ys) := by
  by_cases single : ∃ token, xs = [.token token]
  · obtain ⟨token, rfl⟩ := single
    obtain ⟨y, rest, first, others, rfl⟩ := List.forall₂_cons_left_iff.mp same
    obtain rfl := List.forall₂_nil_left_iff.mp others
    cases first with
    | same unused =>
      have other : token ≠ name := by
        rintro rfl
        exact unused List.mem_cons_self
      refine (follows_isBound other).bind fun known => ?_
      cases known with
      | true => exact chained
      | false => exact follows_leaf token _ _
  · have single' : ¬ ∃ token, ys = [.token token] := by
      rintro ⟨token, rfl⟩
      obtain ⟨x, rest, first, others, rfl⟩ := List.forall₂_cons_right_iff.mp same
      obtain rfl := List.forall₂_nil_right_iff.mp others
      cases first with
      | same unused => exact single ⟨token, rfl⟩
    rw [valueWith_eq _ _ single, valueWith_eq _ _ single']
    exact chained

/-- A value with the name in it and the value with the other in its place. -/
theorem follows_valueWith_spliced {g : List Nat → Segment → Assembling Ends}
    {h : Segment → Assembling Ends} (owner : String) (some_segment : value ≠ [])
    {before after : List Segment}
    (spliced : Follows name value late (.ready :: stages) (.spent :: stages)
      (chainFrom g none (before ++ .token name :: after))
      (chainWith h (before ++ (value ++ after)) none))
    (use : Follows name value late (.ready :: stages) (.spent :: stages) (g [] (.token name))
      (valueWith (fun segments => chainWith h segments none) owner value)) :
    Follows name value late (.ready :: stages) (.spent :: stages)
      (valueWith (chainFrom g none) owner (before ++ .token name :: after))
      (valueWith (fun segments => chainWith h segments none) owner
        (before ++ (value ++ after))) := by
  by_cases alone : before = [] ∧ after = []
  · obtain ⟨rfl, rfl⟩ := alone
    rw [List.append_nil, List.nil_append, List.nil_append]
    have only : chainFrom g none [.token name] = g [] (.token name) := by
      show (g [] (.token name) >>= fun first => pure first) = _
      exact bind_pure _
    refine ⟨(advances_isBound name).bind fun known => ?_, fun s t lags => ?_⟩
    · rw [only]
      split
      · exact use.advances
      · exact advances_leaf name (some owner)
    · have known : (resolve? name s.frames).isSome := by
        rw [lags.resolve?_ready]
        rfl
      have left : (valueWith (chainFrom g none) owner [.token name]).run s
          = (if (resolve? name s.frames).isSome then chainFrom g none [.token name]
            else leaf name (some owner)).run s := rfl
      rw [left, if_pos known, only]
      exact use.meets s t lags
  · have positive := List.length_pos_iff.mpr some_segment
    have several : ¬ ∃ token, before ++ .token name :: after = [.token token] := by
      rintro ⟨token, is⟩
      have lengths := congrArg List.length is
      rw [List.length_append, List.length_cons, List.length_singleton] at lengths
      exact alone ⟨List.length_eq_zero_iff.mp (by omega), List.length_eq_zero_iff.mp (by omega)⟩
    have several' : ¬ ∃ token, before ++ (value ++ after) = [.token token] := by
      rintro ⟨token, is⟩
      have lengths := congrArg List.length is
      rw [List.length_append, List.length_append, List.length_singleton] at lengths
      exact alone ⟨List.length_eq_zero_iff.mp (by omega), List.length_eq_zero_iff.mp (by omega)⟩
    rw [valueWith_eq _ _ several, valueWith_eq _ _ several']
    exact spliced

end Assembling

end LayerNet
