import LayerNet.Proofs.Component.Splicing

/-!
# Inlining — a chain used once may be written in place

A definition that is used once can be deleted, and its name replaced by the segments of its value:
the assemblies of both lists succeed together, with the same blueprints, edges and exits
(`ComponentGraph.assemble_inlined`). Segment by segment, the watching assembly of the one follows
the assembly of the other (`follows_watched`), by induction on the depth. In the scope of the
definition the chains before the one that uses the name, and those behind it, are the same on both
sides; other scopes differ in a segment at most, in which such a scope lies.

Without watching this fails. A module that is closed between the first segment of the value and the
end of it has its ends from the edges that are there, and a chain written in place has more of them.
-/

namespace LayerNet

open Assembling

variable {name : String} {value : List Segment}

namespace Assembling

variable {α : Type} {late : List Edge} {stages stages₁ : List Stage}

/-! ## Segments -/

/-- A scope in which the name is not used any more may be taken for one in which it may be. -/
theorem Follows.relax {x y : Assembling α}
    (follows : Follows name value late stages (.spent :: stages₁) x y) :
    Follows name value late stages (.idle :: stages₁) x y := by
  refine ⟨follows.advances, fun s t lags => ?_⟩
  have same (p : Outcome CompileError (α × Assembly)) :
      (p >>= fun r => .ok (r.1, r.2)) = p := by
    cases p <;> rfl
  rw [← same (x.run s), ← same (y.run t)]
  refine (follows.meets s t lags).reframe (·) (·) (fun _ => rfl) (fun _ => rfl)
    fun s t related => ?_
  generalize s.frames = fs, t.frames = gs at related
  cases related with
  | cons first others => exact .cons (.inl first) others

section

variable {chain chain' : Option String → List Segment → Assembling Ends}
  {close close' : Nat → List Ends → Assembling Ends}

theorem follows_defineWith {left right : List Segment → Assembling Ends} {stage : Stage}
    {text : String} (other : text ≠ name) {xs ys : List Segment}
    (inside : Follows name value late (stage :: stages) (stage :: stages) (valueWith left text xs)
      (valueWith right text ys)) :
    Follows name value late (stage :: stages) (stage :: stages) (defineWith left text xs)
      (defineWith right text ys) :=
  (follows_bind other .pending).bind fun _ => inside.bind fun ends =>
    (follows_bind other (.done ends)).bind fun _ => .pure ends

/-- A token other than the name. -/
theorem follows_token {text : String} (other : text ≠ name)
    (advances : Advances (stepWith chain close (.token text)))
    (chained : ∀ stages xs ys, List.Forall₂ (Segment.Inlined name value) xs ys →
      Follows name value late stages stages (chain (some text) xs) (chain' (some text) ys))
    (spliced : ∀ stages before after,
      name ∉ Segment.tokensAll before ∧ name ∉ Segment.tokensAll after →
      Follows name value late (.ready :: stages) (.spent :: stages)
        (valueWith (chain (some text)) text (before ++ .token name :: after))
        (valueWith (chain' (some text)) text (before ++ (value ++ after)))) :
    Follows name value late stages stages (stepWith chain close (.token text))
      (stepWith chain' close' (.token text)) := by
  refine ⟨advances, fun s t lags => ?_⟩
  show Meets name value late stages ((tokenWith _ text (resolve? text s.frames)).run s)
    ((tokenWith _ text (resolve? text t.frames)).run t)
  obtain ⟨unbound, unbound'⟩ | ⟨outer, b, b', found, found', stage, f, g, stages', fs, gs, stagesAt,
    left, right, same⟩ := lags.frames.resolve? other
  · rw [unbound, unbound']
    exact (follows_leaf text none none).meets s t lags
  rw [found, found']
  have inside := lags.frames.drop outer
  rw [stagesAt, left, right] at inside
  obtain alike | ⟨rfl, before, after, loaded, rfl, rfl⟩ := same
  · cases alike with
    | done ends => exact (Follows.pure ends).meets s t lags
    | pending => exact .failed _ _
    | fresh values =>
      refine Meets.inOuter lags outer ?_
      rw [stagesAt, left, right]
      have defined := follows_defineWith other (follows_valueWith text values
        (chained (stage :: stages') _ _ values))
      exact defined.meets _ _ ⟨lags.blueprints, lags.edges, lags.nodup, lags.exits, inside⟩
  · refine Meets.inOuter lags outer ?_
    rw [stagesAt, left, right]
    have behind := (spliced stages' before after loaded.unused).bind fun ends =>
      Follows.relax ((follows_bind other (.done ends)).bind fun _ => .pure ends)
    cases inside with
    | cons _ others =>
      exact behind.meets _ _ ⟨lags.blueprints, lags.edges, lags.nodup, lags.exits,
        .cons (loaded.put .pending) others⟩

/-- A list that defines a name twice has no frame. -/
theorem run_frameOf_error {statements : List Statement} (twice : ¬ (names statements).Nodup)
    (s : Assembly) : ∃ failure, (frameOf statements).run s = .error failure := by
  cases run : (frameOf statements).run s with
  | error failure => exact ⟨failure, rfl⟩
  | ok p => exact absurd (frameOf_eq_ok_iff.mp run).1 twice

/-- The chains of a scope, in which the name is used in the end if it is used in one of them. -/
theorem follows_chains {a b : List Statement} (parts : Inlines.Parts name value a b)
    (nodup : (names a).Nodup)
    (chained : ∀ stages xs ys, List.Forall₂ (Segment.Inlined name value) xs ys →
      Follows name value late stages stages (chain none xs) (chain' none ys))
    (spliced : ∀ stages before after,
      name ∉ Segment.tokensAll before ∧ name ∉ Segment.tokensAll after →
      Follows name value late (.ready :: stages) (.spent :: stages)
        (chain none (before ++ .token name :: after))
        (chain' none (before ++ (value ++ after)))) :
    Follows name value late stages stages
      (inFrame ((definitions a).map fun d => (d.1, .fresh d.2)) ((chains a).mapM (chain none)))
      (inFrame ((definitions b).map fun d => (d.1, .fresh d.2))
        ((chains b).mapM (chain' none))) := by
  obtain ⟨related, same⟩ | ⟨related, earlier, later, before, after, split, split', unused⟩ :=
    parts.scopes nodup
  · exact .inFrame related (.mapM (same.imp fun xs ys => chained _ xs ys))
  · obtain ⟨unusedBefore, unused⟩ := List.forall_mem_cons.mp unused
    obtain ⟨unusedAfter, unused⟩ := List.forall_mem_cons.mp unused
    have others (stages : List Stage) (part : List (List Segment))
        (among : part ⊆ earlier ++ later) :
        Follows name value late stages stages (part.mapM (chain none)) (part.mapM (chain' none)) :=
      .mapM (List.forall₂_same.mpr fun segments member =>
        chained _ _ _ (Segment.inlined_same (unused segments (among member))))
    have all : Follows name value late (.ready :: stages) (.spent :: stages)
        ((chains a).mapM (chain none)) ((chains b).mapM (chain' none)) := by
      rw [split, split', List.mapM_append, List.mapM_append, List.mapM_cons, List.mapM_cons]
      refine (others _ earlier (List.subset_append_left _ _)).bind fun first => ?_
      refine Follows.bind ?_ fun rest => .pure _
      refine (spliced stages before after ⟨unusedBefore, unusedAfter⟩).bind fun ends => ?_
      exact (others _ later (List.subset_append_right _ _)).bind fun rest => .pure _
    exact .inFrame related all

/-- A module. -/
theorem follows_module {body body' : List Statement} (parts : Inlines.Parts name value body body')
    (advances : Advances (stepWith chain close (.module body)))
    (chained : ∀ stages xs ys, List.Forall₂ (Segment.Inlined name value) xs ys →
      Follows name value late stages stages (chain none xs) (chain' none ys))
    (spliced : ∀ stages before after,
      name ∉ Segment.tokensAll before ∧ name ∉ Segment.tokensAll after →
      Follows name value late (.ready :: stages) (.spent :: stages)
        (chain none (before ++ .token name :: after))
        (chain' none (before ++ (value ++ after))))
    (closed : ∀ first chains, Follows name value late stages stages (close first chains)
      (close' first chains)) :
    Follows name value late stages stages (stepWith chain close (.module body))
      (stepWith chain' close' (.module body')) := by
  refine ⟨advances, fun s t lags => ?_⟩
  rw [stepWith, stepWith]
  by_cases nodup : (names body).Nodup
  · rw [frameOf_eq nodup, frameOf_eq (parts.nodup_iff.mp nodup), pure_bind, pure_bind]
    show Meets name value late stages ((ite _ _ _ : Assembling Ends).run s)
      ((ite _ _ _ : Assembling Ends).run t)
    rw [parts.isEmpty_eq, lags.size]
    split
    · exact .failed _ _
    · have inside := (follows_chains parts nodup chained spliced).bind fun ends =>
        closed t.components.size ends
      exact inside.meets s t lags
  · obtain ⟨failure, failed⟩ := run_frameOf_error nodup s
    obtain ⟨failure', failed'⟩ := run_frameOf_error (nodup ∘ parts.nodup_iff.mpr) t
    rw [StateT.run_bind, StateT.run_bind, failed, failed']
    exact .failed failure failure'

end

/-! ## Instantiation -/

theorem run_instantiate_unbound {token : String} {t : Assembly}
    (unbound : resolve? token t.frames = none) :
    (instantiate (.token token)).run t = (leaf token none).run t := by
  rw [instantiate_eq_step, step_eq_stepWith]
  show (tokenWith _ token (resolve? token t.frames)).run t = _
  rw [unbound, tokenWith]

section

variable {depth : Nat} (some_segment : value ≠ []) (unused : name ∉ Segment.tokensAll value)
  (each : ∀ k ≤ depth, ∀ {late : List Edge} {stages : List Stage} {x : Segment} (before : List Nat),
    name ∉ x.tokens →
      Follows name value late stages stages (watched name k late before x) (instantiate x))

include some_segment unused each

/-- The name, used with a bound on the depth, is used as such if its value is. -/
theorem follows_used (previous : Option Ends) {right : Assembling Ends}
    (bound : ∀ t : Assembly, (∀ token, value = [.token token] → resolve? token t.frames ≠ none) →
      right.run t = (chainWith instantiate value previous).run t)
    (unbound : ∀ (t : Assembly) token, value = [.token token] → resolve? token t.frames = none →
      ∃ owner, right.run t = (do
        let ends ← leaf token owner
        connect (previous.getD ⟨[], []⟩) ends
        return ends).run t) :
    Follows name value late (.ready :: stages) (.spent :: stages) (do
        let ends ← watched name depth late (previous.getD ⟨[], []⟩).sinks (.token name)
        connect (previous.getD ⟨[], []⟩) ends
        return ends) right := by
  cases depth with
  | zero => exact ⟨fun _ _ _ run => (nomatch run), fun _ _ _ => .stopped _ _⟩
  | succ depth =>
    exact follows_name (follows_use some_segment unused (fun late => each depth (Nat.le_succ depth))
      previous bound unbound)

/-- The use of the name follows the value in its place, behind a piece. -/
theorem follows_used_chain (previous : Option Ends) :
    Follows name value late (.ready :: stages) (.spent :: stages) (do
        let ends ← watched name depth late (previous.getD ⟨[], []⟩).sinks (.token name)
        connectFrom previous ends
        return ends) (chainWith instantiate value previous) := by
  simp only [connectFrom_eq_connect]
  refine follows_used some_segment unused each previous (fun t _ => rfl)
    fun t token is unbound => ⟨none, ?_⟩
  rw [is, chainWith_cons, StateT.run_bind, StateT.run_bind, run_instantiate_unbound unbound]
  simp only [connectFrom_eq_connect]
  rfl

/-- The use of the name follows the value in its place, as the value of another definition. -/
theorem follows_used_value (owner : String) :
    Follows name value late (.ready :: stages) (.spent :: stages)
      (watched name depth late [] (.token name))
      (valueWith (fun segments => chainWith instantiate segments none) owner value) := by
  have unlinked (ends : Ends) : connect ⟨[], []⟩ ends = pure () :=
    (connectFrom_eq_connect none ends).symm
  have run_single (token : String) (t : Assembly) :
      (valueWith (fun segments => chainWith instantiate segments none) owner [.token token]).run t
        = (if (resolve? token t.frames).isSome then chainWith instantiate [.token token] none
          else leaf token (some owner)).run t := rfl
  have left : watched name depth late [] (.token name) = (do
      let ends ← watched name depth late ((none : Option Ends).getD ⟨[], []⟩).sinks (.token name)
      connect ((none : Option Ends).getD ⟨[], []⟩) ends
      return ends) := by
    simp only [Option.getD_none, unlinked, pure_bind, bind_pure]
  rw [left]
  refine follows_used some_segment unused each none (fun t bound => ?_)
    fun t token is unbound => ⟨some owner, ?_⟩
  · by_cases single : ∃ token, value = [.token token]
    · obtain ⟨token, is⟩ := single
      rw [is, run_single, if_pos (Option.isSome_iff_ne_none.mpr (bound token is))]
    · rw [valueWith_eq _ _ single]
  · rw [is, run_single, unbound]
    simp [unlinked]

/-- A chain with the name in it, behind a piece, follows the chain with the value in its place. -/
theorem follows_used_spliced {before after : List Segment}
    (clean : name ∉ Segment.tokensAll before ∧ name ∉ Segment.tokensAll after)
    (previous : Option Ends) :
    Follows name value late (.ready :: stages) (.spent :: stages)
      (chainFrom (watched name depth late) previous (before ++ .token name :: after))
      (chainWith instantiate (before ++ (value ++ after)) previous) :=
  follows_spliced some_segment clean (each depth le_rfl)
    (follows_used_chain some_segment unused each) previous

end

/-- A watched segment follows the segment, with a definition inlined in it or not, by induction on
the depth. -/
theorem follows_watched (some_segment : value ≠ []) (unused : name ∉ Segment.tokensAll value)
    (depth : Nat) {x y : Segment} (before : List Nat) (same : Segment.Inlined name value x y) :
    Follows name value late stages stages (watched name depth late before x) (instantiate y) := by
  induction depth using Nat.strong_induction_on generalizing late stages x y before with
  | _ depth ih =>
    cases depth with
    | zero => exact .fatal _
    | succ depth =>
      have advances := advances_watched name (depth + 1) late before x
      rw [instantiate_eq_step, step_eq_stepWith]
      rw [watched] at advances ⊢
      have each (k : Nat) (le : k ≤ depth) {late : List Edge} {stages : List Stage} {x : Segment}
          (before : List Nat) (clean : name ∉ x.tokens) :
          Follows name value late stages stages (watched name k late before x) (instantiate x) :=
        ih k (Nat.lt_succ_of_le le) before (.same clean)
      have plain (stages : List Stage) (xs ys : List Segment)
          (same : List.Forall₂ (Segment.Inlined name value) xs ys) :
          Follows name value late stages stages (chainFrom (watched name depth late) none xs)
            (chainWith instantiate ys none) :=
        follows_chainFrom (same.imp fun x y inlined before =>
          ih depth (Nat.lt_succ_self depth) before inlined) none
      have spliced (stages : List Stage) (before after : List Segment)
          (clean : name ∉ Segment.tokensAll before ∧ name ∉ Segment.tokensAll after) :
          Follows name value late (.ready :: stages) (.spent :: stages)
            (chainFrom (watched name depth late) none (before ++ .token name :: after))
            (chainWith instantiate (before ++ (value ++ after)) none) :=
        follows_used_spliced some_segment unused each clean none
      have modules {body body' : List Statement} (parts : Inlines.Parts name value body body')
          (advances : Advances (stepWith _ _ (.module body))) :
          Follows name value late stages stages (stepWith (fun owner segments =>
            if owner = some name then valueFrom (watched name depth) late before segments
            else chainFrom (watched name depth late) none segments) (closeApart late)
              (.module body))
            (stepWith (fun _ segments => chainWith instantiate segments none) closeModule
              (.module body')) :=
        follows_module parts advances plain spliced follows_closeApart
      cases same with
      | module inlines once => exact modules (inlines.parts once) advances
      | same unused' =>
        cases x with
        | module body =>
          exact modules
            (.deeper (Inlines.chains_same unused') (Inlines.definitions_same unused')) advances
        | token text =>
          have other : text ≠ name := by
            rintro rfl
            exact unused' List.mem_cons_self
          -- only the value of the name is chained in another way
          have owner : some text ≠ some name := other ∘ Option.some.inj
          have chained : (fun segments => if some text = some name then
                valueFrom (watched name depth) late before segments
              else chainFrom (watched name depth late) none segments)
              = chainFrom (watched name depth late) none := funext fun _ => if_neg owner
          refine follows_token other advances (fun stages xs ys same => ?_)
            fun stages before' after clean => ?_
          · rw [if_neg owner]
            exact plain stages xs ys same
          · rw [chained]
            exact follows_valueWith_spliced text some_segment (spliced stages _ _ clean)
              (follows_used_value some_segment unused each text)

/-! ## The top level -/

section

variable {g : List Nat → Segment → Assembling Ends} {h : Segment → Assembling Ends}

theorem follows_beginsBound {x y : Segment} (same : Segment.Inlined name value x y)
    (xs ys : List Segment) :
    Follows name value late stages stages (beginsBound (x :: xs)) (beginsBound (y :: ys)) := by
  cases same with
  | module => exact .pure false
  | same unused =>
    cases x with
    | module body => exact .pure false
    | token text =>
      refine follows_isBound ?_
      rintro rfl
      exact unused List.mem_cons_self

theorem follows_continueFrom {xs ys : List Segment}
    (same : List.Forall₂ (Segment.Inlined name value) xs ys)
    (each : ∀ {x y} before, Segment.Inlined name value x y →
      Follows name value late stages stages (g before x) (h y)) (tail : Option Ends) :
    Follows name value late stages stages (continueFrom g tail xs) (continueWith h tail ys) := by
  have begins : Follows name value late stages stages (beginsBound xs) (beginsBound ys) := by
    cases same with
    | nil => exact .pure false
    | cons first _ => exact follows_beginsBound first _ _
  exact begins.bind fun bound => (follows_chainFrom (same.imp fun x y inlined before =>
    each before inlined) _).bind fun ends => .pure _

/-- The chains of the top level, of which none begins with the name. -/
theorem follows_topLevel (some_segment : value ≠ []) (unused : name ∉ Segment.tokensAll value)
    (depth : Nat) {a b : List Statement} (parts : Inlines.Parts name value a b)
    (nodup : (names a).Nodup) (later : ∀ rest, .token name :: rest ∉ chains a) :
    Follows name value [] [] []
      (inFrame ((definitions a).map fun d => (d.1, .fresh d.2)) (topLevelWatched name depth a))
      (inFrame ((definitions b).map fun d => (d.1, .fresh d.2)) (topLevelWith instantiate b)) := by
  have plain (stages : List Stage) {xs ys : List Segment}
      (same : List.Forall₂ (Segment.Inlined name value) xs ys) (tail : Option Ends) :
      Follows name value [] stages stages (continueFrom (watched name depth []) tail xs)
        (continueWith instantiate tail ys) :=
    follows_continueFrom same (fun before inlined =>
      follows_watched some_segment unused depth before inlined) tail
  obtain ⟨related, same⟩ | ⟨related, earlier, rest, before, after, split, split', unused'⟩ :=
    parts.scopes nodup
  · have all := Follows.foldlM (same.imp fun xs ys same tail => plain [.idle] same tail) none
    exact .inFrame related (all.bind fun _ => .pure ())
  obtain ⟨unusedBefore, unused'⟩ := List.forall_mem_cons.mp unused'
  obtain ⟨unusedAfter, unused'⟩ := List.forall_mem_cons.mp unused'
  have others (stages : List Stage) (part : List (List Segment)) (among : part ⊆ earlier ++ rest)
      (tail : Option Ends) : Follows name value [] stages stages
        (part.foldlM (continueFrom (watched name depth [])) tail)
        (part.foldlM (continueWith instantiate) tail) :=
    .foldlM (List.forall₂_same.mpr fun segments member tail =>
      plain stages (Segment.inlined_same (unused' segments (among member))) tail) tail
  have here (tail : Option Ends) : Follows name value [] [.ready] [.spent]
      (continueFrom (watched name depth []) tail (before ++ .token name :: after))
      (continueWith instantiate tail (before ++ (value ++ after))) := by
    cases before with
    | nil => exact absurd (split ▸ List.mem_append_right _ List.mem_cons_self) (later after)
    | cons x xs =>
      have begins := List.forall₂_cons.mp (@Segment.inlined_same name value _ unusedBefore)
      refine (follows_beginsBound begins.1 _ _).bind fun bound => ?_
      exact (follows_used_spliced some_segment unused (fun k _ _ _ _ before clean =>
        follows_watched some_segment unused k before (.same clean))
        ⟨unusedBefore, unusedAfter⟩ _).bind fun ends => .pure _
  have all : Follows name value [] [.ready] [.spent] (topLevelWatched name depth a)
      (topLevelWith instantiate b) := by
    show Follows name value [] _ _ (((chains a).foldlM _ none) >>= _)
      (((chains b).foldlM (continueWith instantiate) none) >>= _)
    rw [split, split', List.foldlM_append, List.foldlM_append]
    simp only [List.foldlM_cons]
    refine Follows.bind ?_ fun _ => .pure ()
    refine (others _ earlier (List.subset_append_left _ _) none).bind fun tail => ?_
    exact (here tail).bind fun tail => others _ rest (List.subset_append_right _ _) tail
  exact .inFrame related all

end

/-- Where nothing is late, what is assembled is the same apart from the keys and the order of the
edges. -/
theorem Meets.outcome {p q : Outcome CompileError (Unit × Assembly)}
    (meets : Meets name value [] [] p q) (apart : ∀ reason, p >>= (·.2.outcome) ≠ .stop reason) :
    ((∃ x, p >>= (·.2.outcome) = .ok x) ↔ ∃ y, q >>= (·.2.outcome) = .ok y)
      ∧ ∀ x y, p >>= (·.2.outcome) = .ok x → q >>= (·.2.outcome) = .ok y →
        x.components.graph.vertices.map Component.blueprint
            = y.components.graph.vertices.map Component.blueprint
          ∧ (∀ u v, x.components.graph.Adj u v ↔ y.components.graph.Adj u v)
          ∧ x.components.exits = y.components.exits := by
  cases meets with
  | stopped reason => exact absurd rfl (apart reason)
  | failed failure failure' => exact ⟨⟨nofun, nofun⟩, nofun⟩
  | refused failure isLate => exact absurd isLate List.not_mem_nil
  | @ok _ s t lags =>
    show ((∃ x, s.outcome = .ok x) ↔ ∃ y, t.outcome = .ok y)
      ∧ ∀ x y, s.outcome = .ok x → t.outcome = .ok y → _
    unfold Assembly.outcome
    rw [lags.size]
    split
    · exact ⟨⟨nofun, nofun⟩, nofun⟩
    · refine ⟨⟨fun _ => ⟨_, rfl⟩, fun _ => ⟨_, rfl⟩⟩, ?_⟩
      rintro _ _ ⟨⟩ ⟨⟩
      exact ⟨lags.blueprints, fun u v => lags.edges.mem_iff.symm, lags.exits⟩

end Assembling

namespace ComponentGraph

/-- Naming a chain that is used once is the same as writing it in place, where no module is closed
in between that would get other ends from the links to its first segment. The name does not begin a
chain of the top level: such a chain starts anew, and one in its place would continue the last. -/
theorem assemble_inlined {a b : List Statement} (inlines : Inlines name value a b)
    (some_segment : value ≠ []) (once : (Statement.tokensAll a).count name = 1)
    (later : ∀ rest, .token name :: rest ∉ chains a)
    (apart : ∀ reason, assembleWatched name a ≠ Outcome.stop reason) :
    ((∃ assembled, assemble a = .ok assembled) ↔ ∃ assembled, assemble b = .ok assembled)
      ∧ ∀ assembled assembled', assemble a = .ok assembled → assemble b = .ok assembled' →
        assembled.components.graph.vertices.map Component.blueprint
            = assembled'.components.graph.vertices.map Component.blueprint
          ∧ (∀ u v, assembled.components.graph.Adj u v ↔ assembled'.components.graph.Adj u v)
          ∧ assembled.components.exits = assembled'.components.exits := by
  have parts := inlines.parts once
  have watching : assembleWatched name a = assemble a :=
    (assembleWatched_eq name a).resolve_left fun ⟨reason, stopped⟩ => apart reason stopped
  have unbounded : assemble b = assembleWith instantiate b :=
    (assembleWith_spec (f := segment (Statement.sizeAll b + 1)) fun x s less =>
      settles_instantiate (by omega)).1
  let start : Assembly := ⟨.empty, [], []⟩
  have left : assembleWatched name a = (do
      let f ← frameOf a
      inFrame f (topLevelWatched name (Statement.sizeAll a + 1) a) : Assembling Unit).run start
        >>= (·.2.outcome) := rfl
  have right : assembleWith instantiate b = (do
      let f ← frameOf b
      inFrame f (topLevelWith instantiate b) : Assembling Unit).run start >>= (·.2.outcome) := rfl
  rw [← watching, unbounded, left, right]
  rw [left] at apart
  refine (?_ : Meets name value [] [] _ _).outcome apart
  by_cases nodup : (names a).Nodup
  · rw [frameOf_eq nodup, frameOf_eq (parts.nodup_iff.mp nodup), pure_bind, pure_bind]
    exact (follows_topLevel some_segment (inlines.unused_value once) (Statement.sizeAll a + 1)
      parts nodup later).meets start start ⟨rfl, .refl _, .nil, rfl, .nil⟩
  · obtain ⟨failure, failed⟩ := run_frameOf_error nodup start
    obtain ⟨failure', failed'⟩ := run_frameOf_error (nodup ∘ parts.nodup_iff.mpr) start
    rw [StateT.run_bind, StateT.run_bind, failed, failed']
    exact .failed failure failure'

/-- A name in the middle of a chain, in a module, whose value is two modules that are linked one to
one. The edges are the same, made in another order. -/
theorem assemble_inlined_modules :
    let pair (x y : String) : Segment := .module [.chain [.token x], .chain [.token y]]
    let named : List Statement := [.chain [.token "9N", .module [
      .define "A" [pair "2N" "3N", pair "4N" "5N"],
      .chain [pair "6N" "7N", .token "A", .token "8N"]]]]
    let inPlace : List Statement := [.chain [.token "9N", .module [
      .chain [pair "6N" "7N", pair "2N" "3N", pair "4N" "5N", .token "8N"]]]]
    ∃ assembled assembled', assemble named = .ok assembled ∧ assemble inPlace = .ok assembled'
      ∧ assembled.components.graph.edges
        = [(0, 2), (0, 1), (6, 7), (5, 7), (2, 4), (1, 3), (4, 6), (3, 5)]
      ∧ assembled'.components.graph.edges
        = [(0, 2), (0, 1), (6, 7), (5, 7), (4, 6), (3, 5), (2, 4), (1, 3)]
      ∧ (∀ u v, assembled.components.graph.Adj u v ↔ assembled'.components.graph.Adj u v)
      ∧ assembled.components.exits = assembled'.components.exits := by
  intro pair named inPlace
  have inlines : Inlines "A" [pair "2N" "3N", pair "4N" "5N"] named inPlace :=
    .inChain [] [] [.token "9N"] [] (.here [] [.chain [pair "6N" "7N", .token "A", .token "8N"]]
      (by decide) (.inChain [] [] [pair "6N" "7N"] [.token "8N"]))
  have evaluates : (assemble named).toOption.any (fun assembled =>
      (assemble inPlace).toOption.any fun assembled' => assembled.components.graph.edges
          == [(0, 2), (0, 1), (6, 7), (5, 7), (2, 4), (1, 3), (4, 6), (3, 5)]
        && assembled'.components.graph.edges
          == [(0, 2), (0, 1), (6, 7), (5, 7), (4, 6), (3, 5), (2, 4), (1, 3)]) = true := by
    decide +kernel
  have watches : (assembleWatched "A" named).toOption.isSome = true := by decide +kernel
  have apart (reason : Fatality) : assembleWatched "A" named ≠ Outcome.stop reason := by
    intro stopped
    rw [stopped] at watches
    cases watches
  have later (rest : List Segment) : .token "A" :: rest ∉ chains named := by
    intro member
    obtain ⟨first, -⟩ := List.cons.inj (List.mem_singleton.mp member)
    exact absurd (Segment.token.inj first) (by decide)
  obtain ⟨assembled, success, evaluates⟩ := except_exists_of_any evaluates
  obtain ⟨assembled', success', evaluates⟩ := except_exists_of_any evaluates
  obtain ⟨edges, edges'⟩ := Bool.and_eq_true _ _ ▸ evaluates
  obtain ⟨-, same⟩ := assemble_inlined inlines (by decide) (by decide) later apart
  obtain ⟨-, adjacent, exits⟩ := same assembled assembled' success success'
  exact ⟨assembled, assembled', success, success', eq_of_beq edges, eq_of_beq edges', adjacent,
    exits⟩

/-- None of the conditions can be left out. In the first lists `A` is linked to `X` and `6N` after
its second module is closed; in its place, its first module is linked to them before. The second
module has both ends of the link from `X` to `Y` as members, so `X` is an exit of it in the one
case, with an edge to `7N`, and not in the other. A scope that defines the name twice is refused,
until one of the definitions is inlined, and so is a value without segments. -/
theorem assemble_inlined_otherwise :
    let value : List Segment := [.module [.chain [.token "Y"], .chain [.token "5N"]],
      .module [.chain [.token "1N"], .define "S" [.token "2N"], .chain [.token "S", .token "X"],
        .chain [.token "S", .token "Y"]]]
    let before : Segment := .module [.chain [.token "X"], .chain [.token "6N"]]
    let others : List Statement := [.define "X" [.token "3N"], .define "Y" [.token "4N"]]
    let named := others ++ .define "A" value :: [.chain [before, .token "A", .token "7N"]]
    let inPlace := others ++ [.chain (before :: value ++ [.token "7N"])]
    (Inlines "A" value named inPlace ∧ (Statement.tokensAll named).count "A" = 1
      ∧ (∀ rest, .token "A" :: rest ∉ chains named)
      ∧ ∃ assembled assembled', assemble named = .ok assembled ∧ assemble inPlace = .ok assembled'
        ∧ assembled.components.graph.Adj 0 6 ∧ ¬ assembled'.components.graph.Adj 0 6
        ∧ assembled.components.exits = [[0, 2, 4], [2, 3], [0, 1]]
        ∧ assembled'.components.exits = [[2, 4], [2, 3], [0, 1]])
    ∧ ((assemble [.define "A" [.token "3N"], .define "A" [.token "4N"],
          .chain [.token "5N", .token "A"]]).toOption.isNone
      ∧ (assemble [.define "A" [.token "4N"], .chain [.token "5N", .token "3N"]]).toOption.isSome)
    ∧ (assemble [.define "A" [], .chain [.token "3N", .token "A"]]).toOption.isNone
      ∧ (assemble [.chain [.token "3N"]]).toOption.isSome := by
  intro value before others named inPlace
  have inlines : Inlines "A" value named inPlace :=
    .here others [.chain [before, .token "A", .token "7N"]] (by decide)
      (.inChain others [] [before] [.token "7N"])
  have later (rest : List Segment) : .token "A" :: rest ∉ chains named := by
    intro member
    have differs : Segment.token "A" ≠ before := nofun
    exact differs (List.cons.inj (List.mem_singleton.mp member)).1
  have evaluates : (assemble named).toOption.any (fun assembled =>
      (assemble inPlace).toOption.any fun assembled' =>
        decide (assembled.components.graph.Adj 0 6)
          && !decide (assembled'.components.graph.Adj 0 6)
          && assembled.components.exits == [[0, 2, 4], [2, 3], [0, 1]]
          && assembled'.components.exits == [[2, 4], [2, 3], [0, 1]]) = true := by
    decide +kernel
  obtain ⟨assembled, success, evaluates⟩ := except_exists_of_any evaluates
  obtain ⟨assembled', success', evaluates⟩ := except_exists_of_any evaluates
  simp only [Bool.and_eq_true, decide_eq_true_eq, Bool.not_eq_true', decide_eq_false_iff_not,
    beq_iff_eq] at evaluates
  obtain ⟨⟨⟨adjacent, apart⟩, exits⟩, exits'⟩ := evaluates
  refine ⟨⟨inlines, by decide, later, assembled, assembled', success, success', adjacent, apart,
    exits, exits'⟩, ?_⟩
  decide +kernel

end ComponentGraph

end LayerNet
