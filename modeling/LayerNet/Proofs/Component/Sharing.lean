import LayerNet.Proofs.Component.Accounting
import LayerNet.Proofs.Component.Frames
import LayerNet.Proofs.Component.Invariance
import Mathlib.Data.List.Perm.Subperm

/-!
# Sharing — definitions are shared, never copied

However often names are used, an assembly makes at most one component for each token that is
written, and begins each definition at most once; all references to a definition get the ends that
it ended with (`assemble_shares`).

Every segment costs its own marks at most (`accounts_segment`, by induction on the depth), and a
definition costs nothing beyond what it had left in its frame (`advance_define`). No mark occurs
twice in the statements, so none is paid twice.
-/

namespace LayerNet

section

variable {α : Type} {scopes : List Scope} {within : List Nat} {needs : List Mark}
  {s s' : Assembly} {journal : List Event}

/-! ## Layers, edges and chains -/

theorem accounts_leaf (scopes : List Scope) (site : Site) (token : String) (name : Option String) :
    Accounts scopes site.within [.token site token] (Journaling.leaf site token name) := by
  rintro ⟨s, journal⟩ a p' sound reached run
  obtain ⟨ends, p₁, ran, run₁⟩ := Outcome.run_bind_eq_ok.mp run
  obtain ⟨s', made, rfl⟩ := plain_eq_ok.mp ran
  cases run₁
  unfold Assembling.leaf at made
  split at made
  · cases made
  next blueprint read =>
    cases made
    exact .make sound reached read name

theorem keeps_modifyGraph {f : ComponentGraph → Except CompileError ComponentGraph}
    (keeps : ∀ c c', f c = .ok c' → c'.graph.vertices = c.graph.vertices) {u : Unit}
    (run : (Assembling.modifyGraph f).run s = .ok (u, s')) :
    s'.frames = s.frames ∧ s'.components.graph.vertices = s.components.graph.vertices := by
  unfold Assembling.modifyGraph at run
  obtain ⟨_, _, got, run⟩ := Outcome.run_bind_eq_ok.mp run
  cases got
  split at run
  next components changed =>
    cases run
    exact ⟨rfl, keeps _ _ changed⟩
  · cases run

theorem accounts_connect (a b : Ends) :
    Accounts scopes within [] (Journaling.plain (Assembling.connect a b)) := by
  refine .plain fun s u s' run => ?_
  unfold Assembling.connect at run
  generalize Assembling.linksBetween a b = edges at run
  induction edges generalizing s with
  | nil =>
    cases run
    exact ⟨rfl, rfl⟩
  | cons edge edges ih =>
    obtain ⟨_, s₁, first, others⟩ := Outcome.run_bind_eq_ok.mp run
    have kept := keeps_modifyGraph (fun c c' linked => ?_) first
    · obtain ⟨frames, vertices⟩ := ih s₁ others
      exact ⟨frames.trans kept.1, vertices.trans kept.2⟩
    · unfold ComponentGraph.link at linked
      split at linked <;> cases linked
      rfl

theorem accounts_closeModule (first : Nat) (chains : List Ends) :
    Accounts scopes within [] (Journaling.plain (Assembling.closeModule first chains)) := by
  refine .plain fun s ends s' run => ?_
  obtain ⟨_, s₁, looked, run₁⟩ := Outcome.run_bind_eq_ok.mp run
  cases looked
  dsimp only at run₁
  split at run₁
  · obtain ⟨_, s₂, changed, run₂⟩ := Outcome.run_bind_eq_ok.mp run₁
    cases run₂
    exact keeps_modifyGraph (fun c c' same => by cases same; rfl) changed
  · cases run₁
    exact ⟨rfl, rfl⟩

/-- A chain costs what its segments do. -/
theorem accounts_chainWith {g : Site → Segment → Journaling Ends} {placed : List (Site × Segment)}
    (each : ∀ q ∈ placed, Accounts scopes within (placedMarks q) (g q.1 q.2))
    (previous : Option Ends) :
    Accounts scopes within (placed.flatMap placedMarks)
      (Journaling.chainWith g placed previous) := by
  rw [← List.append_nil (placed.flatMap placedMarks)]
  refine (Accounts.foldlM placed (fun p q member => ?_) _).bind fun p => ?_
  · rw [← List.append_nil (placedMarks q)]
    refine (each q member).bind fun ends => ?_
    obtain ⟨head, last⟩ := p
    cases last with
    | none => exact .pure [] _
    | some last => exact (accounts_connect last ends).bind fun _ => .pure [] _
  · obtain ⟨head, last⟩ := p
    cases head with
    | none => exact .plain fun _ _ _ failed => nomatch failed
    | some head =>
      cases last with
      | none => exact .plain fun _ _ _ failed => nomatch failed
      | some last => exact .pure _ _

/-! ## Definitions -/

theorem run_bindName {name : String} {binding : Binding} {f : Frame} {rest : List Frame}
    (frames : s.frames = f :: rest) {u : Unit}
    (run : (Assembling.bind name binding).run s = .ok (u, s')) :
    s' = { s with frames := f.put name binding :: rest } := by
  cases run
  simp only [frames]

/-- What a definition had left in its frame is free once it is begun, but for that it is begun. -/
theorem begin_define {c : Scope} {f : Frame} {rest : List Frame} {name : String} {site : Site}
    {value : List Segment} (sound : Sound (c :: scopes) s journal) (frames : s.frames = f :: rest)
    (here : c.lookup name = some site) (found : f.find? name = some (.fresh value))
    (reached : Reached journal site.within) :
    Sound (c :: scopes) { s with frames := f.put name .pending :: rest }
        (.begun site name :: journal)
      ∧ Reached (.begun site name :: journal) (site.number :: site.within)
      ∧ ∀ mark, budget (c :: scopes)
          ({ s with frames := f.put name .pending :: rest }, .begun site name :: journal) mark
        + (Segment.marksAll (site.number :: site.within) (site.number + 1) value
          ++ [Mark.finish site name]).count mark ≤ budget (c :: scopes) (s, journal) mark := by
  have begun : Advance (c :: scopes) [.start site name] (s, journal)
      (s, .begun site name :: journal) :=
    Advance.note sound (.begun site name) rfl (by rintro _ ⟨⟩; exact reached) nofun
  obtain ⟨put, freed⟩ := Advance.put begun.sound frames here .pending rfl nofun
  refine ⟨put.sound, fun n member => ?_, fun mark => ?_⟩
  · rcases List.mem_cons.mp member with rfl | member
    · exact ⟨site, name, rfl, List.mem_cons_self⟩
    · exact reached.mono begun.grows n member
  · have marks : (Statement.define name value).marks site.within site.number
        = [.start site name] ++ ([.finish site name]
          ++ Segment.marksAll (site.number :: site.within) (site.number + 1) value) := rfl
    have freed := freed value found mark
    have started := begun.spends mark
    rw [marks, List.count_append, List.count_append] at freed
    rw [List.count_append]
    dsimp only at freed
    omega

/-- A definition ends with the ends of its value. -/
theorem end_define {c : Scope} {name : String} {site : Site} {x : Journaling Ends}
    {p p' : Assembly × List Event} {ends : Ends} (sound : Sound (c :: scopes) p.1 p.2)
    (here : c.lookup name = some site) (reached : Reached p.2 (site.number :: site.within))
    (accounts : Accounts (c :: scopes) (site.number :: site.within) needs x)
    (run : (x >>= fun ends => do
      Journaling.note (.ended site name ends)
      Journaling.plain (Assembling.bind name (.done ends))
      return ends).run p = .ok (ends, p')) :
    Advance (c :: scopes) (needs ++ [.finish site name]) p p' := by
  obtain ⟨ends', ⟨s₁, journal₁⟩, ran, run₁⟩ := Outcome.run_bind_eq_ok.mp run
  obtain ⟨_, p₂, noted, run₂⟩ := Outcome.run_bind_eq_ok.mp run₁
  obtain ⟨_, p₃, done, run₃⟩ := Outcome.run_bind_eq_ok.mp run₂
  obtain ⟨s₃, bound, rfl⟩ := plain_eq_ok.mp done
  cases noted
  have step := accounts p ends' (s₁, journal₁) sound reached ran
  obtain ⟨f, rest, -, -, frames⟩ := List.forall₂_cons_right_iff.mp step.sound.frames
  obtain rfl := run_bindName frames bound
  cases run₃
  have around : Reached journal₁ site.within := fun n member =>
    (reached.mono step.grows) n (List.mem_cons_of_mem _ member)
  have ended : Advance (c :: scopes) [.finish site name] (s₁, journal₁)
      (s₁, .ended site name ends :: journal₁) :=
    Advance.note step.sound (.ended site name ends) rfl (by rintro _ ⟨⟩; exact around) nofun
  have last := (Advance.put ended.sound frames here (.done ends) rfl
    (by rintro _ ⟨⟩; exact List.mem_cons_self)).1
  exact step.trans (List.append_nil [Mark.finish site name] ▸ ended.trans last)

/-- A definition costs nothing but what it had left in its frame. -/
theorem advance_define {g : Site → Segment → Journaling Ends} {c : Scope} {f : Frame}
    {rest : List Frame} {name : String} {site : Site} {value : List Segment}
    {p' : Assembly × List Event} {ends : Ends} (sound : Sound (c :: scopes) s journal)
    (frames : s.frames = f :: rest) (here : c.lookup name = some site)
    (found : f.find? name = some (.fresh value)) (reached : Reached journal site.within)
    (each : ∀ q ∈ site.value value, Accounts (c :: scopes) (site.number :: site.within)
      (placedMarks q) (g q.1 q.2))
    (run : (Journaling.define g site name value).run (s, journal) = .ok (ends, p')) :
    Advance (c :: scopes) [] (s, journal) p' := by
  obtain ⟨_, p₁, noted, run₁⟩ := Outcome.run_bind_eq_ok.mp run
  obtain ⟨_, p₂, pending, run₂⟩ := Outcome.run_bind_eq_ok.mp run₁
  obtain ⟨s₂, bound, rfl⟩ := plain_eq_ok.mp pending
  cases noted
  obtain rfl := run_bindName frames bound
  obtain ⟨started, inside, freed⟩ := begin_define sound frames here found reached
  have ended : Advance (c :: scopes)
      (Segment.marksAll (site.number :: site.within) (site.number + 1) value ++ [.finish site name])
      ({ s with frames := f.put name .pending :: rest }, .begun site name :: journal) p' := by
    have chain := accounts_chainWith each none
    rw [Site.value, flatMap_segmentsFrom] at chain
    dsimp only at run₂
    split at run₂
    next token =>
      obtain ⟨isBound, p₃, looked, run₃⟩ := Outcome.run_bind_eq_ok.mp run₂
      obtain ⟨s₃, looked, rfl⟩ := plain_eq_ok.mp looked
      cases looked
      split at run₃
      · exact end_define started here inside chain run₃
      · have leaf := accounts_leaf (c :: scopes)
          ⟨site.number + 1, site.number :: site.within⟩ token (some name)
        exact end_define started here inside leaf run₃
    · exact end_define started here inside chain run₂
  refine ⟨ended.sound, (List.suffix_cons _ journal).trans ended.grows, fun mark => ?_⟩
  have freed := freed mark
  have spent := ended.spends mark
  rw [List.count_nil]
  omega

/-! ## Modules and segments -/

/-- The frame of a statement list has the sites of its definitions. -/
theorem forall₂_scopeFrom (reached : Reached journal within) (n : Nat)
    (statements : List Statement) : List.Forall₂ (Bound journal)
      ((definitions statements).map fun d => (d.1, .fresh d.2))
      (scopeFrom within n statements) := by
  induction statements generalizing n with
  | nil => exact .nil
  | cons statement rest ih =>
    cases statement with
    | define name value => exact .cons ⟨rfl, reached, nofun⟩ (ih _)
    | chain segments => exact ih _

/-- The statements of a scope of its own cost their marks, when their segments do. -/
theorem accounts_scope {n : Nat} {statements : List Statement} {x : Journaling α}
    (apart : ((definitions statements).map Prod.fst).Nodup)
    (inside : Accounts (scopeFrom within n statements :: scopes) within
      ((chainsFrom within n statements).flatMap (List.flatMap placedMarks)) x) :
    Accounts scopes within (Statement.marksAll within n statements)
      (Journaling.inFrame ((definitions statements).map fun d => (d.1, .fresh d.2)) x) := by
  have frame := Accounts.inFrame (fun journal reached => forall₂_scopeFrom reached n statements)
    (map_fst_scopeFrom within n statements ▸ apart) inside
  exact frame.mono fun mark => Nat.le_of_eq (by
    rw [Statement.count_marksAll, List.count_append])

theorem accounts_placed {g : Site → Segment → Journaling Ends} (each : ∀ site x,
      Accounts scopes site.within (x.marks site.within site.number) (g site x))
    {q : Site × Segment} (here : q.1.within = within) :
    Accounts scopes within (placedMarks q) (g q.1 q.2) := by
  subst here
  exact each q.1 q.2

theorem accounts_moduleWith {g : List Scope → Site → Segment → Journaling Ends} {site : Site}
    {body : List Statement} (each : ∀ scopes site x,
      Accounts scopes site.within (x.marks site.within site.number) (g scopes site x)) :
    Accounts scopes site.within ((Segment.module body).marks site.within site.number)
      (Journaling.moduleWith g scopes site body) := by
  rintro ⟨s, journal⟩ a p' sound reached run
  obtain ⟨_, p₁, noted, run₁⟩ := Outcome.run_bind_eq_ok.mp run
  obtain ⟨f, p₂, framed, run₂⟩ := Outcome.run_bind_eq_ok.mp run₁
  obtain ⟨s₃, p₃, looked, run₃⟩ := Outcome.run_bind_eq_ok.mp run₂
  obtain ⟨s₂, frame, rfl⟩ := plain_eq_ok.mp framed
  obtain ⟨apart, rfl, rfl⟩ := Assembling.frameOf_eq_ok_iff.mp frame
  cases noted
  cases looked
  have opened : Advance scopes [.module site] (s, journal) (s, .opened site :: journal) :=
    Advance.note sound (.opened site) rfl (by rintro _ ⟨⟩; exact reached) nofun
  dsimp only at run₃
  split at run₃
  · obtain ⟨_, failed, -⟩ := plain_eq_ok.mp run₃
    cases failed
  · have chains : Accounts (site.scope body :: scopes) site.within
        ((site.chains body).flatMap (List.flatMap placedMarks))
        ((site.chains body).mapM fun segments =>
          Journaling.chainWith (g (site.scope body :: scopes)) segments none) :=
      .mapM _ fun placed chain => accounts_chainWith (fun q member =>
        accounts_placed (each _) (mem_chainsFrom chain q member)) none
    have closed := (accounts_scope apart chains).bind fun chainEnds =>
      accounts_closeModule s.components.size chainEnds
    rw [List.append_nil] at closed
    exact opened.trans (closed _ _ _ opened.sound (reached.mono opened.grows) run₃)

/-- A segment costs its marks, to any depth. -/
theorem accounts_segment (depth : Nat) (scopes : List Scope) (site : Site) (x : Segment) :
    Accounts scopes site.within (x.marks site.within site.number)
      (Journaling.segment depth scopes site x) := by
  induction depth generalizing scopes site x with
  | zero =>
    intro p a p' _ _ run
    obtain ⟨_, failed, -⟩ := plain_eq_ok.mp run
    cases failed
  | succ depth ih =>
    cases x with
    | module body => exact accounts_moduleWith ih
    | token text =>
      rintro ⟨s, journal⟩ ends p' sound reached run
      obtain ⟨_, p₁, looked, run₁⟩ := Outcome.run_bind_eq_ok.mp run
      cases looked
      -- a bound name has its site in the scope that has its frame
      have inScope {outer : Nat} {binding : Binding}
          (found : Assembling.resolve? text s.frames = some (outer, binding)) :
          ∃ c rest f frames, scopes.drop outer = c :: rest ∧ s.frames.drop outer = f :: frames
            ∧ f.find? text = some binding ∧ c.lookup text = some (siteIn scopes outer text)
            ∧ Bound journal (text, binding) (text, siteIn scopes outer text) := by
        obtain ⟨f, frames, here, bound⟩ := Assembling.resolve?_spec found
        have pairs := List.forall₂_drop outer sound.frames
        rw [here] at pairs
        obtain ⟨c, rest, first, -, there⟩ := List.forall₂_cons_left_iff.mp pairs
        obtain ⟨site', known, entry⟩ := exists_site first bound
        have same : siteIn scopes outer text = site' := by
          have at_outer : scopes[outer]? = some c := by
            rw [← List.head?_drop, there]
            rfl
          rw [siteIn, at_outer, Option.getD_some, known, Option.getD_some]
        exact ⟨c, rest, f, frames, there, here, bound, same ▸ known, same ▸ entry⟩
      cases found : Assembling.resolve? text s.frames with
      | none =>
        rw [found] at run₁
        exact accounts_leaf _ site text none _ _ _ sound reached run₁
      | some p =>
        obtain ⟨outer, binding⟩ := p
        rw [found] at run₁
        obtain ⟨c, rest, f, frames, scopes', frames', bound, known, entry⟩ := inScope found
        cases binding with
        | pending =>
          obtain ⟨_, failed, -⟩ := plain_eq_ok.mp run₁
          cases failed
        | done ends' =>
          obtain ⟨_, p₂, noted, run₂⟩ := Outcome.run_bind_eq_ok.mp run₁
          cases noted
          cases run₂
          have shared := Advance.note sound (.shared (siteIn scopes outer text) text ends) rfl
            nofun (by rintro _ _ _ ⟨⟩; exact entry.ended ends rfl)
          exact shared.mono fun mark => Nat.zero_le _
        | fresh value =>
          have defined := advance_inOuter [] sound run₁ fun p₁ outside ran => by
            rw [scopes'] at outside ran ⊢
            exact advance_define outside frames' known bound entry.reached
              (fun q member => accounts_placed (ih _) (mem_segmentsFrom member)) ran
          exact defined.mono fun mark => Nat.zero_le _

theorem accounts_topLevel (depth : Nat) (statements : List Statement) :
    Accounts [scopeFrom [] 0 statements] []
      ((chainsFrom [] 0 statements).flatMap (List.flatMap placedMarks))
      (Journaling.topLevel depth statements) := by
  rw [← List.append_nil ((chainsFrom [] 0 statements).flatMap _)]
  refine (Accounts.foldlM _ (fun tail placed chain => ?_) none).bind fun _ => .pure [] ()
  have begins : Accounts [scopeFrom [] 0 statements] [] [] (Journaling.beginsBound placed) := by
    refine .plain fun s bound s' run => ?_
    unfold Assembling.beginsBound at run
    split at run <;> cases run <;> exact ⟨rfl, rfl⟩
  have all (previous : Option Ends) := accounts_chainWith (fun q member =>
    accounts_placed (accounts_segment depth [scopeFrom [] 0 statements])
      (mem_chainsFrom chain q member)) previous
  rw [← List.nil_append (placed.flatMap placedMarks),
    ← List.append_nil (placed.flatMap placedMarks)]
  exact begins.bind fun _ => (all _).bind fun _ => .pure [] _

end

namespace ComponentGraph

/-- An assembly makes its components for tokens that are written, in order, and each for another
token; it opens no module and begins and ends no definition more than once; whatever it does inside
a definition, the definition has been begun; and all references to a definition get the ends with
which it ended. So there are at most as many components as tokens are written. -/
theorem assemble_shares {statements : List Statement} {assembled : Assembled}
    (success : assemble statements = .ok assembled) :
    ∃ journal, assembleJournaled statements = .ok (assembled, journal)
      ∧ List.Forall₂ (fun (token : Site × String) component =>
        Blueprint.read? token.2 = some component.blueprint)
        (madeFor journal).reverse assembled.components.graph.vertices.toList
      ∧ (spent journal).Nodup
      ∧ (∀ mark ∈ spent journal, mark ∈ Statement.marksAll [] 0 statements)
      ∧ (∀ mark ∈ spent journal, Reached journal mark.site.within)
      ∧ (∀ site name ends, .shared site name ends ∈ journal → .ended site name ends ∈ journal)
      ∧ (∀ site name ends ends', .ended site name ends ∈ journal →
        .ended site name ends' ∈ journal → ends = ends')
      ∧ assembled.components.size ≤ (Statement.tokensAll statements).length := by
  obtain ⟨journal, journaled⟩ := (assembleJournaled_eq statements assembled).mp success
  obtain ⟨⟨⟨⟩, s, journal'⟩, run, ends⟩ := Outcome.bind_eq_ok_iff.mp journaled
  obtain ⟨rfl, rfl⟩ : assembled = ⟨s.components, s.unused.reverse⟩ ∧ journal = journal' := by
    dsimp only at ends
    split at ends
    · cases ends
    · cases ends
      exact ⟨rfl, rfl⟩
  obtain ⟨f, p₁, framed, run₁⟩ := Outcome.run_bind_eq_ok.mp run
  obtain ⟨s₁, frame, rfl⟩ := plain_eq_ok.mp framed
  obtain ⟨apart, rfl, rfl⟩ := Assembling.frameOf_eq_ok_iff.mp frame
  have start : Sound [] ⟨.empty, [], []⟩ [] := ⟨.nil, nofun, .nil, nofun, nofun⟩
  obtain ⟨sound, -, spends⟩ := accounts_scope apart (accounts_topLevel _ statements) _ _ _ start
    nofun run₁
  have paid (mark : Mark) :
      (spent journal).count mark ≤ (Statement.marksAll [] 0 statements).count mark := by
    have spends := spends mark
    have nothing : budget [] (⟨.empty, [], []⟩, []) mark = 0 := rfl
    rw [nothing, Nat.zero_add] at spends
    exact Nat.le_trans (Nat.le_add_right _ _) spends
  have all := Statement.marksAll_nodup [] 0 statements
  have once : (spent journal).Nodup := List.nodup_iff_count_le_one.mpr fun mark =>
    Nat.le_trans (paid mark) (List.nodup_iff_count_le_one.mp all mark)
  have written : ∀ mark ∈ spent journal, mark ∈ Statement.marksAll [] 0 statements :=
    fun mark member => List.count_pos_iff.mp
      (Nat.lt_of_lt_of_le (List.count_pos_iff.mpr member) (paid mark))
  refine ⟨journal, journaled, sound.made, once, written, sound.reached, sound.shared,
    fun site name ends ends' => ended_inj once, ?_⟩
  have size : s.components.size = (madeFor journal).length := by
    rw [← List.length_reverse, sound.made.length_eq, Array.length_toList]
    rfl
  rw [size, length_madeFor, ← Statement.countP_marksAll [] 0]
  exact (once.subperm written).countP_le _

/-- Two layers under one name, referred to at the top level and from a module. -/
theorem assemble_shares_reused :
    let statements : List Statement := [.define "A" [.token "3N", .token "4N"],
      .chain [.token "2N", .token "A"],
      .chain [.module [.chain [.token "A"], .chain [.token "5N"]], .token "6N"]]
    ∃ assembled journal, assemble statements = .ok assembled
      ∧ assembleJournaled statements = .ok (assembled, journal)
      ∧ assembled.components.size = 5 ∧ (Statement.tokensAll statements).length = 7
      ∧ (madeFor journal).length = 5 ∧ (spent journal).Nodup
      ∧ .shared ⟨0, []⟩ "A" ⟨[1], [2]⟩ ∈ journal ∧ .ended ⟨0, []⟩ "A" ⟨[1], [2]⟩ ∈ journal
      ∧ assembled.components.size ≤ (Statement.tokensAll statements).length := by
  intro statements
  have assembles :
      (assemble statements).toOption.any (fun assembled => assembled.components.size == 5)
        = true := by
    decide +kernel
  obtain ⟨assembled, success, five⟩ := except_exists_of_any assembles
  obtain ⟨journal, journaled, made, once, -, -, shared, -, bounded⟩ := assemble_shares success
  have size : assembled.components.size = 5 := beq_iff_eq.mp five
  have many : (madeFor journal).length = 5 := by
    rw [← List.length_reverse, made.length_eq, Array.length_toList]
    exact size
  have shares : (assembleJournaled statements).toOption.any
      (fun result => result.2.contains (.shared ⟨0, []⟩ "A" ⟨[1], [2]⟩)) = true := by
    decide +kernel
  rw [journaled] at shares
  have again : .shared ⟨0, []⟩ "A" ⟨[1], [2]⟩ ∈ journal := List.contains_iff_mem.mp shares
  exact ⟨assembled, journal, success, journaled, size, rfl, many, once, again, shared _ _ _ again,
    bounded⟩

end ComponentGraph

end LayerNet
