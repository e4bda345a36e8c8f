import LayerNet.Architecture.Syntax
import Mathlib.Data.List.Forall2

/-!
# Rearranged statements — definitions moved, added and removed

A definition may stand anywhere in its statement list, and one that nothing refers to may be left
out. `Rearranged` says of two statement lists that they differ in this only: definitions have been
moved past other statements, and definitions with spare names added or removed, in the lists
themselves and in modules at any depth.

What rearranging keeps of a statement list is its outline: its chains in order, and for every name
that is not spare the value it is defined with, where modules are outlines again (`Outline`).
Rearranged lists have the same outline (`Rearranged.outline_eq`), and segments of the same outline
match, part by part (`Statement.Matches`).
-/

namespace LayerNet

/-! ## Tokens and names -/

mutual

/-- The tokens in a segment, as they are written. -/
def Segment.tokens : Segment → List String
  | .token text => [text]
  | .module body => Statement.tokensAll body

/-- The tokens in the segments of a chain. -/
def Segment.tokensAll : List Segment → List String
  | [] => []
  | segment :: rest => segment.tokens ++ Segment.tokensAll rest

/-- The tokens in a statement. The name of a definition is none of them. -/
def Statement.tokens : Statement → List String
  | .define _ value => Segment.tokensAll value
  | .chain segments => Segment.tokensAll segments

/-- The tokens in a statement list. -/
def Statement.tokensAll : List Statement → List String
  | [] => []
  | statement :: rest => statement.tokens ++ Statement.tokensAll rest

end

/-- The names that a statement list defines, not counting those in its modules. -/
def names (statements : List Statement) : List String := (definitions statements).map Prod.fst

mutual

/-- No module in a segment defines a name twice. -/
def Segment.NamesApart : Segment → Prop
  | .token _ => True
  | .module body => (names body).Nodup ∧ Statement.AllNamesApart body

/-- No module in the segments of a chain defines a name twice. -/
def Segment.AllNamesApart : List Segment → Prop
  | [] => True
  | segment :: rest => segment.NamesApart ∧ Segment.AllNamesApart rest

/-- No module in a statement defines a name twice. -/
def Statement.NamesApart : Statement → Prop
  | .define _ value => Segment.AllNamesApart value
  | .chain segments => Segment.AllNamesApart segments

/-- No module in a statement list defines a name twice. -/
def Statement.AllNamesApart : List Statement → Prop
  | [] => True
  | statement :: rest => statement.NamesApart ∧ Statement.AllNamesApart rest

end

/-- No scope defines a name twice, neither the statement list nor any module in it. -/
def DefinesOnce (statements : List Statement) : Prop :=
  (names statements).Nodup ∧ Statement.AllNamesApart statements

theorem Statement.allNamesApart_iff {statements : List Statement} :
    Statement.AllNamesApart statements ↔ ∀ statement ∈ statements, statement.NamesApart := by
  induction statements with
  | nil => simp [Statement.AllNamesApart]
  | cons statement rest ih => rw [Statement.AllNamesApart, ih, List.forall_mem_cons]

theorem Statement.mem_tokensAll {statements : List Statement} {text : String} :
    text ∈ Statement.tokensAll statements ↔
      ∃ statement ∈ statements, text ∈ statement.tokens := by
  induction statements with
  | nil => simp [Statement.tokensAll]
  | cons statement rest ih =>
    rw [Statement.tokensAll, List.mem_append, ih, List.exists_mem_cons_iff]

/-! ## Rearranging -/

/-- Two statement lists differ only in where definitions stand in their lists, at any depth, and in
definitions of spare names. A definition does not move past another of its name. -/
inductive Rearranged (spare : String → Prop) : List Statement → List Statement → Prop
  | refl (statements : List Statement) : Rearranged spare statements statements
  | symm {a b : List Statement} : Rearranged spare a b → Rearranged spare b a
  | trans {a b c : List Statement} : Rearranged spare a b → Rearranged spare b c →
    Rearranged spare a c
  /-- A definition moves past the statement behind it. -/
  | move {name : String} (value : List Segment) {statement : Statement}
    (rest : List Statement) : (∀ other, statement ≠ .define name other) →
    Rearranged spare (.define name value :: statement :: rest)
      (statement :: .define name value :: rest)
  /-- A definition of a spare name is added. -/
  | add {name : String} (value : List Segment) (rest : List Statement) : spare name →
    Rearranged spare rest (.define name value :: rest)
  /-- What stands behind a statement is rearranged. -/
  | behind (statement : Statement) {rest rest' : List Statement} : Rearranged spare rest rest' →
    Rearranged spare (statement :: rest) (statement :: rest')
  /-- A module in a chain is rearranged. -/
  | inChain (before after : List Segment) (rest : List Statement) {body body' : List Statement} :
    Rearranged spare body body' →
    Rearranged spare (.chain (before ++ .module body :: after) :: rest)
      (.chain (before ++ .module body' :: after) :: rest)
  /-- A module in the value of a definition is rearranged. -/
  | inValue (name : String) (before after : List Segment) (rest : List Statement)
    {body body' : List Statement} : Rearranged spare body body' →
    Rearranged spare (.define name (before ++ .module body :: after) :: rest)
      (.define name (before ++ .module body' :: after) :: rest)

/-! ## Outlines -/

/-- What is left of a segment when nothing is said of where definitions stand, nor of those of spare
names. -/
inductive Outline (spare : String → Prop) where
  | token (text : String)
  | module (chains : List (List (Outline spare)))
    (value? : (name : String) → ¬ spare name → Option (List (Outline spare)))

section

variable (spare : String → Prop)

mutual

/-- The outline of a segment. -/
def Segment.outline : Segment → Outline spare
  | .token text => .token text
  | .module body => .module (Statement.chainOutlines body) (Statement.valueOutline? body)

/-- The outlines of the segments of a chain. -/
def Segment.outlines : List Segment → List (Outline spare)
  | [] => []
  | segment :: rest => segment.outline :: Segment.outlines rest

/-- The outlines of the chain that a statement is, if it is one. -/
def Statement.ownChains : Statement → List (List (Outline spare))
  | .define _ _ => []
  | .chain segments => [Segment.outlines segments]

/-- The outlines of the chains of a statement list, in order. -/
def Statement.chainOutlines : List Statement → List (List (Outline spare))
  | [] => []
  | statement :: rest => statement.ownChains ++ Statement.chainOutlines rest

/-- The outlines of the value that a statement defines a name with. -/
def Statement.ownValue? : Statement → (name : String) → ¬ spare name →
    Option (List (Outline spare))
  | .define name value => fun other _ =>
    if other = name then some (Segment.outlines value) else none
  | .chain _ => fun _ _ => none

/-- The outlines of the value that a statement list defines a name with. -/
def Statement.valueOutline? : List Statement → (name : String) → ¬ spare name →
    Option (List (Outline spare))
  | [] => fun _ _ => none
  | statement :: rest => fun name kept =>
    (statement.ownValue? name kept).or (Statement.valueOutline? rest name kept)

end

end

section

variable {spare : String → Prop}

theorem Segment.outlines_eq_map (segments : List Segment) :
    Segment.outlines spare segments = segments.map (Segment.outline spare) := by
  induction segments with
  | nil => rfl
  | cons segment rest ih => rw [Segment.outlines, ih, List.map_cons]

theorem Statement.chainOutlines_eq_map (statements : List Statement) :
    Statement.chainOutlines spare statements
      = (chains statements).map (Segment.outlines spare) := by
  induction statements with
  | nil => rfl
  | cons statement rest ih =>
    cases statement with
    | define name value => exact ih
    | chain segments => exact congrArg (Segment.outlines spare segments :: ·) ih

theorem Statement.valueOutline?_eq_map (statements : List Statement) {name : String}
    (kept : ¬ spare name) : Statement.valueOutline? spare statements name kept
      = ((definitions statements).lookup name).map (Segment.outlines spare) := by
  induction statements with
  | nil => rfl
  | cons statement rest ih =>
    cases statement with
    | chain segments => exact (Option.none_or ..).trans ih
    | define other value =>
      show Option.or (if name = other then _ else none) (valueOutline? spare rest name kept)
        = (List.lookup name ((other, value) :: definitions rest)).map _
      rw [ih, List.lookup_cons]
      by_cases same : name = other
      · rw [if_pos same, same, beq_self_eq_true]
        rfl
      · rw [if_neg same, beq_false_of_ne same]
        rfl

/-- Rearranging keeps the chains and what names stand for. -/
theorem Rearranged.outline_eq {a b : List Statement} (rearranged : Rearranged spare a b) :
    Statement.chainOutlines spare a = Statement.chainOutlines spare b
      ∧ Statement.valueOutline? spare a = Statement.valueOutline? spare b := by
  induction rearranged with
  | refl => exact ⟨rfl, rfl⟩
  | symm _ ih => exact ⟨ih.1.symm, ih.2.symm⟩
  | trans _ _ first second => exact ⟨first.1.trans second.1, first.2.trans second.2⟩
  | behind statement _ ih =>
    refine ⟨congrArg (statement.ownChains spare ++ ·) ih.1, ?_⟩
    funext name kept
    exact congrArg (fun value? => (statement.ownValue? spare name kept).or (value? name kept)) ih.2
  | @move name value statement rest apart =>
    refine ⟨?_, ?_⟩
    · show [] ++ (statement.ownChains spare ++ _) = statement.ownChains spare ++ ([] ++ _)
      rw [List.nil_append, List.nil_append]
    · funext other kept
      show Option.or _ (Option.or _ _) = Option.or _ (Option.or _ _)
      cases statement with
      | chain segments => rfl
      | define name' value' =>
        have differ : name ≠ name' := fun same => apart value' (same ▸ rfl)
        simp only [Statement.ownValue?]
        by_cases first : other = name
        · subst first
          rw [if_pos rfl, if_neg differ]
          rfl
        · rw [if_neg first]
          rfl
  | @add name value rest unused =>
    refine ⟨(List.nil_append _).symm, ?_⟩
    funext other kept
    have differ : other ≠ name := fun same => kept (same ▸ unused)
    show _ = Option.or (if other = name then _ else none) _
    rw [if_neg differ]
    rfl
  | inChain before after rest _ ih =>
    have same := congrArg₂ Outline.module ih.1 ih.2
    refine ⟨?_, rfl⟩
    show [Segment.outlines spare _] ++ _ = [Segment.outlines spare _] ++ _
    simp only [Segment.outlines_eq_map, List.map_append, List.map_cons, Segment.outline, same]
  | inValue name before after rest _ ih =>
    have same := congrArg₂ Outline.module ih.1 ih.2
    refine ⟨rfl, ?_⟩
    funext other kept
    show Option.or (if other = name then some (Segment.outlines spare _) else none) _
      = Option.or (if other = name then some (Segment.outlines spare _) else none) _
    simp only [Segment.outlines_eq_map, List.map_append, List.map_cons, Segment.outline, same]

end

/-! ## Matching parts -/

/-- Two segments of one outline, in which no token is spare and no name is defined twice. -/
structure Segment.Matches (spare : String → Prop) (x y : Segment) : Prop where
  outline : x.outline spare = y.outline spare
  kept : ∀ text, text ∈ x.tokens ∨ text ∈ y.tokens → ¬ spare text
  apart : x.NamesApart ∧ y.NamesApart

/-- Two statement lists whose chains match in order, and that define each name once; they define the
names that are not spare with values that match. -/
structure Statement.Matches (spare : String → Prop) (a b : List Statement) : Prop where
  chains : List.Forall₂ (List.Forall₂ (Segment.Matches spare)) (chains a) (chains b)
  values : ∀ name, ¬ spare name → Option.Rel (List.Forall₂ (Segment.Matches spare))
    ((definitions a).lookup name) ((definitions b).lookup name)
  nodup : (names a).Nodup ∧ (names b).Nodup

section

variable {spare : String → Prop}

theorem Segment.forall₂_matches {xs ys : List Segment}
    (same : Segment.outlines spare xs = Segment.outlines spare ys)
    (kept : ∀ text, text ∈ Segment.tokensAll xs ∨ text ∈ Segment.tokensAll ys → ¬ spare text)
    (apart : Segment.AllNamesApart xs ∧ Segment.AllNamesApart ys) :
    List.Forall₂ (Segment.Matches spare) xs ys := by
  induction xs generalizing ys with
  | nil =>
    cases ys with
    | nil => exact .nil
    | cons y ys => cases same
  | cons x xs ih =>
    cases ys with
    | nil => cases same
    | cons y ys =>
      obtain ⟨first, others⟩ := List.cons.inj same
      obtain ⟨⟨apart_x, apart_xs⟩, apart_y, apart_ys⟩ := apart
      refine .cons ⟨first, fun text member => ?_, apart_x, apart_y⟩
        (ih others (fun text member => ?_) ⟨apart_xs, apart_ys⟩)
      · exact kept text (member.imp (List.mem_append_left _) (List.mem_append_left _))
      · exact kept text (member.imp (List.mem_append_right _) (List.mem_append_right _))

/-- The tokens of a chain of a statement list, or of a value that it defines, are tokens of the
list, and names are apart in it if they are in the list. -/
theorem Statement.part {statements : List Statement} {segments : List Segment}
    (part : segments ∈ LayerNet.chains statements
      ∨ ∃ name, (definitions statements).lookup name = some segments) :
    (∀ text ∈ Segment.tokensAll segments, text ∈ Statement.tokensAll statements)
      ∧ (Statement.AllNamesApart statements → Segment.AllNamesApart segments) := by
  obtain ⟨statement, among, tokens, apart⟩ : ∃ statement ∈ statements,
      statement.tokens = Segment.tokensAll segments
        ∧ (statement.NamesApart → Segment.AllNamesApart segments) := by
    rcases part with chain | ⟨name, defined⟩
    · obtain ⟨statement, among, is⟩ := List.mem_filterMap.mp chain
      cases statement with
      | define name value => cases is
      | chain own =>
        cases is
        exact ⟨_, among, rfl, id⟩
    · obtain ⟨before, after, here, -⟩ := List.lookup_eq_some_iff.mp defined
      have member : (name, segments) ∈ definitions statements :=
        here ▸ List.mem_append_right _ List.mem_cons_self
      obtain ⟨statement, among, is⟩ := List.mem_filterMap.mp member
      cases statement with
      | chain own => cases is
      | define name' value =>
        cases is
        exact ⟨_, among, rfl, id⟩
  refine ⟨fun text member => Statement.mem_tokensAll.mpr ⟨statement, among, tokens ▸ member⟩, ?_⟩
  exact fun all => apart (Statement.allNamesApart_iff.mp all statement among)

/-- Statement lists of one outline match, if no token is spare and no name is defined twice. -/
theorem Statement.matches_of_outline {a b : List Statement}
    (sameChains : Statement.chainOutlines spare a = Statement.chainOutlines spare b)
    (sameValues : Statement.valueOutline? spare a = Statement.valueOutline? spare b)
    (kept : ∀ text, text ∈ Statement.tokensAll a ∨ text ∈ Statement.tokensAll b → ¬ spare text)
    (once : DefinesOnce a) (once' : DefinesOnce b) : Statement.Matches spare a b := by
  have fit {xs ys : List Segment}
      (inA : xs ∈ LayerNet.chains a ∨ ∃ name, (definitions a).lookup name = some xs)
      (inB : ys ∈ LayerNet.chains b ∨ ∃ name, (definitions b).lookup name = some ys)
      (same : Segment.outlines spare xs = Segment.outlines spare ys) :
      List.Forall₂ (Segment.Matches spare) xs ys := by
    obtain ⟨tokens, apart⟩ := Statement.part inA
    obtain ⟨tokens', apart'⟩ := Statement.part inB
    exact Segment.forall₂_matches same
      (fun text member => kept text (member.imp (tokens text) (tokens' text)))
      ⟨apart once.2, apart' once'.2⟩
  refine ⟨?_, fun name wanted => ?_, once.1, once'.1⟩
  · rw [Statement.chainOutlines_eq_map, Statement.chainOutlines_eq_map] at sameChains
    refine List.forall₂_iff_get.mpr ⟨?_, fun i inside inside' => ?_⟩
    · simpa using congrArg List.length sameChains
    · refine fit (.inl (List.get_mem _ _)) (.inl (List.get_mem _ _)) ?_
      have at_i := congrArg (·[i]?) sameChains
      simpa [inside, inside'] using at_i
  · have here := congrFun (congrFun sameValues name) wanted
    rw [Statement.valueOutline?_eq_map, Statement.valueOutline?_eq_map] at here
    cases found : (definitions a).lookup name with
    | none =>
      rw [found] at here
      rw [Option.map_eq_none_iff.mp here.symm]
      exact .none
    | some xs =>
      rw [found] at here
      obtain ⟨ys, found', same⟩ := Option.map_eq_some_iff.mp here.symm
      rw [found']
      exact .some (fit (.inr ⟨name, found⟩) (.inr ⟨name, found'⟩) same.symm)

/-- What matches a token is the token. -/
theorem Segment.Matches.token {text : String} {y : Segment}
    (same : Segment.Matches spare (.token text) y) : y = .token text ∧ ¬ spare text := by
  cases y with
  | module body => cases same.outline
  | token other =>
    cases same.outline
    exact ⟨rfl, same.kept text (.inl List.mem_cons_self)⟩

/-- What matches a module is a module whose statements match. -/
theorem Segment.Matches.module {body : List Statement} {y : Segment}
    (same : Segment.Matches spare (.module body) y) :
    ∃ body', y = .module body' ∧ Statement.Matches spare body body' := by
  cases y with
  | token text => cases same.outline
  | module body' =>
    obtain ⟨sameChains, sameValues⟩ := Outline.module.inj same.outline
    exact ⟨body', rfl,
      Statement.matches_of_outline sameChains sameValues same.kept same.apart.1 same.apart.2⟩

end

end LayerNet
