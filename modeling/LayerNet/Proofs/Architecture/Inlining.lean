import LayerNet.Proofs.Architecture.Rearranging

/-!
# Inlined definitions — a chain written where its name was

A definition whose name occurs once as a token, in its own scope, can be deleted and its value
written in the place of that token (`Inlines`), in the list itself or in a module at any depth.

Part by part the two lists are then the same but for one module, in which the same has happened
(`Segment.Inlined`), unless the definition was one of the list itself. In that case one chain, or
the value of one other definition, has the value in the place of the token (`Inlines.parts`).
-/

namespace LayerNet

/-- A token is replaced by segments, in a chain or in the value of a definition of the list. -/
inductive Splices (name : String) (value : List Segment) : List Statement → List Statement → Prop
  | inChain (earlier later : List Statement) (before after : List Segment) :
    Splices name value (earlier ++ .chain (before ++ .token name :: after) :: later)
      (earlier ++ .chain (before ++ (value ++ after)) :: later)
  | inValue (earlier later : List Statement) (other : String) (before after : List Segment) :
    Splices name value (earlier ++ .define other (before ++ .token name :: after) :: later)
      (earlier ++ .define other (before ++ (value ++ after)) :: later)

/-- A definition is deleted and its value written where its name was, in the same list. No other
definition there has the name. All this may happen in a module, at any depth. -/
inductive Inlines (name : String) (value : List Segment) : List Statement → List Statement → Prop
  | here (earlier later : List Statement) {spliced : List Statement} :
    name ∉ names (earlier ++ later) → Splices name value (earlier ++ later) spliced →
    Inlines name value (earlier ++ .define name value :: later) spliced
  | inChain (earlier later : List Statement) (before after : List Segment)
    {body body' : List Statement} : Inlines name value body body' →
    Inlines name value (earlier ++ .chain (before ++ .module body :: after) :: later)
      (earlier ++ .chain (before ++ .module body' :: after) :: later)
  | inValue (earlier later : List Statement) (other : String) (before after : List Segment)
    {body body' : List Statement} : Inlines name value body body' →
    Inlines name value (earlier ++ .define other (before ++ .module body :: after) :: later)
      (earlier ++ .define other (before ++ .module body' :: after) :: later)

/-! ## Tokens -/

theorem Segment.tokensAll_append (xs ys : List Segment) :
    Segment.tokensAll (xs ++ ys) = Segment.tokensAll xs ++ Segment.tokensAll ys := by
  induction xs with
  | nil => rfl
  | cons x xs ih =>
    rw [List.cons_append, Segment.tokensAll, ih, Segment.tokensAll, List.append_assoc]

theorem Statement.tokensAll_append (a b : List Statement) :
    Statement.tokensAll (a ++ b) = Statement.tokensAll a ++ Statement.tokensAll b := by
  induction a with
  | nil => rfl
  | cons statement a ih =>
    rw [List.cons_append, Statement.tokensAll, ih, Statement.tokensAll, List.append_assoc]

theorem Segment.tokens_subset {x : Segment} {segments : List Segment} (member : x ∈ segments) :
    x.tokens ⊆ Segment.tokensAll segments := by
  induction segments with
  | nil => cases member
  | cons y segments ih =>
    rw [Segment.tokensAll]
    rcases List.mem_cons.mp member with rfl | member
    · exact List.subset_append_left _ _
    · exact List.subset_append_of_subset_right _ (ih member)

/-! ## Around a statement -/

section

variable (earlier later : List Statement)

theorem definitions_append : definitions (earlier ++ later)
    = definitions earlier ++ definitions later := List.filterMap_append

theorem chains_append : chains (earlier ++ later) = chains earlier ++ chains later :=
  List.filterMap_append

theorem definitions_define (name : String) (value : List Segment) :
    definitions (earlier ++ .define name value :: later)
      = definitions earlier ++ (name, value) :: definitions later := definitions_append _ _

theorem chains_chain (segments : List Segment) :
    chains (earlier ++ .chain segments :: later) = chains earlier ++ segments :: chains later :=
  chains_append _ _

theorem definitions_chain (segments : List Segment) :
    definitions (earlier ++ .chain segments :: later) = definitions (earlier ++ later) := by
  rw [definitions_append, definitions_append]
  rfl

theorem chains_define (name : String) (value : List Segment) :
    chains (earlier ++ .define name value :: later) = chains (earlier ++ later) := by
  rw [chains_append, chains_append]
  rfl

end

/-! ## Part by part -/

/-- Two segments are the same, without the name in them, or modules in one of which a definition is
inlined to give the other. -/
inductive Segment.Inlined (name : String) (value : List Segment) : Segment → Segment → Prop
  | same {x : Segment} : name ∉ x.tokens → Inlined name value x x
  | module {body body' : List Statement} : Inlines name value body body' →
    (Statement.tokensAll body).count name = 1 →
    Inlined name value (.module body) (.module body')

/-- How two statement lists compare, of which one has a definition inlined. -/
inductive Inlines.Parts (name : String) (value : List Segment) (a b : List Statement) : Prop
  /-- It happened in a module. -/
  | deeper : List.Forall₂ (List.Forall₂ (Segment.Inlined name value)) (chains a) (chains b) →
    List.Forall₂ (fun d d' => d.1 = d'.1 ∧ List.Forall₂ (Segment.Inlined name value) d.2 d'.2)
      (definitions a) (definitions b) → Parts name value a b
  /-- The name was in a chain of the list. -/
  | inChain {earlier later : List (List Segment)} {before after : List Segment}
    {first last : List (String × List Segment)} :
    chains a = earlier ++ (before ++ .token name :: after) :: later →
    chains b = earlier ++ (before ++ (value ++ after)) :: later →
    (∀ segments ∈ before :: after :: (earlier ++ later), name ∉ Segment.tokensAll segments) →
    definitions a = first ++ (name, value) :: last → definitions b = first ++ last →
    name ∉ (first ++ last).map Prod.fst →
    (∀ d ∈ first ++ last, name ∉ Segment.tokensAll d.2) → Parts name value a b
  /-- The name was in the value of another definition of the list. -/
  | inValue {other : String} {before after : List Segment}
    {first last first' last' : List (String × List Segment)} :
    chains a = chains b → (∀ segments ∈ chains b, name ∉ Segment.tokensAll segments) →
    name ∉ Segment.tokensAll before → name ∉ Segment.tokensAll after →
    definitions a = first ++ (name, value) :: last →
    first ++ last = first' ++ (other, before ++ .token name :: after) :: last' →
    definitions b = first' ++ (other, before ++ (value ++ after)) :: last' →
    name ∉ (first ++ last).map Prod.fst →
    (∀ d ∈ first' ++ last', name ∉ Segment.tokensAll d.2) → Parts name value a b

section

variable {name : String} {value : List Segment}

theorem Segment.inlined_same {segments : List Segment}
    (unused : name ∉ Segment.tokensAll segments) :
    List.Forall₂ (Segment.Inlined name value) segments segments := by
  refine List.forall₂_same.mpr fun x member => .same fun inside => unused ?_
  exact Segment.tokens_subset member inside

theorem Statement.unused_parts {statements : List Statement}
    (unused : name ∉ Statement.tokensAll statements) :
    (∀ segments ∈ chains statements, name ∉ Segment.tokensAll segments)
      ∧ ∀ d ∈ definitions statements, name ∉ Segment.tokensAll d.2 := by
  constructor
  · intro segments chain inside
    obtain ⟨statement, among, is⟩ := List.mem_filterMap.mp chain
    refine unused (Statement.mem_tokensAll.mpr ⟨statement, among, ?_⟩)
    cases statement with
    | define => cases is
    | chain own =>
      cases is
      exact inside
  · intro d defined inside
    obtain ⟨statement, among, is⟩ := List.mem_filterMap.mp defined
    refine unused (Statement.mem_tokensAll.mpr ⟨statement, among, ?_⟩)
    cases statement with
    | chain => cases is
    | define other own =>
      cases is
      exact inside

namespace Inlines

/-- The chains of a statement list without the name are as they were. -/
theorem chains_same {statements : List Statement}
    (unused : name ∉ Statement.tokensAll statements) :
    List.Forall₂ (List.Forall₂ (Segment.Inlined name value)) (chains statements)
      (chains statements) :=
  List.forall₂_same.mpr fun segments member =>
    Segment.inlined_same ((Statement.unused_parts unused).1 segments member)

/-- So are its definitions. -/
theorem definitions_same {statements : List Statement}
    (unused : name ∉ Statement.tokensAll statements) :
    List.Forall₂ (fun d d' => d.1 = d'.1 ∧ List.Forall₂ (Segment.Inlined name value) d.2 d'.2)
      (definitions statements) (definitions statements) :=
  List.forall₂_same.mpr fun d member =>
    ⟨rfl, Segment.inlined_same ((Statement.unused_parts unused).2 d member)⟩

theorem mem_tokensAll_of_splices {a b : List Statement} (splices : Splices name value a b) :
    name ∈ Statement.tokensAll a := by
  cases splices <;>
    simp [Statement.tokensAll_append, Segment.tokensAll_append, Statement.tokensAll,
      Statement.tokens, Segment.tokensAll, Segment.tokens]

/-- The name is used. -/
theorem mem_tokensAll {a b : List Statement} (inlines : Inlines name value a b) :
    name ∈ Statement.tokensAll a := by
  induction inlines with
  | here earlier later _ splices =>
    have used := mem_tokensAll_of_splices splices
    rw [Statement.tokensAll_append] at used ⊢
    rw [Statement.tokensAll]
    exact (List.mem_append.mp used).elim (List.mem_append_left _)
      fun used => List.mem_append_right _ (List.mem_append_right _ used)
  | inChain earlier later before after _ ih =>
    simp [Statement.tokensAll_append, Segment.tokensAll_append, Statement.tokensAll,
      Statement.tokens, Segment.tokensAll, Segment.tokens, ih]
  | inValue earlier later other before after _ ih =>
    simp [Statement.tokensAll_append, Segment.tokensAll_append, Statement.tokensAll,
      Statement.tokens, Segment.tokensAll, Segment.tokens, ih]

/-- How often a name is a token of a list, told for one of its statements. -/
theorem count_tokensAll (name : String) (earlier later : List Statement) (statement : Statement) :
    (Statement.tokensAll (earlier ++ statement :: later)).count name
      = statement.tokens.count name + (Statement.tokensAll (earlier ++ later)).count name := by
  simp only [Statement.tokensAll_append, Statement.tokensAll, List.count_append]
  omega

/-- How often a name is a token of segments, told for one of them. -/
theorem count_segments (name : String) (before after : List Segment) (x : Segment) :
    (Segment.tokensAll (before ++ x :: after)).count name = x.tokens.count name
      + ((Segment.tokensAll before).count name + (Segment.tokensAll after).count name) := by
  simp only [Segment.tokensAll_append, Segment.tokensAll, List.count_append]
  omega

/-- A name that is used once is not used in its own value. -/
theorem unused_value {a b : List Statement} (inlines : Inlines name value a b)
    (once : (Statement.tokensAll a).count name = 1) : name ∉ Segment.tokensAll value := by
  induction inlines with
  | here earlier later _ splices =>
    have used := List.count_pos_iff.mpr (mem_tokensAll_of_splices splices)
    rw [count_tokensAll, Statement.tokens] at once
    exact List.count_eq_zero.mp (by omega)
  | inChain earlier later before after inside ih =>
    have used := List.count_pos_iff.mpr inside.mem_tokensAll
    rw [count_tokensAll, Statement.tokens, count_segments, Segment.tokens] at once
    exact ih (by omega)
  | inValue earlier later other before after inside ih =>
    have used := List.count_pos_iff.mpr inside.mem_tokensAll
    rw [count_tokensAll, Statement.tokens, count_segments, Segment.tokens] at once
    exact ih (by omega)

/-- Segments around a module in which something is inlined. -/
theorem inlined_around (before after : List Segment) {body body' : List Statement}
    (inlines : Inlines name value body body')
    (once : (Segment.tokensAll (before ++ .module body :: after)).count name ≤ 1) :
    List.Forall₂ (Segment.Inlined name value) (before ++ .module body :: after)
      (before ++ .module body' :: after) := by
  have used := List.count_pos_iff.mpr inlines.mem_tokensAll
  rw [count_segments, Segment.tokens] at once
  have unusedBefore : name ∉ Segment.tokensAll before := List.count_eq_zero.mp (by omega)
  have unusedAfter : name ∉ Segment.tokensAll after := List.count_eq_zero.mp (by omega)
  refine List.rel_append (Segment.inlined_same unusedBefore) (.cons ?_ ?_)
  · exact .module inlines (by omega)
  · exact Segment.inlined_same unusedAfter

/-- Where a name that is used once is replaced, the other statements do not use it. -/
theorem parts_here {earlier later : List Statement} {b : List Statement}
    (apart : name ∉ names (earlier ++ later)) (splices : Splices name value (earlier ++ later) b)
    (once : (Statement.tokensAll (earlier ++ later)).count name = 1) :
    Parts name value (earlier ++ .define name value :: later) b := by
  have defined := definitions_define earlier later name value
  have chained := chains_define earlier later name value
  have split := (definitions_append earlier later).symm
  rw [names] at apart
  generalize earlier ++ later = statements at apart splices once chained split
  rw [← split] at apart
  cases splices with
  | inChain earlier' later' before after =>
    rw [count_tokensAll, Statement.tokens, count_segments, Segment.tokens,
      List.count_singleton_self] at once
    have unusedBefore : name ∉ Segment.tokensAll before := List.count_eq_zero.mp (by omega)
    have unusedAfter : name ∉ Segment.tokensAll after := List.count_eq_zero.mp (by omega)
    have unused : name ∉ Statement.tokensAll (earlier' ++ later') :=
      List.count_eq_zero.mp (by omega)
    obtain ⟨inChains, inDefinitions⟩ := Statement.unused_parts unused
    rw [definitions_chain] at split
    refine .inChain (chained.trans (chains_chain _ _ _)) (chains_chain _ _ _) ?_ defined ?_ apart ?_
    · rw [← chains_append]
      exact List.forall_mem_cons.mpr
        ⟨unusedBefore, List.forall_mem_cons.mpr ⟨unusedAfter, inChains⟩⟩
    · rw [definitions_chain, split]
    · rw [split]
      exact inDefinitions
  | inValue earlier' later' other before after =>
    rw [count_tokensAll, Statement.tokens, count_segments, Segment.tokens,
      List.count_singleton_self] at once
    have unusedBefore : name ∉ Segment.tokensAll before := List.count_eq_zero.mp (by omega)
    have unusedAfter : name ∉ Segment.tokensAll after := List.count_eq_zero.mp (by omega)
    have unused : name ∉ Statement.tokensAll (earlier' ++ later') :=
      List.count_eq_zero.mp (by omega)
    obtain ⟨inChains, inDefinitions⟩ := Statement.unused_parts unused
    have kept (own : List Segment) := chains_define earlier' later' other own
    rw [definitions_define] at split
    refine .inValue (chained.trans ((kept _).trans (kept _).symm)) ?_ unusedBefore unusedAfter
      defined split (definitions_define _ _ _ _) apart ?_
    · rw [chains_define]
      exact inChains
    · rw [← definitions_append]
      exact inDefinitions

/-- Inlining a name that is used once compares part by part. -/
theorem parts {a b : List Statement} (inlines : Inlines name value a b)
    (once : (Statement.tokensAll a).count name = 1) : Parts name value a b := by
  cases inlines with
  | here earlier later apart splices =>
    have used := List.count_pos_iff.mpr (mem_tokensAll_of_splices splices)
    rw [count_tokensAll] at once
    exact parts_here apart splices (by omega)
  | inChain earlier later before after inside =>
    have used := List.count_pos_iff.mpr inside.mem_tokensAll
    rw [count_tokensAll, Statement.tokens] at once
    have around := inlined_around before after inside (by omega)
    rw [count_segments, Segment.tokens, Statement.tokensAll_append, List.count_append] at once
    have unused : name ∉ Statement.tokensAll earlier := List.count_eq_zero.mp (by omega)
    have unused' : name ∉ Statement.tokensAll later := List.count_eq_zero.mp (by omega)
    refine .deeper ?_ ?_
    · rw [chains_chain, chains_chain]
      exact List.rel_append (chains_same unused) (.cons around (chains_same unused'))
    · rw [definitions_chain, definitions_chain, definitions_append]
      exact List.rel_append (definitions_same unused) (definitions_same unused')
  | inValue earlier later other before after inside =>
    have used := List.count_pos_iff.mpr inside.mem_tokensAll
    rw [count_tokensAll, Statement.tokens] at once
    have around := inlined_around before after inside (by omega)
    rw [count_segments, Segment.tokens, Statement.tokensAll_append, List.count_append] at once
    have unused : name ∉ Statement.tokensAll earlier := List.count_eq_zero.mp (by omega)
    have unused' : name ∉ Statement.tokensAll later := List.count_eq_zero.mp (by omega)
    refine .deeper ?_ ?_
    · rw [chains_define, chains_define, chains_append]
      exact List.rel_append (chains_same unused) (chains_same unused')
    · rw [definitions_define, definitions_define]
      exact List.rel_append (definitions_same unused)
        (.cons ⟨rfl, around⟩ (definitions_same unused'))

end Inlines

end

end LayerNet
