import LayerNet.Proofs.Architecture.Cutting

/-!
# The grammar — which texts are written architectures

A statement list is written as its statements with commas between them, a chain as its segments with
tildes between them, a definition as its name and its value with an equals sign between them, and a
module as its statements in braces. There may be blanks around each statement, segment and name.

Written texts of well-formed statements keep their braces balanced and their delimiters apart
(`Segment.whole_of_written`, `Statement.whole_of_written`), and none of them is blank
(`not_isBlankText_of_isPrinting`).
-/

namespace LayerNet

open Text Reader

/-- The characters between the parts of an architecture. -/
def separators : List Char := [',', '~', '=']

theorem isDelimiter_of_mem {d : Char} (member : d ∈ separators) : IsDelimiter d := by
  simp only [separators, List.mem_cons, List.not_mem_nil, or_false] at member
  rcases member with rfl | rfl | rfl <;> exact ⟨by decide, by decide, by decide⟩

/-! ## Well-formed statements -/

/-- ASCII letters, digits and underscores, no digit first. -/
def IsIdentifier : List Char → Prop
  | [] => False
  | c :: rest => (c.isAlpha ∨ c = '_') ∧ ∀ c' ∈ rest, c'.isAlphanum ∨ c' = '_'

/-- There is something, it does not begin or end with a blank, and it has no separator and no brace
in it. -/
def IsToken (cs : List Char) : Prop :=
  cs ≠ [] ∧ Bare cs ∧ ∀ c ∈ cs, c ∉ separators ∧ c ≠ '\x7b' ∧ c ≠ '\x7d'

mutual

/-- The tokens in a segment are tokens, and nothing in it is empty. -/
def Segment.WellFormed : Segment → Prop
  | .token text => IsToken text.toList
  | .module body => body ≠ [] ∧ Statement.AllWellFormed body

/-- Every segment of a chain is well formed. -/
def Segment.AllWellFormed : List Segment → Prop
  | [] => True
  | segment :: rest => segment.WellFormed ∧ Segment.AllWellFormed rest

/-- Names are names, chains have segments, and all of them are well formed. -/
def Statement.WellFormed : Statement → Prop
  | .define name value => IsIdentifier name.toList ∧ value ≠ [] ∧ Segment.AllWellFormed value
  | .chain segments => segments ≠ [] ∧ Segment.AllWellFormed segments

/-- Every statement of a list is well formed. -/
def Statement.AllWellFormed : List Statement → Prop
  | [] => True
  | statement :: rest => statement.WellFormed ∧ Statement.AllWellFormed rest

end

/-- There are statements, and all of them are well formed. -/
def IsWellFormed (statements : List Statement) : Prop :=
  statements ≠ [] ∧ Statement.AllWellFormed statements

/-! ## Written statements -/

mutual

/-- The text of a segment, without blanks around it. -/
def Segment.Written : Segment → List Char → Prop
  | .token text, cs => cs = text.toList
  | .module body, cs =>
    ∃ parts, Statement.AllWritten body parts ∧ cs = '\x7b' :: joined ',' parts ++ ['\x7d']

/-- The texts of segments, each with any blanks around it. -/
def Segment.AllWritten : List Segment → List (List Char) → Prop
  | [], parts => parts = []
  | segment :: rest, parts =>
    ∃ core part others, parts = part :: others ∧ segment.Written core ∧ Pads core part
      ∧ Segment.AllWritten rest others

/-- The text of a statement. -/
def Statement.Written : Statement → List Char → Prop
  | .define name value, cs =>
    ∃ left parts, Pads name.toList left ∧ Segment.AllWritten value parts
      ∧ cs = left ++ '=' :: joined '~' parts
  | .chain segments, cs => ∃ parts, Segment.AllWritten segments parts ∧ cs = joined '~' parts

/-- The texts of statements, each with any blanks around it. -/
def Statement.AllWritten : List Statement → List (List Char) → Prop
  | [], parts => parts = []
  | statement :: rest, parts =>
    ∃ core part others, parts = part :: others ∧ statement.Written core ∧ Pads core part
      ∧ Statement.AllWritten rest others

end

/-- The text is the statements with commas between them. -/
def IsPrinting (statements : List Statement) (cs : List Char) : Prop :=
  ∃ parts, Statement.AllWritten statements parts ∧ cs = joined ',' parts

theorem Segment.allWellFormed_iff {segments : List Segment} :
    Segment.AllWellFormed segments ↔ ∀ segment ∈ segments, segment.WellFormed := by
  induction segments with
  | nil => simp [Segment.AllWellFormed]
  | cons segment rest ih => rw [Segment.AllWellFormed, ih, List.forall_mem_cons]

theorem Statement.allWellFormed_iff {statements : List Statement} :
    Statement.AllWellFormed statements ↔ ∀ statement ∈ statements, statement.WellFormed := by
  induction statements with
  | nil => simp [Statement.AllWellFormed]
  | cons statement rest ih => rw [Statement.AllWellFormed, ih, List.forall_mem_cons]

theorem Segment.allWritten_iff {segments : List Segment} {parts : List (List Char)} :
    Segment.AllWritten segments parts ↔
      List.Forall₂ (fun part segment => ∃ core, segment.Written core ∧ Pads core part) parts
        segments := by
  induction segments generalizing parts with
  | nil => rw [Segment.AllWritten, List.forall₂_nil_right_iff]
  | cons segment rest ih =>
    rw [Segment.AllWritten, List.forall₂_cons_right_iff]
    constructor
    · rintro ⟨core, part, others, rfl, written, pads, tail⟩
      exact ⟨part, others, ⟨core, written, pads⟩, ih.mp tail, rfl⟩
    · rintro ⟨part, others, ⟨core, written, pads⟩, tail, rfl⟩
      exact ⟨core, part, others, rfl, written, pads, ih.mpr tail⟩

theorem Statement.allWritten_iff {statements : List Statement} {parts : List (List Char)} :
    Statement.AllWritten statements parts ↔
      List.Forall₂ (fun part statement => ∃ core, statement.Written core ∧ Pads core part) parts
        statements := by
  induction statements generalizing parts with
  | nil => rw [Statement.AllWritten, List.forall₂_nil_right_iff]
  | cons statement rest ih =>
    rw [Statement.AllWritten, List.forall₂_cons_right_iff]
    constructor
    · rintro ⟨core, part, others, rfl, written, pads, tail⟩
      exact ⟨part, others, ⟨core, written, pads⟩, ih.mp tail, rfl⟩
    · rintro ⟨part, others, ⟨core, written, pads⟩, tail, rfl⟩
      exact ⟨core, part, others, rfl, written, pads, ih.mpr tail⟩

/-! ## Written texts keep their parts together -/

theorem IsToken.whole {cs : List Char} (token : IsToken cs) {d : Char} (mark : d ∈ separators) :
    Whole d 0 cs := by
  refine whole_of_plain fun c member => ?_
  obtain ⟨apart, opens, closes⟩ := token.2.2 c member
  exact ⟨opens, closes, fun same => apart (same ▸ mark)⟩

/-- Texts that are whole for a separator are balanced when it joins them. -/
theorem isBalanced_joined {d : Char} (mark : IsDelimiter d) {parts : List (List Char)}
    (wholes : ∀ p ∈ parts, Whole d 0 p) : isBalanced 0 (joined d parts) := by
  refine whole_brace_iff.mp ((whole_joined_iff mark (Ne.symm mark.1) ?_).mpr ?_)
  · exact fun p member => (wholes p member).isBalanced
  · exact fun p member => whole_brace_iff.mpr (wholes p member).isBalanced

/-- A chain keeps commas and equals signs in the braces of its segments. -/
theorem whole_chain {d : Char} (other : d ≠ '~')
    {parts : List (List Char)} (wholes : ∀ p ∈ parts, Whole d 0 p) :
    Whole d 0 (joined '~' parts) :=
  (whole_joined_iff (isDelimiter_of_mem (by decide)) other
    fun p member => (wholes p member).isBalanced).mpr wholes

theorem not_isBlank_of_identifier {c : Char} (word : c.isAlphanum ∨ c = '_') :
    isBlank c = false := by
  rcases word with word | rfl
  · delta Char.isAlphanum Char.isAlpha Char.isUpper Char.isLower Char.isDigit at word
    simp only [Bool.or_eq_true, Bool.and_eq_true, decide_eq_true_eq, UInt32.le_iff_toNat_le] at word
    simp only [isBlank, Char.toNat]
    simp at word ⊢
    omega
  · decide

theorem IsIdentifier.all_word {cs : List Char} (named : IsIdentifier cs) :
    ∀ c ∈ cs, c.isAlphanum ∨ c = '_' := by
  cases cs with
  | nil => exact named.elim
  | cons c rest =>
    refine List.forall_mem_cons.mpr ⟨?_, named.2⟩
    refine named.1.imp_left fun letter => ?_
    simp [Char.isAlphanum, letter]

theorem IsIdentifier.isToken {cs : List Char} (named : IsIdentifier cs) : IsToken cs := by
  have words := named.all_word
  refine ⟨?_, ⟨?_, ?_⟩, fun c member => ?_⟩
  · rintro rfl
    exact named
  · exact fun c first => not_isBlank_of_identifier (words c (List.mem_of_mem_head? first))
  · exact fun c last => not_isBlank_of_identifier (words c (List.mem_of_mem_getLast? last))
  · have word := words c member
    refine ⟨fun mark => ?_, ?_, ?_⟩
    · simp only [separators, List.mem_cons, List.not_mem_nil, or_false] at mark
      rcases mark with rfl | rfl | rfl <;> revert word <;> decide
    · rintro rfl
      revert word
      decide
    · rintro rfl
      revert word
      decide

mutual

/-- No separator stands outside of the braces of a segment. -/
theorem Segment.whole_of_written : ∀ (segment : Segment) {cs : List Char},
    segment.WellFormed → segment.Written cs → ∀ d ∈ separators, Whole d 0 cs
  | .token _, _, token, rfl => fun _ mark => token.whole mark
  | .module body, _, ⟨_, formed⟩, ⟨_, written, rfl⟩ => fun _ _ =>
    whole_enclosed (isBalanced_joined (isDelimiter_of_mem (by decide))
      (Statement.forall_whole_of_written body formed written))

theorem Segment.forall_whole_of_written : ∀ (segments : List Segment) {parts : List (List Char)},
    Segment.AllWellFormed segments → Segment.AllWritten segments parts →
      ∀ d ∈ separators, ∀ p ∈ parts, Whole d 0 p
  | [], _, _, rfl => fun _ _ _ member => nomatch member
  | segment :: rest, _, ⟨first, others⟩, ⟨_, _, _, rfl, written, pads, tail⟩ => fun d mark =>
    List.forall_mem_cons.mpr
      ⟨(whole_iff_of_pads (isDelimiter_of_mem mark) pads).mpr
        (Segment.whole_of_written segment first written d mark),
      Segment.forall_whole_of_written rest others tail d mark⟩

/-- No comma stands outside of the braces of a statement. -/
theorem Statement.whole_of_written : ∀ (statement : Statement) {cs : List Char},
    statement.WellFormed → statement.Written cs → Whole ',' 0 cs
  | .chain segments, _, ⟨_, formed⟩, ⟨parts, written, rfl⟩ => by
    exact whole_chain (by decide)
      (Segment.forall_whole_of_written segments formed written ',' (by decide))
  | .define name value, _, ⟨named, _, formed⟩, ⟨left, parts, pads, written, rfl⟩ => by
    have front : Whole ',' 0 left :=
      (whole_iff_of_pads (isDelimiter_of_mem (by decide)) pads).mpr
        (named.isToken.whole (by decide))
    have back : Whole ',' 0 (joined '~' parts) := whole_chain (by decide)
      (Segment.forall_whole_of_written value formed written ',' (by decide))
    exact (whole_append_iff front.isBalanced).mpr ⟨front, by simp, back⟩

theorem Statement.forall_whole_of_written : ∀ (statements : List Statement)
    {parts : List (List Char)}, Statement.AllWellFormed statements →
      Statement.AllWritten statements parts → ∀ p ∈ parts, Whole ',' 0 p
  | [], _, _, rfl => fun _ member => nomatch member
  | statement :: rest, _, ⟨first, others⟩, ⟨_, _, _, rfl, written, pads, tail⟩ =>
    List.forall_mem_cons.mpr
      ⟨(whole_iff_of_pads (isDelimiter_of_mem (by decide)) pads).mpr
        (Statement.whole_of_written statement first written),
      Statement.forall_whole_of_written rest others tail⟩

end

/-! ## Written texts are not blank -/

theorem mem_joined {d c : Char} {p : List Char} {parts : List (List Char)} (inside : c ∈ p)
    (member : p ∈ parts) : c ∈ joined d parts := by
  induction parts with
  | nil => cases member
  | cons q rest ih =>
    cases rest with
    | nil =>
      obtain rfl := List.mem_singleton.mp member
      rwa [joined_singleton]
    | cons q' rest =>
      rw [joined_cons_cons]
      rcases List.mem_cons.mp member with rfl | member
      · exact List.mem_append_left _ inside
      · exact List.mem_append_right _ (List.mem_cons_of_mem d (ih member))

/-- A segment begins and ends with something to see. -/
theorem Segment.bare_of_written {segment : Segment} {cs : List Char}
    (formed : segment.WellFormed) (written : segment.Written cs) : cs ≠ [] ∧ Bare cs := by
  cases segment with
  | token text =>
    obtain rfl := written
    exact ⟨formed.1, formed.2.1⟩
  | module body =>
    obtain ⟨parts, -, rfl⟩ := written
    refine ⟨by simp, ?_, ?_⟩
    · intro c first
      obtain rfl : '\x7b' = c := by simpa using first
      decide
    · intro c last
      rw [List.getLast?_concat] at last
      obtain rfl := Option.some.inj last
      decide

/-- Some character of the text is not blank. -/
def IsVisible (cs : List Char) : Prop := ∃ c ∈ cs, isBlank c = false

theorem IsVisible.not_isBlankText {cs : List Char} (visible : IsVisible cs) :
    ¬ isBlankText cs := by
  obtain ⟨c, inside, visible⟩ := visible
  exact fun blank => not_mem_of_blank visible blank inside

theorem IsVisible.trim_ne_nil {cs : List Char} (visible : IsVisible cs) : trim cs ≠ [] := by
  intro empty
  obtain ⟨before, after, blank, blank', text⟩ := pads_trim cs
  refine visible.not_isBlankText ?_
  rw [text, empty, List.append_nil]
  exact isBlankText_append.mpr ⟨blank, blank'⟩

theorem Statement.isVisible_of_written {statement : Statement} {cs : List Char}
    (formed : statement.WellFormed) (written : statement.Written cs) : IsVisible cs := by
  cases statement with
  | chain segments =>
    obtain ⟨some, formed⟩ := formed
    obtain ⟨parts, written, rfl⟩ := written
    cases segments with
    | nil => exact absurd rfl some
    | cons segment rest =>
      obtain ⟨core, part, others, rfl, written, pads, -⟩ := written
      obtain ⟨nonempty, bare, -⟩ := Segment.bare_of_written formed.1 written
      obtain ⟨c, core, rfl⟩ := List.exists_cons_of_ne_nil nonempty
      exact ⟨c, mem_joined (pads.mem List.mem_cons_self) List.mem_cons_self, bare c rfl⟩
  | define name value =>
    obtain ⟨left, parts, -, -, rfl⟩ := written
    exact ⟨'=', List.mem_append_right left List.mem_cons_self, by decide⟩

theorem Statement.forall_isVisible_of_written {statements : List Statement}
    {parts : List (List Char)} (formed : Statement.AllWellFormed statements)
    (written : Statement.AllWritten statements parts) : ∀ p ∈ parts, IsVisible p := by
  induction statements generalizing parts with
  | nil =>
    obtain rfl := written
    exact fun p member => nomatch member
  | cons statement rest ih =>
    obtain ⟨core, part, others, rfl, written, pads, tail⟩ := written
    obtain ⟨c, inside, visible⟩ := Statement.isVisible_of_written formed.1 written
    exact List.forall_mem_cons.mpr ⟨⟨c, pads.mem inside, visible⟩, ih formed.2 tail⟩

theorem not_isBlankText_of_isPrinting {statements : List Statement} {cs : List Char}
    (formed : IsWellFormed statements) (printing : IsPrinting statements cs) :
    ¬ isBlankText cs := by
  obtain ⟨some, formed⟩ := formed
  obtain ⟨parts, written, rfl⟩ := printing
  have visible := Statement.forall_isVisible_of_written formed written
  cases statements with
  | nil => exact absurd rfl some
  | cons statement rest =>
    obtain ⟨core, part, others, rfl, -⟩ := written
    obtain ⟨c, inside, seen⟩ := visible part List.mem_cons_self
    exact IsVisible.not_isBlankText ⟨c, mem_joined inside List.mem_cons_self, seen⟩

end LayerNet
