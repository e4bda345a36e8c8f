import LayerNet.Proofs.Architecture.Grammar
import LayerNet.Proofs.Outcome

/-!
# Reading — the reader accepts exactly the grammar

Each reader gives a part exactly when the part is well formed and the text is written as the grammar
writes it, provided the reader of bodies does so for the shorter texts that stand in braces
(`Reads`). Along the nesting this gives it for a whole architecture (`readArchitecture_eq_ok_iff`).
-/

namespace LayerNet

open Text

namespace Reader

/-- A reader of bodies that accepts, among the texts shorter than a bound, exactly the written ones,
and reads of them what was written. -/
def Reads (readBody : BodyReader) (bound : Nat) : Prop :=
  ∀ body, body.length < bound → ∀ statements,
    readBody body = .ok statements ↔ IsWellFormed statements ∧ IsPrinting statements body

theorem beginsName_iff {c : Char} : beginsName c ↔ c.isAlpha ∨ c = '_' := by
  delta Char.isAlpha Char.isUpper Char.isLower
  simp [beginsName, Char.le_def]
  tauto

theorem continuesName_iff {c : Char} : continuesName c ↔ c.isAlphanum ∨ c = '_' := by
  simp [continuesName, beginsName_iff, Char.isAlphanum, Char.isDigit, Char.le_def]
  tauto

theorem isName_iff {cs : List Char} : isName cs ↔ IsIdentifier cs := by
  cases cs with
  | nil => simp [isName, IsIdentifier]
  | cons c rest =>
    simp [isName, IsIdentifier, ← beginsName_iff, ← continuesName_iff]

variable {readBody : BodyReader} {bound : Nat}

/-- What is read from a bare text is a segment that it is written for. -/
theorem written_of_readSegment (reads : Reads readBody bound) {chain cs : List Char}
    (short : cs.length ≤ bound) (wholes : ∀ d ∈ separators, Whole d 0 cs) (bare : Bare cs)
    {segment : Segment} (success : readSegment readBody chain cs = .ok segment) :
    segment.WellFormed ∧ segment.Written cs := by
  unfold readSegment at success
  split at success
  next => cases success
  next nonempty =>
    split at success
    next body enclosed =>
      obtain ⟨rfl, -⟩ := moduleBody?_eq_some_iff.mp enclosed
      split at success
      next => cases success
      next =>
        obtain ⟨statements, read, rfl⟩ := except_map_eq_ok_iff.mp success
        have inside : body.length < bound := by
          simp only [List.length_append, List.length_cons, List.length_nil] at short
          omega
        obtain ⟨formed, parts, written, rfl⟩ := (reads body inside statements).mp read
        exact ⟨formed, parts, written, rfl⟩
    next =>
      split at success
      next => cases success
      next braces =>
        obtain ⟨opens, closes⟩ := not_or.mp braces
        cases success
        refine ⟨?_, by rw [Segment.Written, String.toList_ofList]⟩
        rw [Segment.WellFormed, String.toList_ofList]
        refine ⟨nonempty, bare, fun c member => ⟨fun mark => ?_, ?_, ?_⟩⟩
        · exact (wholes c mark).delimiter_not_mem opens closes member
        · rintro rfl
          exact opens member
        · rintro rfl
          exact closes member

theorem readSegment_token {chain : List Char} {text : String} (formed : IsToken text.toList) :
    readSegment readBody chain text.toList = .ok (.token text) := by
  have opens : '\x7b' ∉ text.toList := fun member => (formed.2.2 _ member).2.1 rfl
  have closes : '\x7d' ∉ text.toList := fun member => (formed.2.2 _ member).2.2 rfl
  have open' : moduleBody? text.toList = none := by
    refine Option.eq_none_iff_forall_ne_some.mpr fun body enclosed => ?_
    rw [(moduleBody?_eq_some_iff.mp enclosed).1] at opens
    exact opens List.mem_cons_self
  rw [readSegment, if_neg formed.1, open']
  dsimp only
  rw [if_neg (not_or.mpr ⟨opens, closes⟩), String.ofList_toList]

theorem readSegment_module (reads : Reads readBody bound) {chain inner : List Char}
    (short : inner.length < bound) {body : List Statement} (formed : IsWellFormed body)
    (printing : IsPrinting body inner) :
    readSegment readBody chain ('\x7b' :: inner ++ ['\x7d']) = .ok (.module body) := by
  have balanced : isBalanced 0 inner := by
    obtain ⟨parts, written, rfl⟩ := printing
    exact isBalanced_joined (isDelimiter_of_mem (by decide))
      (Statement.forall_whole_of_written body formed.2 written)
  rw [readSegment, if_neg (by simp), moduleBody?_eq_some_iff.mpr ⟨rfl, balanced⟩]
  dsimp only
  rw [if_neg (not_isBlankText_of_isPrinting formed printing),
    (reads _ short body).mpr ⟨formed, printing⟩]
  rfl

/-- A bare text is read as the segment it is written for. -/
theorem readSegment_eq_ok_iff (reads : Reads readBody bound) {chain cs : List Char}
    (short : cs.length ≤ bound) (wholes : ∀ d ∈ separators, Whole d 0 cs) (bare : Bare cs)
    {segment : Segment} :
    readSegment readBody chain cs = .ok segment ↔ segment.WellFormed ∧ segment.Written cs := by
  refine ⟨written_of_readSegment reads short wholes bare, ?_⟩
  rintro ⟨formed, written⟩
  cases segment with
  | token text =>
    obtain rfl := written
    exact readSegment_token formed
  | module body =>
    obtain ⟨parts, written, rfl⟩ := written
    refine readSegment_module reads ?_ formed ⟨parts, written, rfl⟩
    simp only [List.length_append, List.length_cons, List.length_nil] at short
    omega

/-- A segment with blanks around it is read as it is without them. -/
theorem readSegment_trim_eq_ok_iff (reads : Reads readBody bound) {chain part : List Char}
    (short : part.length ≤ bound) (wholes : ∀ d ∈ separators, Whole d 0 part)
    {segment : Segment} :
    readSegment readBody chain (trim part) = .ok segment ↔
      segment.WellFormed ∧ ∃ core, segment.Written core ∧ Pads core part := by
  have pads := pads_trim part
  rw [readSegment_eq_ok_iff reads (Nat.le_trans pads.length_le short)
    (fun d mark => (whole_iff_of_pads (isDelimiter_of_mem mark) pads).mp (wholes d mark))
    (bare_trim part)]
  constructor
  · rintro ⟨formed, written⟩
    exact ⟨formed, trim part, written, pads⟩
  · rintro ⟨formed, core, written, pads⟩
    rw [trim_of_pads pads (Segment.bare_of_written formed written).2]
    exact ⟨formed, written⟩

/-- When each part is read exactly for what is written in it, so are all of them. -/
theorem mapM_trim_eq_ok_iff {α : Type} {read : List Char → Except CompileError α}
    {formed : α → Prop} {written : α → List Char → Prop} {parts : List (List Char)}
    (each : ∀ p ∈ parts, ∀ x, read (trim p) = .ok x ↔
      formed x ∧ ∃ core, written x core ∧ Pads core p) {xs : List α} :
    (parts.map trim).mapM read = .ok xs ↔
      (∀ x ∈ xs, formed x)
        ∧ List.Forall₂ (fun p x => ∃ core, written x core ∧ Pads core p) parts xs := by
  rw [except_mapM_eq_ok_iff, List.forall₂_map_left_iff]
  induction parts generalizing xs with
  | nil =>
    rw [List.forall₂_nil_left_iff, List.forall₂_nil_left_iff]
    exact ⟨fun none => ⟨none ▸ by simp, none⟩, And.right⟩
  | cons p parts ih =>
    obtain ⟨first, others⟩ := List.forall_mem_cons.mp each
    rw [List.forall₂_cons_left_iff, List.forall₂_cons_left_iff]
    constructor
    · rintro ⟨x, xs, read, rest, rfl⟩
      obtain ⟨formed, written⟩ := (first x).mp read
      obtain ⟨formed', rest⟩ := (ih others).mp rest
      exact ⟨List.forall_mem_cons.mpr ⟨formed, formed'⟩, x, xs, written, rest, rfl⟩
    · rintro ⟨formed, x, xs, written, rest, rfl⟩
      obtain ⟨formed, formed'⟩ := List.forall_mem_cons.mp formed
      exact ⟨x, xs, (first x).mpr ⟨formed, written⟩, (ih others).mpr ⟨formed', rest⟩, rfl⟩

theorem ne_nil_iff_of_forall₂ {α β : Type} {R : α → β → Prop} {xs : List α} {ys : List β}
    (pairs : List.Forall₂ R xs ys) : xs ≠ [] ↔ ys ≠ [] := by
  cases pairs <;> simp

theorem length_le_joined {d : Char} {p : List Char} {parts : List (List Char)}
    (member : p ∈ parts) : p.length ≤ (joined d parts).length := by
  induction parts with
  | nil => cases member
  | cons q rest ih =>
    cases rest with
    | nil =>
      obtain rfl := List.mem_singleton.mp member
      exact Nat.le_of_eq (by rw [joined_singleton])
    | cons q' rest =>
      rw [joined_cons_cons, List.length_append, List.length_cons]
      rcases List.mem_cons.mp member with rfl | member
      · omega
      · have := ih member
        omega

/-- A chain is read as the segments that are written with tildes between them. -/
theorem readChain_trim_eq_ok_iff (reads : Reads readBody bound) {cs : List Char}
    (short : cs.length ≤ bound) (commas : Whole ',' 0 cs) (equals : Whole '=' 0 cs)
    {segments : List Segment} :
    readChain readBody (trim cs) = .ok segments ↔
      (segments ≠ [] ∧ Segment.AllWellFormed segments)
        ∧ ∃ parts, Segment.AllWritten segments parts ∧ cs = joined '~' parts := by
  have tilde : IsDelimiter '~' := isDelimiter_of_mem (by decide)
  -- A segment is read from a part of the text, for which all three separators are apart.
  have each : ∀ {parts : List (List Char)}, cs = joined '~' parts → (∀ p ∈ parts, Whole '~' 0 p) →
      ∀ p ∈ parts, ∀ segment : Segment, readSegment readBody (trim cs) (trim p) = .ok segment ↔
        segment.WellFormed ∧ ∃ core, segment.Written core ∧ Pads core p := by
    rintro parts rfl wholes p member segment
    have balanced : ∀ p ∈ parts, isBalanced 0 p := fun p member => (wholes p member).isBalanced
    refine readSegment_trim_eq_ok_iff reads (Nat.le_trans (length_le_joined member) short)
      fun d mark => ?_
    have three : d = ',' ∨ d = '~' ∨ d = '=' := by simpa [separators] using mark
    rcases three with rfl | rfl | rfl
    · exact (whole_joined_iff tilde (by decide) balanced).mp commas p member
    · exact wholes p member
    · exact (whole_joined_iff tilde (by decide) balanced).mp equals p member
  unfold readChain
  rw [except_bind_eq_ok_iff]
  simp only [pieces_trim_eq_ok_iff tilde, pieces_eq_ok_iff tilde]
  constructor
  · rintro ⟨-, ⟨parts, some, text, wholes, rfl⟩, read⟩
    obtain ⟨formed, pairs⟩ := (mapM_trim_eq_ok_iff (each text wholes)).mp read
    exact ⟨⟨(ne_nil_iff_of_forall₂ pairs).mp some, Segment.allWellFormed_iff.mpr formed⟩, parts,
      Segment.allWritten_iff.mpr pairs, text⟩
  · rintro ⟨⟨some, formed⟩, parts, written, text⟩
    have wholes := Segment.forall_whole_of_written segments formed written '~' (by decide)
    have pairs := Segment.allWritten_iff.mp written
    exact ⟨_, ⟨parts, (ne_nil_iff_of_forall₂ pairs).mpr some, text, wholes, rfl⟩,
      (mapM_trim_eq_ok_iff (each text wholes)).mpr
        ⟨Segment.allWellFormed_iff.mp formed, pairs⟩⟩

/-- What is read from a text is a statement that it is written for. -/
theorem written_of_readStatement (reads : Reads readBody bound) {cs : List Char}
    (short : cs.length ≤ bound) (commas : Whole ',' 0 cs) {statement : Statement}
    (success : readStatement readBody (trim cs) = .ok statement) :
    statement.WellFormed ∧ statement.Written cs := by
  have equal : IsDelimiter '=' := isDelimiter_of_mem (by decide)
  unfold readStatement at success
  obtain ⟨pieces, cut, read⟩ := except_bind_eq_ok_iff.mp success
  rw [pieces_trim_eq_ok_iff equal, pieces_eq_ok_iff equal] at cut
  obtain ⟨parts, some, rfl, wholes, rfl⟩ := cut
  have commas' := (whole_joined_iff equal (by decide)
    fun p member => (wholes p member).isBalanced).mp commas
  match parts with
  | [part] =>
    obtain ⟨segments, chain, rfl⟩ := except_map_eq_ok_iff.mp read
    rw [joined_singleton] at short ⊢
    exact (readChain_trim_eq_ok_iff reads short (commas' part List.mem_cons_self)
      (wholes part List.mem_cons_self)).mp chain
  | [left, right] =>
    have inside : right ∈ [left, right] := by simp
    obtain ⟨named, defined⟩ : isName (trim left) ∧ Statement.define (String.ofList (trim left))
        <$> readChain readBody (trim right) = .ok statement := by
      dsimp only [List.map] at read
      split at read
      next named => exact ⟨named, read⟩
      next => cases read
    obtain ⟨segments, chain, rfl⟩ := except_map_eq_ok_iff.mp defined
    obtain ⟨⟨some', formed⟩, parts, written, rfl⟩ := (readChain_trim_eq_ok_iff reads
      (Nat.le_trans (length_le_joined inside) short) (commas' right inside)
      (wholes right inside)).mp chain
    refine ⟨⟨?_, some', formed⟩, left, parts, ?_, written, ?_⟩
    · rw [String.toList_ofList]
      exact isName_iff.mp named
    · rw [String.toList_ofList]
      exact pads_trim left
    · rw [joined_cons_cons, joined_singleton]
  | _ :: _ :: _ :: _ => cases read

theorem readStatement_chain (reads : Reads readBody bound) {segments : List Segment}
    {cs : List Char} (short : cs.length ≤ bound) (commas : Whole ',' 0 cs)
    (formed : (Statement.chain segments).WellFormed)
    (written : (Statement.chain segments).Written cs) :
    readStatement readBody (trim cs) = .ok (.chain segments) := by
  have equal : IsDelimiter '=' := isDelimiter_of_mem (by decide)
  obtain ⟨parts, written, rfl⟩ := written
  have equals : Whole '=' 0 (joined '~' parts) := whole_chain (by decide)
    (Segment.forall_whole_of_written segments formed.2 written '=' (by decide))
  have cut : pieces '=' (trim (joined '~' parts)) = .ok [trim (joined '~' parts)] := by
    rw [pieces_trim_eq_ok_iff equal, pieces_eq_ok_iff equal]
    exact ⟨[joined '~' parts], by simp, (joined_singleton _).symm, by simpa using equals, rfl⟩
  have read := (readChain_trim_eq_ok_iff reads short commas equals).mpr
    ⟨formed, parts, written, rfl⟩
  exact except_bind_eq_ok_iff.mpr ⟨_, cut, except_map_eq_ok_iff.mpr ⟨segments, read, rfl⟩⟩

theorem readStatement_define (reads : Reads readBody bound) {name : String}
    {value : List Segment} {cs : List Char} (short : cs.length ≤ bound) (commas : Whole ',' 0 cs)
    (formed : (Statement.define name value).WellFormed)
    (written : (Statement.define name value).Written cs) :
    readStatement readBody (trim cs) = .ok (.define name value) := by
  have equal : IsDelimiter '=' := isDelimiter_of_mem (by decide)
  obtain ⟨named, formed⟩ := formed
  obtain ⟨left, parts, pads, written, rfl⟩ := written
  have before : Whole '=' 0 left :=
    (whole_iff_of_pads equal pads).mpr (named.isToken.whole (by decide))
  have after : Whole '=' 0 (joined '~' parts) := whole_chain (by decide)
    (Segment.forall_whole_of_written value formed.2 written '=' (by decide))
  have commas' : Whole ',' 0 (joined '~' parts) :=
    ((whole_append_iff before.isBalanced).mp commas).2.2
  have cut : pieces '=' (trim (left ++ '=' :: joined '~' parts))
      = .ok [name.toList, trim (joined '~' parts)] := by
    rw [pieces_trim_eq_ok_iff equal, pieces_eq_ok_iff equal]
    refine ⟨[left, joined '~' parts], by simp, ?_, by simp [before, after], ?_⟩
    · rw [joined_cons_cons, joined_singleton]
    · rw [List.map_cons, List.map_singleton, trim_of_pads pads named.isToken.2.1]
  have inside : (joined '~' parts).length ≤ bound := by
    rw [List.length_append, List.length_cons] at short
    omega
  have read := (readChain_trim_eq_ok_iff reads inside commas' after).mpr
    ⟨formed, parts, written, rfl⟩
  refine except_bind_eq_ok_iff.mpr ⟨_, cut, ?_⟩
  dsimp only
  rw [if_pos (isName_iff.mpr named), String.ofList_toList]
  exact except_map_eq_ok_iff.mpr ⟨value, read, rfl⟩

/-- A statement is read as the one that is written. -/
theorem readStatement_trim_eq_ok_iff (reads : Reads readBody bound) {cs : List Char}
    (short : cs.length ≤ bound) (commas : Whole ',' 0 cs) {statement : Statement} :
    readStatement readBody (trim cs) = .ok statement ↔
      statement.WellFormed ∧ statement.Written cs := by
  refine ⟨written_of_readStatement reads short commas, ?_⟩
  rintro ⟨formed, written⟩
  cases statement with
  | chain segments => exact readStatement_chain reads short commas formed written
  | define name value => exact readStatement_define reads short commas formed written

/-- A statement with blanks around it is read as it is without them. -/
theorem readStatement_trim_eq_ok_iff_pads (reads : Reads readBody bound) {part : List Char}
    (short : part.length ≤ bound) (commas : Whole ',' 0 part) {statement : Statement} :
    readStatement readBody (trim part) = .ok statement ↔
      statement.WellFormed ∧ ∃ core, statement.Written core ∧ Pads core part := by
  constructor
  · intro read
    obtain ⟨formed, written⟩ := (readStatement_trim_eq_ok_iff reads short commas).mp read
    exact ⟨formed, part, written, .refl part⟩
  · rintro ⟨formed, core, written, pads⟩
    rw [trim_eq_of_pads pads]
    exact (readStatement_trim_eq_ok_iff reads (Nat.le_trans pads.length_le short)
      ((whole_iff_of_pads (isDelimiter_of_mem (by decide)) pads).mp commas)).mpr ⟨formed, written⟩

theorem splitStatements_eq_ok_iff {cs : List Char} {trimmed : List (List Char)} :
    splitStatements cs = .ok trimmed ↔ pieces ',' cs = .ok trimmed ∧ [] ∉ trimmed := by
  unfold splitStatements
  rw [except_bind_eq_ok_iff]
  constructor
  · rintro ⟨parts, cut, some⟩
    split at some
    next => cases some
    next full =>
      cases some
      exact ⟨cut, full⟩
  · rintro ⟨cut, full⟩
    exact ⟨trimmed, cut, if_neg full⟩

/-- Statements are read as those that are written with commas between them. -/
theorem readStatements_eq_ok_iff (reads : Reads readBody bound) {cs : List Char}
    (short : cs.length ≤ bound) {statements : List Statement} :
    readStatements readBody cs = .ok statements ↔
      IsWellFormed statements ∧ IsPrinting statements cs := by
  have comma : IsDelimiter ',' := isDelimiter_of_mem (by decide)
  have each : ∀ {parts : List (List Char)}, cs = joined ',' parts → (∀ p ∈ parts, Whole ',' 0 p) →
      ∀ p ∈ parts, ∀ statement : Statement, readStatement readBody (trim p) = .ok statement ↔
        statement.WellFormed ∧ ∃ core, statement.Written core ∧ Pads core p := by
    rintro parts rfl wholes p member statement
    exact readStatement_trim_eq_ok_iff_pads reads (Nat.le_trans (length_le_joined member) short)
      (wholes p member)
  unfold readStatements
  rw [except_bind_eq_ok_iff]
  simp only [splitStatements_eq_ok_iff, pieces_eq_ok_iff comma]
  constructor
  · rintro ⟨-, ⟨⟨parts, some, text, wholes, rfl⟩, -⟩, read⟩
    obtain ⟨formed, pairs⟩ := (mapM_trim_eq_ok_iff (each text wholes)).mp read
    exact ⟨⟨(ne_nil_iff_of_forall₂ pairs).mp some, Statement.allWellFormed_iff.mpr formed⟩, parts,
      Statement.allWritten_iff.mpr pairs, text⟩
  · rintro ⟨⟨some, formed⟩, parts, written, text⟩
    have wholes := Statement.forall_whole_of_written statements formed written
    have pairs := Statement.allWritten_iff.mp written
    have read := (mapM_trim_eq_ok_iff (each text wholes)).mpr
      ⟨Statement.allWellFormed_iff.mp formed, pairs⟩
    refine ⟨_, ⟨⟨parts, (ne_nil_iff_of_forall₂ pairs).mpr some, text, wholes, rfl⟩, ?_⟩, read⟩
    intro empty
    obtain ⟨p, member, nothing⟩ := List.mem_map.mp empty
    exact (Statement.forall_isVisible_of_written formed written p member).trim_ne_nil nothing

/-- Down to any depth, bodies whose length stays below it are read as they are written. -/
theorem reads_readNested (depth : Nat) : Reads (readNested depth) depth := by
  induction depth with
  | zero => exact fun _ short => absurd short (Nat.not_lt_zero _)
  | succ depth ih =>
    intro body short statements
    exact readStatements_eq_ok_iff ih (Nat.le_of_lt_succ short)

end Reader

/-- What is written for well-formed statements is read as these. -/
theorem readArchitecture_of_isPrinting {text : String} {statements : List Statement}
    (formed : IsWellFormed statements) (printing : IsPrinting statements text.toList) :
    readArchitecture text = .ok statements := by
  rw [readArchitecture, if_neg (not_isBlankText_of_isPrinting formed printing)]
  exact (Reader.reads_readNested _ _ (Nat.lt_succ_self _) statements).mpr ⟨formed, printing⟩

/-- What is read is well formed. -/
theorem isWellFormed_of_readArchitecture {text : String} {statements : List Statement}
    (read : readArchitecture text = .ok statements) : IsWellFormed statements := by
  rw [readArchitecture] at read
  split at read
  next => cases read
  next => exact ((Reader.reads_readNested _ _ (Nat.lt_succ_self _) statements).mp read).1

/-- **An architecture is read from a text exactly when it is well formed and written there.** So the
reader refuses every text that is not written so, and no text has two readings. -/
theorem readArchitecture_eq_ok_iff (text : String) (statements : List Statement) :
    readArchitecture text = .ok statements ↔
      IsWellFormed statements ∧ IsPrinting statements text.toList := by
  refine ⟨fun read => ?_, fun ⟨formed, printing⟩ => readArchitecture_of_isPrinting formed printing⟩
  rw [readArchitecture] at read
  split at read
  next => cases read
  next => exact (Reader.reads_readNested _ _ (Nat.lt_succ_self _) statements).mp read

end LayerNet
