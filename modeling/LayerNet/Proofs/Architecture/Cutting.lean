import LayerNet.Architecture.Reader
import LayerNet.Proofs.Text.Trimming
import Mathlib.Data.List.Forall2

/-!
# Cutting — a text is cut where it was joined

`cut` gives pieces exactly when the text is these pieces with the delimiter between them and each is
whole: its braces are balanced, and the delimiter stands only inside of them (`cut_eq_ok_iff`). So
there is one way to cut a text, and the offset, which only errors tell, has no part in it.

Every reader trims its text, and cuts one that was trimmed before. Blanks at the ends of a text are
at the ends of its first and its last piece, so the trimmed pieces are the same
(`pieces_trim_joined`).
-/

namespace LayerNet

namespace Reader

open Text

/-! ## Whole texts -/

/-- From a depth on, all braces are closed, and the delimiter stands only where some are open. -/
def Whole (delimiter : Char) : Nat → List Char → Prop
  | depth, [] => depth = 0
  | depth, c :: rest =>
    if c = '\x7b' then Whole delimiter (depth + 1) rest
    else if c = '\x7d' then 0 < depth ∧ Whole delimiter (depth - 1) rest
    else ¬ (c = delimiter ∧ depth = 0) ∧ Whole delimiter depth rest

/-- Characters that separate parts: no brace and no blank. -/
def IsDelimiter (delimiter : Char) : Prop :=
  delimiter ≠ '\x7b' ∧ delimiter ≠ '\x7d' ∧ isBlank delimiter = false

/-- The pieces of a text with a delimiter between them. -/
def joined (delimiter : Char) (parts : List (List Char)) : List Char :=
  [delimiter].intercalate parts

section

variable {d : Char}

@[simp] theorem joined_singleton (p : List Char) : joined d [p] = p :=
  List.intercalate_singleton

theorem joined_cons_cons (p q : List Char) (rest : List (List Char)) :
    joined d (p :: q :: rest) = p ++ d :: joined d (q :: rest) := by
  simp [joined]

/-- A character in front of the first piece is in front of all. -/
theorem joined_onFirst (c : Char) (p : List Char) (rest : List (List Char)) :
    joined d ((c :: p) :: rest) = c :: joined d (p :: rest) := by
  cases rest <;> simp [joined]

/-- A text that is pieces joined begins with the first of them. -/
theorem cons_eq_joined_iff {c : Char} {cs p : List Char} {rest : List (List Char)} :
    c :: cs = joined d (p :: rest) ↔
      (∃ p', p = c :: p' ∧ cs = joined d (p' :: rest))
        ∨ (p = [] ∧ c = d ∧ ∃ q others, rest = q :: others ∧ cs = joined d (q :: others)) := by
  cases p with
  | cons b p =>
    simp only [joined_onFirst, List.cons.injEq, reduceCtorEq, false_and, or_false]
    constructor
    · rintro ⟨rfl, rest⟩
      exact ⟨p, ⟨rfl, rfl⟩, rest⟩
    · rintro ⟨p', ⟨rfl, rfl⟩, rest⟩
      exact ⟨rfl, rest⟩
  | nil =>
    cases rest with
    | nil => simp
    | cons q others => simp [joined_cons_cons]

/-- The pieces are whole, from a depth on, and the text is these pieces joined. -/
def IsCutInto (d : Char) (depth : Nat) (cs : List Char) (parts : List (List Char)) : Prop :=
  ∃ p rest, parts = p :: rest ∧ cs = joined d (p :: rest) ∧ Whole d depth p
    ∧ ∀ q ∈ rest, Whole d 0 q

/-- The first piece goes on with a character that does not separate. -/
theorem isCutInto_cons_iff {c : Char} {depth next : Nat} {cs : List Char}
    {parts : List (List Char)} (inside : ¬ (c = d ∧ depth = 0))
    (goesOn : ∀ p, Whole d depth (c :: p) ↔ Whole d next p) :
    IsCutInto d depth (c :: cs) parts ↔
      ∃ p rest, parts = (c :: p) :: rest ∧ IsCutInto d next cs (p :: rest) := by
  constructor
  · rintro ⟨p, rest, rfl, text, whole, others⟩
    rcases cons_eq_joined_iff.mp text with ⟨p, rfl, tail⟩ | ⟨rfl, rfl, -⟩
    · exact ⟨p, rest, rfl, p, rest, rfl, tail, (goesOn p).mp whole, others⟩
    · exact absurd ⟨rfl, whole⟩ inside
  · rintro ⟨p, rest, rfl, p', rest', same, text, whole, others⟩
    obtain ⟨rfl, rfl⟩ := List.cons.inj same
    exact ⟨c :: p, rest, rfl, by rw [joined_onFirst, ← text], (goesOn p).mpr whole, others⟩

/-- A separator ends the first piece. -/
theorem isCutInto_delimiter_iff {cs : List Char} {parts : List (List Char)}
    (mark : IsDelimiter d) :
    IsCutInto d 0 (d :: cs) parts ↔ ∃ rest, parts = [] :: rest ∧ IsCutInto d 0 cs rest := by
  constructor
  · rintro ⟨p, rest, rfl, text, whole, others⟩
    rcases cons_eq_joined_iff.mp text with ⟨p, rfl, -⟩ | ⟨rfl, -, q, rest, rfl, tail⟩
    · rw [Whole, if_neg mark.1, if_neg mark.2.1] at whole
      exact absurd ⟨rfl, rfl⟩ whole.1
    · exact ⟨q :: rest, rfl, q, rest, rfl, tail, others q List.mem_cons_self,
        fun q' member => others q' (List.mem_cons_of_mem q member)⟩
  · rintro ⟨-, rfl, q, rest, rfl, text, whole, others⟩
    refine ⟨[], q :: rest, rfl, ?_, rfl, List.forall_mem_cons.mpr ⟨whole, others⟩⟩
    rw [joined_cons_cons, ← text, List.nil_append]

theorem onFirst_map_eq_ok_iff {c : Char} {depth : Nat} {cs : List Char}
    {x : Except Malformation (List (List Char))}
    (found : ∀ parts, x = .ok parts ↔ IsCutInto d depth cs parts) {parts : List (List Char)} :
    (onFirst c <$> x) = .ok parts ↔
      ∃ p rest, parts = (c :: p) :: rest ∧ IsCutInto d depth cs (p :: rest) := by
  simp only [← found]
  cases x with
  | error fault => exact ⟨(nomatch ·), fun ⟨_, _, _, success⟩ => nomatch success⟩
  | ok given =>
    obtain ⟨p, rest, rfl, -⟩ := (found given).mp rfl
    constructor
    · intro success
      cases success
      exact ⟨p, rest, rfl, rfl⟩
    · rintro ⟨-, -, rfl, ⟨⟩⟩
      rfl

theorem map_cons_eq_ok_iff {x : Except Malformation (List (List Char))}
    {parts : List (List Char)} :
    (([] :: ·) <$> x) = .ok parts ↔ ∃ rest, parts = [] :: rest ∧ x = .ok rest := by
  cases x with
  | error fault => exact ⟨(nomatch ·), fun ⟨_, _, success⟩ => nomatch success⟩
  | ok given =>
    constructor
    · intro success
      cases success
      exact ⟨given, rfl, rfl⟩
    · rintro ⟨-, rfl, ⟨⟩⟩
      rfl

/-- A text is cut into pieces exactly when they are whole and it is these pieces joined. -/
theorem cut_eq_ok_iff (mark : IsDelimiter d) {depth offset : Nat} {cs : List Char}
    {parts : List (List Char)} :
    cut d depth offset cs = .ok parts ↔ IsCutInto d depth cs parts := by
  induction cs generalizing depth offset parts with
  | nil =>
    rw [cut]
    constructor
    · intro success
      split at success
      next closed =>
        cases success
        exact ⟨[], [], rfl, rfl, closed, by simp⟩
      next => cases success
    · rintro ⟨p, rest, rfl, empty, whole, -⟩
      cases rest with
      | cons q others => simp [joined_cons_cons] at empty
      | nil =>
        rw [joined_singleton] at empty
        subst empty
        exact if_pos whole
  | cons c cs ih =>
    rw [cut]
    split
    next opens =>
      rw [onFirst_map_eq_ok_iff fun parts => ih]
      exact (isCutInto_cons_iff (fun both => mark.1 (both.1.symm.trans opens))
        fun p => by rw [Whole, if_pos opens]).symm
    next opens =>
      split
      next closes =>
        have inside : ¬ (c = d ∧ depth = 0) := fun both => mark.2.1 (both.1.symm.trans closes)
        split
        next outermost =>
          refine ⟨(nomatch ·), ?_⟩
          rintro ⟨p, rest, rfl, text, whole, -⟩
          rcases cons_eq_joined_iff.mp text with ⟨p, rfl, -⟩ | ⟨-, rfl, -⟩
          · rw [Whole, if_neg opens, if_pos closes, outermost] at whole
            exact absurd whole.1 (Nat.lt_irrefl 0)
          · exact absurd ⟨rfl, outermost⟩ inside
        next deeper =>
          rw [onFirst_map_eq_ok_iff fun parts => ih]
          exact (isCutInto_cons_iff inside fun p => by
            rw [Whole, if_neg opens, if_pos closes]
            exact and_iff_right (Nat.pos_of_ne_zero deeper)).symm
      next closes =>
        split
        next delimits =>
          obtain ⟨rfl, rfl⟩ := delimits
          rw [map_cons_eq_ok_iff, isCutInto_delimiter_iff mark]
          simp only [ih]
        next inside =>
          rw [onFirst_map_eq_ok_iff fun parts => ih]
          exact (isCutInto_cons_iff inside fun p => by
            rw [Whole, if_neg opens, if_neg closes]
            exact and_iff_right inside).symm

/-! ## Braces and delimiters of texts put together -/

/-- An open brace is never a delimiter, so texts that are whole for it are just balanced. -/
theorem whole_brace_iff {depth : Nat} {cs : List Char} :
    Whole '\x7b' depth cs ↔ isBalanced depth cs := by
  induction cs generalizing depth with
  | nil => simp [Whole, isBalanced]
  | cons c cs ih =>
    rw [Whole, isBalanced]
    split
    next => exact ih
    next opens =>
      split
      next => simp [ih]
      next => simp [ih, opens]

theorem Whole.isBalanced {depth : Nat} {cs : List Char} (whole : Whole d depth cs) :
    isBalanced depth cs := by
  induction cs generalizing depth with
  | nil => simpa [Reader.isBalanced, Whole] using whole
  | cons c cs ih =>
    rw [Whole] at whole
    rw [Reader.isBalanced]
    split at whole
    next opens =>
      rw [if_pos opens]
      exact ih whole
    next opens =>
      rw [if_neg opens]
      split at whole
      next closes =>
        rw [if_pos closes]
        simp [whole.1, ih whole.2]
      next closes =>
        rw [if_neg closes]
        exact ih whole.2

/-- Behind a balanced text the delimiter counts again. -/
theorem whole_append_iff {depth : Nat} {before after : List Char}
    (balanced : isBalanced depth before) :
    Whole d depth (before ++ after) ↔ Whole d depth before ∧ Whole d 0 after := by
  induction before generalizing depth with
  | nil =>
    obtain rfl : depth = 0 := by simpa [isBalanced] using balanced
    simp [Whole]
  | cons c before ih =>
    rw [isBalanced] at balanced
    rw [List.cons_append, Whole, Whole]
    split at balanced
    next opens =>
      rw [if_pos opens, if_pos opens]
      exact ih balanced
    next opens =>
      rw [if_neg opens, if_neg opens]
      split at balanced
      next closes =>
        obtain ⟨-, balanced⟩ : 0 < depth ∧ isBalanced (depth - 1) before := by
          simpa using balanced
        rw [if_pos closes, if_pos closes, ih balanced, and_assoc]
      next closes => rw [if_neg closes, if_neg closes, ih balanced, and_assoc]

theorem whole_of_plain {cs : List Char}
    (plain : ∀ c ∈ cs, c ≠ '\x7b' ∧ c ≠ '\x7d' ∧ c ≠ d) : Whole d 0 cs := by
  induction cs with
  | nil => rfl
  | cons c cs ih =>
    obtain ⟨⟨opens, closes, delimits⟩, plain⟩ := List.forall_mem_cons.mp plain
    rw [Whole, if_neg opens, if_neg closes]
    exact ⟨fun both => delimits both.1, ih plain⟩

/-- Where no brace is opened, a delimiter would be outside of all. -/
theorem Whole.delimiter_not_mem {cs : List Char} (whole : Whole d 0 cs)
    (opens : '\x7b' ∉ cs) (closes : '\x7d' ∉ cs) : d ∉ cs := by
  induction cs with
  | nil => exact List.not_mem_nil
  | cons c cs ih =>
    obtain ⟨opens, others⟩ := not_or.mp (List.mem_cons.not.mp opens)
    obtain ⟨closes, others'⟩ := not_or.mp (List.mem_cons.not.mp closes)
    rw [Whole, if_neg (Ne.symm opens), if_neg (Ne.symm closes)] at whole
    refine List.mem_cons.not.mpr (not_or.mpr ⟨fun same => whole.1 ⟨same.symm, rfl⟩, ?_⟩)
    exact ih whole.2 others others'

/-- A text that is balanced from a depth on leaves one more brace to close. -/
theorem whole_append_close {depth : Nat} {cs : List Char} (balanced : isBalanced depth cs) :
    Whole d (depth + 1) (cs ++ ['\x7d']) := by
  induction cs generalizing depth with
  | nil =>
    obtain rfl : depth = 0 := by simpa [isBalanced] using balanced
    exact ⟨Nat.one_pos, rfl⟩
  | cons c cs ih =>
    rw [isBalanced] at balanced
    rw [List.cons_append, Whole]
    split at balanced
    next opens =>
      rw [if_pos opens]
      exact ih balanced
    next opens =>
      rw [if_neg opens]
      split at balanced
      next closes =>
        obtain ⟨deep, balanced⟩ : 0 < depth ∧ isBalanced (depth - 1) cs := by
          simpa using balanced
        rw [if_pos closes]
        refine ⟨Nat.succ_pos depth, ?_⟩
        have next := ih balanced
        rwa [Nat.sub_add_cancel deep] at next
      next closes =>
        rw [if_neg closes]
        exact ⟨fun both => Nat.succ_ne_zero depth both.2, ih balanced⟩

/-- What stands between braces is whole for every delimiter. -/
theorem whole_enclosed {inner : List Char} (balanced : isBalanced 0 inner) :
    Whole d 0 ('\x7b' :: inner ++ ['\x7d']) := by
  rw [List.cons_append, Whole, if_pos rfl]
  exact whole_append_close balanced

/-- A body is what stands in one pair of braces and is balanced on its own. -/
theorem moduleBody?_eq_some_iff {cs body : List Char} :
    moduleBody? cs = some body ↔ cs = '\x7b' :: body ++ ['\x7d'] ∧ isBalanced 0 body := by
  constructor
  · intro found
    unfold moduleBody? at found
    split at found
    next rest =>
      split at found
      next closed =>
        obtain rfl := Option.some.inj found
        refine ⟨?_, closed.2⟩
        rw [List.cons_append, List.dropLast_append_getLast? _ closed.1]
      next => cases found
    next => cases found
  · rintro ⟨rfl, balanced⟩
    simp [moduleBody?, balanced]

/-- Blanks are whole, for braces and delimiters are not blank. -/
theorem whole_of_blank (mark : IsDelimiter d) {cs : List Char} (blank : isBlankText cs) :
    Whole d 0 cs := by
  refine whole_of_plain fun c member => ⟨?_, ?_, ?_⟩
  · rintro rfl
    exact not_mem_of_blank (by decide) blank member
  · rintro rfl
    exact not_mem_of_blank (by decide) blank member
  · rintro rfl
    exact not_mem_of_blank mark.2.2 blank member

/-- A text without braces closes none, so what stands before it is closed. -/
theorem Whole.of_append {depth : Nat} {cs after : List Char}
    (whole : Whole d depth (cs ++ after)) (opens : '\x7b' ∉ after) (closes : '\x7d' ∉ after) :
    Whole d depth cs := by
  induction cs generalizing depth with
  | nil =>
    rw [List.nil_append] at whole
    induction after with
    | nil => exact whole
    | cons c after ih =>
      obtain ⟨opens, others⟩ := not_or.mp (List.mem_cons.not.mp opens)
      obtain ⟨closes, others'⟩ := not_or.mp (List.mem_cons.not.mp closes)
      rw [Whole, if_neg (Ne.symm opens), if_neg (Ne.symm closes)] at whole
      exact ih others others' whole.2
  | cons c cs ih =>
    rw [List.cons_append, Whole] at whole
    rw [Whole]
    split at whole
    next opens =>
      rw [if_pos opens]
      exact ih whole
    next opens =>
      rw [if_neg opens]
      split at whole
      next closes =>
        rw [if_pos closes]
        exact ⟨whole.1, ih whole.2⟩
      next closes =>
        rw [if_neg closes]
        exact ⟨whole.1, ih whole.2⟩

/-- Blanks around a text do not decide whether it is whole. -/
theorem whole_iff_of_pads (mark : IsDelimiter d) {core padded : List Char}
    (pads : Pads core padded) : Whole d 0 padded ↔ Whole d 0 core := by
  obtain ⟨before, after, blank, blank', rfl⟩ := pads
  have front := whole_of_blank mark blank
  have back := whole_of_blank mark blank'
  rw [List.append_assoc, whole_append_iff front.isBalanced, and_iff_right front]
  constructor
  · intro whole
    exact whole.of_append (not_mem_of_blank (by decide) blank')
      (not_mem_of_blank (by decide) blank')
  · intro whole
    exact (whole_append_iff whole.isBalanced).mpr ⟨whole, back⟩

/-- A text of whole pieces is whole for another delimiter exactly when its pieces are. -/
theorem whole_joined_iff {d' : Char} (mark : IsDelimiter d) (other : d' ≠ d)
    {parts : List (List Char)} (wholes : ∀ p ∈ parts, isBalanced 0 p) :
    Whole d' 0 (joined d parts) ↔ ∀ p ∈ parts, Whole d' 0 p := by
  induction parts with
  | nil => simp [joined, Whole]
  | cons p rest ih =>
    obtain ⟨balanced, balanced'⟩ := List.forall_mem_cons.mp wholes
    cases rest with
    | nil => simp
    | cons q rest =>
      rw [joined_cons_cons, whole_append_iff balanced, List.forall_mem_cons, ← ih balanced', Whole,
        if_neg mark.1, if_neg mark.2.1, and_iff_right fun both => other both.1.symm]

/-! ## Trimmed pieces -/

/-- What stands before the pieces stands before the first of them. -/
theorem append_joined (before p : List Char) (rest : List (List Char)) :
    before ++ joined d (p :: rest) = joined d ((before ++ p) :: rest) := by
  cases rest <;> simp [joined_cons_cons]

/-- A text without delimiters in front of other text is in front of the first piece. -/
theorem append_eq_joined {before cs p : List Char} {rest : List (List Char)}
    (plain : d ∉ before) (text : before ++ cs = joined d (p :: rest)) :
    ∃ p', p = before ++ p' ∧ cs = joined d (p' :: rest) := by
  induction before generalizing p with
  | nil => exact ⟨p, rfl, text⟩
  | cons c before ih =>
    obtain ⟨differs, plain⟩ := not_or.mp (List.mem_cons.not.mp plain)
    rcases cons_eq_joined_iff.mp text with ⟨p, rfl, tail⟩ | ⟨-, rfl, -⟩
    · obtain ⟨p', rfl, cut⟩ := ih plain tail
      exact ⟨p', rfl, cut⟩
    · exact absurd rfl differs

/-- Blanks behind pieces are behind the last of them. -/
theorem exists_joined_append {after : List Char} (blank : isBlankText after)
    {parts : List (List Char)} (some : parts ≠ []) :
    ∃ parts', joined d parts ++ after = joined d parts' ∧ List.Forall₂ Pads parts parts' := by
  induction parts with
  | nil => exact absurd rfl some
  | cons p rest ih =>
    cases rest with
    | nil =>
      have pads : Pads p (p ++ after) := ⟨[], after, rfl, blank, rfl⟩
      exact ⟨[p ++ after], by simp, .cons pads .nil⟩
    | cons q rest =>
      obtain ⟨parts, text, pads⟩ := ih (List.cons_ne_nil q rest)
      cases pads with
      | @cons _ q' _ rest' first others =>
        refine ⟨p :: q' :: rest', ?_, .cons (.refl p) (.cons first others)⟩
        rw [joined_cons_cons, joined_cons_cons, List.append_assoc, List.cons_append, text]

/-- Without the blanks at its end a text has the same pieces, the last of them without these. -/
theorem exists_joined_of_append (mark : IsDelimiter d) {cs after : List Char}
    (blank : isBlankText after) {parts : List (List Char)} (some : parts ≠ [])
    (text : cs ++ after = joined d parts) :
    ∃ parts', cs = joined d parts' ∧ List.Forall₂ Pads parts' parts := by
  induction parts generalizing cs with
  | nil => exact absurd rfl some
  | cons p rest ih =>
    cases rest with
    | nil =>
      obtain rfl : cs ++ after = p := by simpa using text
      exact ⟨[cs], by simp, .cons ⟨[], after, rfl, blank, rfl⟩ .nil⟩
    | cons q rest =>
      rw [joined_cons_cons] at text
      have visible : d ∉ after := not_mem_of_blank mark.2.2 blank
      rcases List.append_eq_append_iff.mp text with ⟨front, -, back⟩ | ⟨back, front, tail⟩
      · exact absurd (back ▸ List.mem_append_right front List.mem_cons_self) visible
      · cases back with
        | nil =>
          rw [List.nil_append] at tail
          exact absurd (tail ▸ List.mem_cons_self) visible
        | cons c back =>
          rw [List.cons_append, List.cons.injEq] at tail
          obtain ⟨rfl, tail⟩ := tail
          obtain ⟨parts, rfl, pads⟩ := ih (List.cons_ne_nil q rest) tail.symm
          cases pads with
          | @cons q' _ rest' _ first others =>
            exact ⟨p :: q' :: rest', by rw [joined_cons_cons, front],
              .cons (.refl p) (.cons first others)⟩

/-- Blanks around a text are around its first and its last piece. -/
theorem exists_joined_of_pads {core padded : List Char} (pads : Pads core padded)
    {parts : List (List Char)} (some : parts ≠ []) (text : core = joined d parts) :
    ∃ parts', padded = joined d parts' ∧ List.Forall₂ Pads parts parts' := by
  obtain ⟨before, after, blank, blank', rfl⟩ := pads
  obtain ⟨p, rest, rfl⟩ := List.exists_cons_of_ne_nil some
  obtain ⟨parts', text', pads⟩ := exists_joined_append blank' some (d := d)
  cases pads with
  | @cons _ p' _ rest' first others =>
    refine ⟨(before ++ p') :: rest', ?_, .cons (.trans ?_ first) others⟩
    · rw [← append_joined, ← text', text, List.append_assoc]
    · exact ⟨before, [], blank, rfl, by simp⟩

/-- Without the blanks around it a text has the same pieces, but for blanks. -/
theorem exists_joined_of_padded (mark : IsDelimiter d) {core padded : List Char}
    (pads : Pads core padded) {parts : List (List Char)} (some : parts ≠ [])
    (text : padded = joined d parts) :
    ∃ parts', core = joined d parts' ∧ List.Forall₂ Pads parts' parts := by
  obtain ⟨before, after, blank, blank', rfl⟩ := pads
  obtain ⟨p, rest, rfl⟩ := List.exists_cons_of_ne_nil some
  rw [List.append_assoc] at text
  obtain ⟨p, rfl, tail⟩ := append_eq_joined (not_mem_of_blank mark.2.2 blank) text
  obtain ⟨parts', text', pads⟩ :=
    exists_joined_of_append mark blank' (List.cons_ne_nil p rest) tail
  cases pads with
  | @cons p' _ rest' _ first others =>
    refine ⟨p' :: rest', text', .cons (.trans ?_ first) others⟩
    exact ⟨before, [], blank, rfl, by simp⟩

theorem pieces_eq_ok_iff (mark : IsDelimiter d) {cs : List Char} {trimmed : List (List Char)} :
    pieces d cs = .ok trimmed ↔ ∃ parts, parts ≠ [] ∧ cs = joined d parts
      ∧ (∀ p ∈ parts, Whole d 0 p) ∧ trimmed = parts.map trim := by
  rw [pieces]
  constructor
  · intro success
    split at success
    next parts found =>
      cases success
      obtain ⟨p, rest, rfl, text, whole, others⟩ := (cut_eq_ok_iff mark).mp found
      exact ⟨p :: rest, List.cons_ne_nil p rest, text, List.forall_mem_cons.mpr ⟨whole, others⟩,
        rfl⟩
    next => cases success
  · rintro ⟨parts, some, text, wholes, rfl⟩
    obtain ⟨p, rest, rfl⟩ := List.exists_cons_of_ne_nil some
    obtain ⟨whole, others⟩ := List.forall_mem_cons.mp wholes
    rw [(cut_eq_ok_iff mark).mpr ⟨p, rest, rfl, text, whole, others⟩]

theorem map_trim_eq_of_pads {parts padded : List (List Char)}
    (pads : List.Forall₂ Pads parts padded) : padded.map trim = parts.map trim := by
  induction pads with
  | nil => rfl
  | cons first _ ih => rw [List.map_cons, List.map_cons, trim_eq_of_pads first, ih]

theorem forall_whole_iff_of_pads (mark : IsDelimiter d) {parts padded : List (List Char)}
    (pads : List.Forall₂ Pads parts padded) :
    (∀ p ∈ padded, Whole d 0 p) ↔ ∀ p ∈ parts, Whole d 0 p := by
  induction pads with
  | nil => exact Iff.rfl
  | cons first _ ih =>
    rw [List.forall_mem_cons, List.forall_mem_cons, whole_iff_of_pads mark first, ih]

/-- A trimmed text gives the pieces of the text itself, without the blanks around them. -/
theorem pieces_trim_eq_ok_iff (mark : IsDelimiter d) {cs : List Char}
    {trimmed : List (List Char)} :
    pieces d (trim cs) = .ok trimmed ↔ pieces d cs = .ok trimmed := by
  rw [pieces_eq_ok_iff mark, pieces_eq_ok_iff mark]
  constructor
  · rintro ⟨parts, some, text, wholes, rfl⟩
    obtain ⟨padded, text', pads⟩ := exists_joined_of_pads (pads_trim cs) some text
    refine ⟨padded, ?_, text', (forall_whole_iff_of_pads mark pads).mpr wholes,
      (map_trim_eq_of_pads pads).symm⟩
    rintro rfl
    exact some (List.forall₂_nil_right_iff.mp pads)
  · rintro ⟨padded, some, text, wholes, rfl⟩
    obtain ⟨parts, text', pads⟩ := exists_joined_of_padded mark (pads_trim cs) some text
    refine ⟨parts, ?_, text', (forall_whole_iff_of_pads mark pads).mp wholes,
      map_trim_eq_of_pads pads⟩
    rintro rfl
    exact some (List.forall₂_nil_left_iff.mp pads)

end

end Reader

end LayerNet
