import LayerNet.Proofs.Architecture.Grammar
import LayerNet.Proofs.Failures
import LayerNet.Proofs.Outcome

/-!
# Braces — a fault of braces is found in the whole text

Every split of a text counts the braces anew: the text itself is split at its commas, a statement at
its equals signs, a chain at its tildes, and the body of a module at its commas again
(`Reader.Splits`). A split fails exactly where the braces of its own text are not balanced
(`Reader.exists_pieces_iff`). Texts are cut where no brace is open, and a body is what stands in one
pair of braces, so all that is split behind the first split is balanced (`Reader.Splits.balanced`).

On the other side, the reader refuses a text for its braces only where one of these splits does
(`Reader.locates_readNested`). So braces are counted in vain behind the first split: if they are
faulty, then it fails, and what it shows is the whole text (`braceFaults_outermost`).
-/

namespace LayerNet

open Text

/-- Whether the fault is one of braces: one closes nothing, or one is never closed. -/
def Malformation.isOfBraces : Malformation → Bool
  | .unmatched _ | .unclosed => true
  | _ => false

namespace Reader

/-- Some beginning of the text closes more braces than it opens, or the whole text does not close as
many as it opens. -/
def Unbalanced (cs : List Char) : Prop :=
  (∃ before, before <+: cs ∧ before.count '\x7b' < before.count '\x7d')
    ∨ cs.count '\x7b' ≠ cs.count '\x7d'

/-! ## Counting braces -/

theorem forall_prefix_cons {c : Char} {cs : List Char} {P : List Char → Prop} :
    (∀ before, before <+: c :: cs → P before)
      ↔ P [] ∧ ∀ before, before <+: cs → P (c :: before) := by
  constructor
  · intro all
    refine ⟨all [] List.nil_prefix, fun before begins => ?_⟩
    exact all _ (List.cons_prefix_cons.mpr ⟨rfl, begins⟩)
  · rintro ⟨none, all⟩ before begins
    rcases List.prefix_cons_iff.mp begins with rfl | ⟨rest, rfl, further⟩
    · exact none
    · exact all rest further

/-- From a depth on, braces are balanced when no beginning closes more than are open, and the whole
closes all of them. -/
theorem isBalanced_iff {depth : Nat} {cs : List Char} : isBalanced depth cs ↔
    (∀ before, before <+: cs → before.count '\x7d' ≤ depth + before.count '\x7b')
      ∧ cs.count '\x7d' = depth + cs.count '\x7b' := by
  induction cs generalizing depth with
  | nil => simp [isBalanced, eq_comm]
  | cons c cs ih =>
    rw [isBalanced, forall_prefix_cons]
    split
    next opens =>
      subst opens
      simp [ih, Nat.add_assoc, Nat.add_comm 1]
    next opens =>
      split
      next closes =>
        subst closes
        rw [Bool.and_eq_true, decide_eq_true_eq, ih]
        simp only [List.count_cons_self, List.count_cons_of_ne opens]
        constructor
        · rintro ⟨deep, sane, settled⟩
          refine ⟨⟨by simp, fun before begins => ?_⟩, by omega⟩
          have := sane before begins
          omega
        · rintro ⟨⟨-, sane⟩, settled⟩
          -- The closing brace alone is a beginning, so one was open before it.
          have deep : 1 ≤ depth := by simpa using sane [] List.nil_prefix
          refine ⟨deep, fun before begins => ?_, by omega⟩
          have := sane before begins
          omega
      next closes => simp [ih, List.count_cons_of_ne opens, List.count_cons_of_ne closes]

theorem isBalanced_iff_not_unbalanced {cs : List Char} : isBalanced 0 cs ↔ ¬ Unbalanced cs := by
  simp only [isBalanced_iff, Unbalanced, not_or, not_exists, not_and, Nat.not_lt, Nat.zero_add,
    ne_eq, not_not]
  rw [eq_comm (a := cs.count '\x7d')]

/-- The outcome of a count of braces: a success if they are balanced, else a fault of braces. -/
def Judges {α : Type} (balanced : Bool) : Except Malformation α → Prop
  | .ok _ => balanced = true
  | .error fault => balanced = false ∧ fault.isOfBraces = true

theorem Judges.map {α β : Type} {balanced : Bool} {x : Except Malformation α}
    (judges : Judges balanced x) (f : α → β) : Judges balanced (f <$> x) := by
  cases x <;> exact judges

/-- Whatever the delimiter, a cut judges the braces of the text from the depth on. -/
theorem judges_cut (d : Char) (depth offset : Nat) (cs : List Char) :
    Judges (isBalanced depth cs) (cut d depth offset cs) := by
  induction cs generalizing depth offset with
  | nil =>
    rw [cut, isBalanced]
    split
    next closed => simp [Judges, closed]
    next deep => simp [Judges, deep, Malformation.isOfBraces]
  | cons c cs ih =>
    rw [cut, isBalanced]
    split
    next => exact (ih _ _).map _
    next =>
      split
      next =>
        split
        next outermost => simp [Judges, outermost, Malformation.isOfBraces]
        next deeper => simpa [Nat.pos_of_ne_zero deeper] using (ih (depth - 1) _).map (onFirst c)
      next => split <;> exact (ih _ _).map _

/-- A split succeeds exactly where the braces of its text are balanced. -/
theorem exists_pieces_iff {d : Char} {cs : List Char} :
    (∃ parts, pieces d cs = .ok parts) ↔ isBalanced 0 cs := by
  have judges := judges_cut d 0 0 cs
  unfold pieces
  cases outcome : cut d 0 0 cs with
  | ok parts =>
    rw [outcome] at judges
    exact ⟨fun _ => judges, fun _ => ⟨_, rfl⟩⟩
  | error fault =>
    rw [outcome] at judges
    simp [judges.1, malformed]

/-- A split that fails shows the text that was to be split, for a fault of braces. -/
theorem failsOnly_pieces_braces (d : Char) (cs : List Char) :
    FailsOnly (fun e => ∃ fault, e = .malformed (String.ofList cs) fault ∧ fault.isOfBraces)
      (pieces d cs) := by
  have judges := judges_cut d 0 0 cs
  unfold pieces
  cases outcome : cut d 0 0 cs with
  | ok parts => exact .ok _
  | error fault =>
    rw [outcome] at judges
    exact .error ⟨fault, rfl, judges.2⟩

/-- A text that is left by a split is balanced. -/
theorem isBalanced_of_mem_pieces {d : Char} (mark : IsDelimiter d) {cs part : List Char}
    {parts : List (List Char)} (split : pieces d cs = .ok parts) (member : part ∈ parts) :
    isBalanced 0 part := by
  obtain ⟨padded, -, -, wholes, rfl⟩ := (pieces_eq_ok_iff mark).mp split
  obtain ⟨whole, among, rfl⟩ := List.mem_map.mp member
  exact ((whole_iff_of_pads mark (pads_trim whole)).mp (wholes whole among)).isBalanced

/-! ## The splits of a text -/

/-- The splits that reading a text can come to, each with its delimiter: that of the text itself,
of its statements, of their chains, and again of the bodies of modules. -/
inductive Splits (text : List Char) : Char → List Char → Prop
  | whole : Splits text ',' text
  | statement {list : List Char} {statements : List (List Char)} {statement : List Char} :
    Splits text ',' list → pieces ',' list = .ok statements → statement ∈ statements →
      Splits text '=' statement
  | chain {statement : List Char} {chains : List (List Char)} {chain : List Char} :
    Splits text '=' statement → pieces '=' statement = .ok chains → chain ∈ chains →
      Splits text '~' chain
  | body {chain : List Char} {segments : List (List Char)} {segment body : List Char} :
    Splits text '~' chain → pieces '~' chain = .ok segments → segment ∈ segments →
      moduleBody? segment = some body → Splits text ',' body

namespace Splits

variable {text body part : List Char} {d : Char}

/-- All that is split behind the first split is balanced. -/
theorem balanced (splits : Splits text d part) (behind : (d, part) ≠ (',', text)) :
    isBalanced 0 part := by
  cases splits with
  | whole => exact absurd rfl behind
  | statement _ split member =>
    exact isBalanced_of_mem_pieces (isDelimiter_of_mem (by decide)) split member
  | chain _ split member =>
    exact isBalanced_of_mem_pieces (isDelimiter_of_mem (by decide)) split member
  | body _ _ _ enclosed => exact (moduleBody?_eq_some_iff.mp enclosed).2

theorem exists_pieces (splits : Splits text d part) (behind : (d, part) ≠ (',', text)) :
    ∃ parts, pieces d part = .ok parts :=
  exists_pieces_iff.mpr (splits.balanced behind)

/-- What is split in a body is split in the text around it. -/
theorem trans (outer : Splits text ',' body) (inner : Splits body d part) : Splits text d part := by
  induction inner with
  | whole => exact outer
  | statement _ split member ih => exact .statement ih split member
  | chain _ split member ih => exact .chain ih split member
  | body _ split member enclosed ih => exact .body ih split member enclosed

end Splits

/-! ## The reader's faults -/

/-- If the error is about braces, it is that of a split of the text. -/
def Locates (text : List Char) (e : CompileError) : Prop :=
  ∀ shown fault, e = .malformed shown fault → fault.isOfBraces →
    ∃ d part, Splits text d part ∧ pieces d part = .error e

theorem locates_malformed {α : Type} (text shown : List Char) {fault : Malformation}
    (other : fault.isOfBraces = false) :
    FailsOnly (Locates text) (malformed shown fault : Except CompileError α) := by
  refine .error fun _ _ same braces => ?_
  cases same
  exact absurd (other.symm.trans braces) Bool.false_ne_true

theorem locates_pieces {text part : List Char} {d : Char} (splits : Splits text d part) :
    FailsOnly (Locates text) (pieces d part) :=
  fun _ failed _ _ _ _ => ⟨d, part, splits, failed⟩

section

variable {readBody : BodyReader} (bodies : ∀ body, FailsOnly (Locates body) (readBody body))
  {text : List Char}
include bodies

theorem locates_readSegment {chain segment : List Char} {segments : List (List Char)}
    (splits : Splits text '~' chain) (split : pieces '~' chain = .ok segments)
    (member : segment ∈ segments) :
    FailsOnly (Locates text) (readSegment readBody chain segment) := by
  unfold readSegment
  split
  · exact locates_malformed text chain rfl
  split
  next body enclosed =>
    split
    · exact locates_malformed text segment rfl
    · refine ((bodies body).mono fun e located shown fault same braces => ?_).map _
      obtain ⟨d, part, inner, failed⟩ := located shown fault same braces
      exact ⟨d, part, (Splits.body splits split member enclosed).trans inner, failed⟩
  next =>
    split
    · exact locates_malformed text segment rfl
    · exact .ok _

theorem locates_readChain {chain : List Char} (splits : Splits text '~' chain) :
    FailsOnly (Locates text) (readChain readBody chain) :=
  (locates_pieces splits).bind fun _ split =>
    .mapM _ fun _ member => locates_readSegment bodies splits split member

theorem locates_readStatement {statement : List Char} (splits : Splits text '=' statement) :
    FailsOnly (Locates text) (readStatement readBody statement) := by
  refine (locates_pieces splits).bind fun chains split => ?_
  split
  next chain =>
    exact (locates_readChain bodies (.chain splits split List.mem_cons_self)).map _
  next name value =>
    split
    · exact (locates_readChain bodies (.chain splits split (by simp))).map _
    · exact locates_malformed text statement rfl
  · exact locates_malformed text statement rfl

theorem locates_readStatements : FailsOnly (Locates text) (readStatements readBody text) := by
  have split : FailsOnly (Locates text) (splitStatements text) := by
    refine (locates_pieces .whole).bind fun parts _ => ?_
    split
    · exact locates_malformed text text rfl
    · exact .ok _
  refine split.bind fun statements success => .mapM _ fun statement member => ?_
  obtain ⟨parts, split, given⟩ := except_bind_eq_ok_iff.mp success
  have same : parts = statements := by
    split at given
    · cases given
    · exact Except.ok.inj given
  exact locates_readStatement bodies (.statement .whole split (same ▸ member))

end

/-- Whatever the reader refuses for its braces is refused in a split, by induction on the depth. -/
theorem locates_readNested (depth : Nat) (text : List Char) :
    FailsOnly (Locates text) (readNested depth text) := by
  induction depth generalizing text with
  | zero => exact locates_malformed text text rfl
  | succ depth ih => exact locates_readStatements ih

/-- Nothing is read of a text whose own split fails. -/
theorem readNested_of_pieces_error {text : List Char} {e : CompileError}
    (failed : pieces ',' text = .error e) (depth : Nat) :
    readNested (depth + 1) text = .error e := by
  show (do (← splitStatements text).mapM (readStatement (readNested depth))) = _
  unfold splitStatements
  rw [failed]
  rfl

theorem not_isBlankText_of_unbalanced {cs : List Char} (unbalanced : Unbalanced cs) :
    ¬ isBlankText cs := by
  intro blank
  have whole : Whole ',' 0 cs := whole_of_blank (isDelimiter_of_mem (by decide)) blank
  exact isBalanced_iff_not_unbalanced.mp whole.isBalanced unbalanced

/-- A text that is refused for its braces is refused in its own split, for all others succeed. -/
theorem pieces_of_refused {text shown : String} {fault : Malformation}
    (refused : readArchitecture text = .error (.malformed shown fault))
    (braces : fault.isOfBraces) :
    shown = text ∧ pieces ',' text.toList = .error (.malformed text fault) := by
  unfold readArchitecture at refused
  dsimp only at refused
  split at refused
  · cases refused
  obtain ⟨d, part, splits, failed⟩ := locates_readNested _ _ _ refused shown fault rfl braces
  -- The reader stopped in one of the splits, and only the first of them can fail.
  by_cases first : (d, part) = (',', text.toList)
  · obtain ⟨rfl, rfl⟩ := Prod.mk.inj first
    obtain ⟨_, same, -⟩ := failsOnly_pieces_braces _ _ _ failed
    cases same
    rw [String.ofList_toList] at failed ⊢
    exact ⟨rfl, failed⟩
  · obtain ⟨parts, success⟩ := splits.exists_pieces first
    cases failed.symm.trans success

/-- A text with unbalanced braces is refused, and shown as a whole. -/
theorem refused_of_unbalanced {text : String} (unbalanced : Unbalanced text.toList) :
    ∃ fault, readArchitecture text = .error (.malformed text fault) ∧ fault.isOfBraces := by
  cases split : pieces ',' text.toList with
  | ok parts =>
    have balanced := exists_pieces_iff.mp ⟨parts, split⟩
    exact absurd unbalanced (isBalanced_iff_not_unbalanced.mp balanced)
  | error e =>
    obtain ⟨fault, rfl, braces⟩ := failsOnly_pieces_braces _ _ e split
    rw [String.ofList_toList] at split
    refine ⟨fault, ?_, braces⟩
    unfold readArchitecture
    dsimp only
    rw [if_neg (not_isBlankText_of_unbalanced unbalanced)]
    exact readNested_of_pieces_error split _

end Reader

open Reader

/-- Faults of braces are found at the outermost level. A text is refused for its braces exactly when
these are unbalanced. Then the split of the whole text has failed, and the whole text is shown. None
of the splits behind it can fail: neither those of statements and chains nor those of the bodies of
modules, however deep. -/
theorem braceFaults_outermost (text : String) :
    ((∃ shown fault, readArchitecture text = .error (.malformed shown fault) ∧ fault.isOfBraces)
        ↔ Unbalanced text.toList)
      ∧ (∀ shown fault, readArchitecture text = .error (.malformed shown fault) →
        fault.isOfBraces → shown = text
          ∧ pieces ',' text.toList = .error (.malformed text fault))
      ∧ ∀ delimiter part, Splits text.toList delimiter part →
        (delimiter, part) ≠ (',', text.toList) → ∃ parts, pieces delimiter part = .ok parts := by
  refine ⟨⟨?_, fun unbalanced => ⟨text, refused_of_unbalanced unbalanced⟩⟩,
    fun _ _ => pieces_of_refused, fun _ _ => Splits.exists_pieces⟩
  rintro ⟨shown, fault, refused, braces⟩
  by_contra balanced
  obtain ⟨parts, success⟩ := (exists_pieces_iff (d := ',')).mpr
    (isBalanced_iff_not_unbalanced.mpr balanced)
  cases (pieces_of_refused refused braces).2.symm.trans success

/-- A brace that is left open in a definition is left open in the whole text. -/
theorem braceFaults_outermost_unclosed : ∃ fault, fault.isOfBraces
    ∧ readArchitecture "A=\x7b\x7b3N\x7d" = .error (.malformed "A=\x7b\x7b3N\x7d" fault) := by
  obtain ⟨⟨-, refuses⟩, outermost, -⟩ := braceFaults_outermost "A=\x7b\x7b3N\x7d"
  obtain ⟨shown, fault, refused, braces⟩ := refuses (.inr (by decide))
  obtain ⟨rfl, -⟩ := outermost shown fault refused braces
  exact ⟨fault, braces, refused⟩

end LayerNet
