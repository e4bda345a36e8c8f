import LayerNet.Proofs.Blueprint.Scanning
import Mathlib.Data.List.Forall2

/-!
# Spelling — which tokens ask for which layers

Each of the nine recognizers accepts the tokens of one family, told by a rule of how they are
spelled (`Spelled`): a token is read as a blueprint exactly when a rule spells the blueprint so
(`read?_eq_some_iff`). A few characters of a token tell its family (`Family.of`), so no two
recognizers accept one token (`recognizer_unique`) and the order in which they are tried does not
matter (`read?_of_perm`). The rules are the documented ones, but for the steps and rims that are
read in their corner (`Scan.Accepted`).
-/

namespace LayerNet

open Decimal (Stops digits_append)

namespace Blueprint

open Scan

/-! ## The rules -/

/-- An axis of an input: open, or a length above zero. -/
inductive Axis : List Char → Option Nat → Prop
  | unknown : Axis "-1".toList none
  | length {ds : List Char} {n : Nat} : Figures ds n → 0 < n → Axis ds (some n)

/-- Axes with an `x` between them. -/
inductive Axes : List Char → List (Option Nat) → Prop
  | last {cs : List Char} {axis : Option Nat} : Axis cs axis → Axes cs [axis]
  | more {cs rest : List Char} {axis : Option Nat} {axes : List (Option Nat)} : Axis cs axis →
    Axes rest axes → Axes (cs ++ 'x' :: rest) (axis :: axes)

/-- The families of tokens, one for each recognizer. -/
inductive Family where
  | units
  | filters
  | pooling
  | states
  | keep
  | factor
  | normalization
  | keyword
  | input
  deriving Repr, DecidableEq

/-- All families, in the order in which their recognizers are tried. -/
def Family.all : List Family :=
  [.units, .filters, .pooling, .states, .keep, .factor, .normalization, .keyword, .input]

/-- The recognizer of a family. -/
def Family.recognizer : Family → List Char → Option Blueprint
  | .units => whole scanUnits
  | .filters => whole scanFilters
  | .pooling => whole scanPooling
  | .states => whole scanStates
  | .keep => whole scanKeep
  | .factor => whole scanFactor
  | .normalization => whole scanNormalization
  | .keyword => readKeyword
  | .input => readInput

theorem recognizers_eq : recognizers = Family.all.map Family.recognizer := rfl

/-- How the blueprints of each family are spelled, given how steps and rims are. -/
inductive Spelled (windowed : List Char → Windowing → Prop) :
    Family → List Char → Blueprint → Prop
  | units {ds : List Char} {n : Nat} : Figures ds n → 0 < n →
    Spelled windowed .units (ds ++ "N".toList) (fullyConnected n)
  | filters {ds es es' cs : List Char} {n k : Nat} {w : Windowing} : Figures ds n → 0 < n →
    Figures es k → Figures es' k → 0 < k → windowed cs w →
    Spelled windowed .filters (ds ++ 'C' :: (es ++ 'x' :: (es' ++ cs))) (convolution n k w)
  | pooling {es es' : List Char} {k : Nat} (kind : Pooling) : Figures es k → Figures es' k →
    0 < k → Spelled windowed .pooling (es ++ 'x' :: (es' ++ kind.token.toList)) (pool kind k)
  | states {ds : List Char} {n : Nat} (summarize : Bool) : Figures ds n → 0 < n →
    Spelled windowed .states (ds ++ (if summarize then "RS" else "R").toList)
      (recurrent n summarize)
  | keep {cs : List Char} {keep : Float32} : Decimal.read? cs = some keep → keep.isFinite →
    0 < keep ∧ keep ≤ 1 → Spelled windowed .keep ('D' :: cs) (dropout keep)
  | factor {cs : List Char} {factor : Float32} : Decimal.read? cs = some factor →
    factor.isFinite → Spelled windowed .factor ('S' :: cs) (scale factor)
  | standard : Spelled windowed .normalization "LRN".toList (normalization none)
  | normalization {ds : List Char} {n : Nat} : Figures ds n → 0 < n →
    Spelled windowed .normalization ("LRN".toList ++ ds) (normalization (some n))
  | keyword {word : String} {b : Blueprint} : (word, b) ∈ keywords →
    Spelled windowed .keyword word.toList b
  | input {cs : List Char} {axes : List (Option Nat)} : Axes cs axes →
    Spelled windowed .input cs (.input axes)

/-! ## What each recognizer accepts -/

theorem finite_iff {cs rest : List Char} {x : Float32} : finite.run cs = some (x, rest) ↔
    Decimal.read? cs = some x ∧ x.isFinite ∧ rest = [] := by
  show finite cs = _ ↔ _
  unfold finite
  cases Decimal.read? cs with
  | none => exact ⟨nofun, nofun⟩
  | some y =>
    dsimp only
    split
    next isFinite =>
      constructor
      · rintro ⟨⟩
        exact ⟨rfl, isFinite, rfl⟩
      · rintro ⟨⟨⟩, -, rfl⟩
        rfl
    next infinite =>
      refine ⟨nofun, ?_⟩
      rintro ⟨⟨⟩, isFinite, -⟩
      exact absurd isFinite infinite

theorem readAxis_iff {piece : List Char} {axis : Option Nat} :
    readAxis piece = some axis ↔ Axis piece axis := by
  unfold readAxis
  constructor
  · intro read
    split at read
    next unknown =>
      cases read
      exact unknown ▸ .unknown
    · obtain ⟨n, run, rfl⟩ := Option.map_eq_some_iff.mp read
      obtain ⟨ds, figures, above, rfl, -⟩ := positive_iff.mp (whole_eq_some_iff.mp run)
      rw [List.append_nil]
      exact .length figures above
  · intro spelled
    cases spelled with
    | unknown => rfl
    | length figures above =>
      rw [if_neg]
      · refine Option.map_eq_some_iff.mpr ⟨_, whole_eq_some_iff.mpr ?_, rfl⟩
        exact positive_iff.mpr ⟨_, figures, above, (List.append_nil _).symm, .nil⟩
      · rintro rfl
        exact absurd (figures.digits '-' List.mem_cons_self) (by decide)

theorem Axis.not_mem {piece : List Char} {axis : Option Nat} (spelled : Axis piece axis) :
    'x' ∉ piece := by
  cases spelled with
  | unknown => decide
  | length figures => exact fun member => absurd (figures.digits 'x' member) (by decide)

theorem axes_iff {cs : List Char} {axes : List (Option Nat)} :
    (Text.splitOn 'x' cs).mapM readAxis = some axes ↔ Axes cs axes := by
  constructor
  · generalize pieces : Text.splitOn 'x' cs = parts
    induction parts generalizing cs axes with
    | nil => exact absurd pieces (Text.splitOn_ne_nil 'x' cs)
    | cons piece parts ih =>
      intro read
      rw [List.mapM_cons] at read
      obtain ⟨axis, first, behind⟩ := Option.bind_eq_some_iff.mp read
      obtain ⟨others, later, same⟩ := Option.bind_eq_some_iff.mp behind
      cases same
      rcases Text.eq_of_splitOn_eq_cons pieces with ⟨rfl, rfl⟩ | ⟨rest, rfl, split⟩
      · cases later
        exact .last (readAxis_iff.mp first)
      · exact .more (readAxis_iff.mp first) (ih split later)
  · intro spelled
    induction spelled with
    | last spelled =>
      rw [Text.splitOn_of_not_mem spelled.not_mem, List.mapM_cons, readAxis_iff.mpr spelled]
      rfl
    | more spelled _ ih =>
      rw [Text.splitOn_append spelled.not_mem, List.mapM_cons, readAxis_iff.mpr spelled, ih]
      rfl

theorem readKeyword_of_mem {word : String} {b : Blueprint} (member : (word, b) ∈ keywords) :
    readKeyword word.toList = some b := by
  have all : keywords.Forall fun entry => readKeyword entry.1.toList = some entry.2 :=
    ⟨rfl, rfl, rfl, rfl, rfl, rfl, rfl, rfl⟩
  exact List.forall_iff_forall_mem.mp all (word, b) member

/-- What a recognizer accepts is spelled by a rule of its family. -/
theorem spelled_of_recognizer {family : Family} {cs : List Char} {b : Blueprint}
    (read : family.recognizer cs = some b) : Spelled Accepted family cs b := by
  cases family with
  | units =>
    obtain ⟨n, cs₁, first, run₁⟩ := run_bind_eq_some.mp (whole_eq_some_iff.mp read)
    obtain ⟨_, cs₂, letter, run₂⟩ := run_bind_eq_some.mp run₁
    cases run₂
    obtain ⟨ds, figures, above, rfl, -⟩ := positive_iff.mp first
    obtain rfl := literal_iff.mp letter
    rw [List.append_nil]
    exact .units figures above
  | filters =>
    obtain ⟨n, cs₁, first, run₁⟩ := run_bind_eq_some.mp (whole_eq_some_iff.mp read)
    obtain ⟨_, cs₂, letter, run₂⟩ := run_bind_eq_some.mp run₁
    obtain ⟨k, cs₃, extent, run₃⟩ := run_bind_eq_some.mp run₂
    obtain ⟨w, cs₄, windowing, run₄⟩ := run_bind_eq_some.mp run₃
    cases run₄
    obtain ⟨ds, figures, above, rfl, -⟩ := positive_iff.mp first
    obtain rfl := literal_iff.mp letter
    obtain ⟨es, es', rows, columns, above', rfl, -⟩ := square_iff.mp extent
    exact .filters figures above rows columns above' (windowing_inv windowing)
  | pooling =>
    obtain ⟨k, cs₁, extent, run₁⟩ := run_bind_eq_some.mp (whole_eq_some_iff.mp read)
    obtain ⟨taken, cs₂, letters, run₂⟩ := run_bind_eq_some.mp run₁
    obtain ⟨es, es', rows, columns, above, rfl, -⟩ := square_iff.mp extent
    cases taken with
    | true =>
      cases run₂
      obtain rfl : cs₁ = "MP".toList ++ [] := optionally_iff.mp letters
      exact .pooling .max rows columns above
    | false =>
      obtain ⟨rfl, -⟩ := optionally_iff.mp letters
      obtain ⟨_, cs₃, letters', run₃⟩ := run_bind_eq_some.mp run₂
      cases run₃
      obtain rfl := literal_iff.mp letters'
      exact .pooling .average rows columns above
  | states =>
    obtain ⟨n, cs₁, first, run₁⟩ := run_bind_eq_some.mp (whole_eq_some_iff.mp read)
    obtain ⟨_, cs₂, letter, run₂⟩ := run_bind_eq_some.mp run₁
    obtain ⟨summarize, cs₃, last, run₃⟩ := run_bind_eq_some.mp run₂
    cases run₃
    obtain ⟨ds, figures, above, rfl, -⟩ := positive_iff.mp first
    obtain rfl := literal_iff.mp letter
    cases summarize with
    | true =>
      obtain rfl : cs₂ = "S".toList ++ [] := optionally_iff.mp last
      exact .states true figures above
    | false =>
      obtain ⟨rfl, -⟩ := optionally_iff.mp last
      exact .states false figures above
  | keep =>
    obtain ⟨_, cs₁, letter, run₁⟩ := run_bind_eq_some.mp (whole_eq_some_iff.mp read)
    obtain ⟨x, cs₂, number, run₂⟩ := run_bind_eq_some.mp run₁
    obtain rfl := literal_iff.mp letter
    obtain ⟨value, isFinite, -⟩ := finite_iff.mp number
    split at run₂
    next within =>
      cases run₂
      exact .keep value isFinite within
    · cases run₂
  | factor =>
    obtain ⟨_, cs₁, letter, run₁⟩ := run_bind_eq_some.mp (whole_eq_some_iff.mp read)
    obtain ⟨x, cs₂, number, run₂⟩ := run_bind_eq_some.mp run₁
    cases run₂
    obtain rfl := literal_iff.mp letter
    obtain ⟨value, isFinite, -⟩ := finite_iff.mp number
    exact .factor value isFinite
  | normalization =>
    obtain ⟨_, cs₁, letters, run₁⟩ := run_bind_eq_some.mp (whole_eq_some_iff.mp read)
    obtain ⟨rest, cs₂, look, run₂⟩ := run_bind_eq_some.mp run₁
    cases look
    obtain rfl := literal_iff.mp letters
    split at run₂
    next empty =>
      cases run₂
      exact .standard
    next =>
      obtain ⟨n, cs₃, size, run₃⟩ := run_bind_eq_some.mp run₂
      cases run₃
      obtain ⟨ds, figures, above, rfl, -⟩ := positive_iff.mp size
      rw [List.append_nil]
      exact .normalization figures above
  | keyword =>
    obtain ⟨⟨word, named⟩, found, rfl⟩ := Option.map_eq_some_iff.mp read
    obtain rfl : word.toList = cs := by simpa using List.find?_some found
    exact .keyword (List.mem_of_find?_eq_some found)
  | input =>
    obtain ⟨axes, pieces, rfl⟩ := Option.map_eq_some_iff.mp read
    exact .input (axes_iff.mp pieces)

/-- What is spelled by a rule of a family its recognizer accepts. -/
theorem recognizer_of_spelled {family : Family} {cs : List Char} {b : Blueprint}
    (spelled : Spelled Accepted family cs b) : family.recognizer cs = some b := by
  cases spelled with
  | @units ds n figures above =>
    refine whole_eq_some_iff.mpr (run_bind_eq_some.mpr ⟨n, "N".toList, ?_, ?_⟩)
    · exact positive_iff.mpr ⟨_, figures, above, rfl, .cons (by decide) _⟩
    · exact run_bind_eq_some.mpr ⟨(), [], literal_iff.mpr rfl, rfl⟩
  | @filters ds es es' cs n k w figures above rows columns above' windowed =>
    refine whole_eq_some_iff.mpr (run_bind_eq_some.mpr
      ⟨n, 'C' :: (es ++ 'x' :: (es' ++ cs)), ?_, ?_⟩)
    · exact positive_iff.mpr ⟨_, figures, above, rfl, .cons (by decide) _⟩
    refine run_bind_eq_some.mpr ⟨(), es ++ 'x' :: (es' ++ cs), literal_iff.mpr rfl, ?_⟩
    refine run_bind_eq_some.mpr ⟨k, cs, ?_, ?_⟩
    · exact square_iff.mpr ⟨es, es', rows, columns, above', rfl, windowed.stops⟩
    · exact run_bind_eq_some.mpr ⟨w, [], windowing_run windowed, rfl⟩
  | @pooling es es' k kind rows columns above =>
    refine whole_eq_some_iff.mpr (run_bind_eq_some.mpr ⟨k, kind.token.toList, ?_, ?_⟩)
    · refine square_iff.mpr ⟨es, es', rows, columns, above, rfl, ?_⟩
      cases kind <;> exact .cons (by decide) _
    · cases kind with
      | max => rfl
      | average => rfl
  | @states ds n summarize figures above =>
    refine whole_eq_some_iff.mpr (run_bind_eq_some.mpr
      ⟨n, (if summarize then "RS" else "R").toList, ?_, ?_⟩)
    · refine positive_iff.mpr ⟨_, figures, above, rfl, ?_⟩
      cases summarize <;> exact .cons (by decide) _
    · cases summarize with
      | true => rfl
      | false => rfl
  | @keep cs x value isFinite within =>
    refine whole_eq_some_iff.mpr (run_bind_eq_some.mpr ⟨(), cs, literal_iff.mpr rfl, ?_⟩)
    refine run_bind_eq_some.mpr ⟨x, [], finite_iff.mpr ⟨value, isFinite, rfl⟩, ?_⟩
    rw [if_pos within]
    rfl
  | @factor cs x value isFinite =>
    refine whole_eq_some_iff.mpr (run_bind_eq_some.mpr ⟨(), cs, literal_iff.mpr rfl, ?_⟩)
    exact run_bind_eq_some.mpr ⟨x, [], finite_iff.mpr ⟨value, isFinite, rfl⟩, rfl⟩
  | standard => rfl
  | @normalization ds n figures above =>
    refine whole_eq_some_iff.mpr (run_bind_eq_some.mpr ⟨(), ds, literal_iff.mpr rfl, ?_⟩)
    refine run_bind_eq_some.mpr ⟨ds, ds, rfl, ?_⟩
    rw [if_neg (by simpa using figures.nonempty)]
    refine run_bind_eq_some.mpr ⟨n, [], ?_, rfl⟩
    exact positive_iff.mpr ⟨ds, figures, above, (List.append_nil ds).symm, .nil⟩
  | keyword member => exact readKeyword_of_mem member
  | input spelled => exact Option.map_eq_some_iff.mpr ⟨_, axes_iff.mpr spelled, rfl⟩

/-! ## Telling the families apart -/

/-- The family of two runs of digits with an `x` between them, by what follows them. -/
def Family.ofSecond : List Char → Family
  | 'M' :: _ => .pooling
  | 'A' :: _ => .pooling
  | _ => .input

/-- The family of a token that begins with digits, by what follows them. -/
def Family.ofLead : List Char → Family
  | 'N' :: _ => .units
  | 'C' :: _ => .filters
  | 'R' :: _ => .states
  | 'x' :: rest => ofSecond (rest.dropWhile Decimal.isDigit)
  | _ => .input

/-- The family that a token can only be of, by its first characters. -/
def Family.of (token : List Char) : Family :=
  if token.head?.any Decimal.isDigit then ofLead (token.dropWhile Decimal.isDigit)
  else
    match token with
    | '-' :: _ => .input
    | 'D' :: _ => .keep
    | 'L' :: 'R' :: _ => .normalization
    | 'S' :: c :: _ => if c ∈ ['P', 'I', 'O', 'M'] then .keyword else .factor
    | _ => .keyword

theorem Family.of_figures {ds : List Char} {n : Nat} (figures : Figures ds n) {cs : List Char}
    (stops : Stops cs) : of (ds ++ cs) = ofLead cs := by
  have first : (ds ++ cs).head?.any Decimal.isDigit = true := by
    cases ds with
    | nil => exact absurd rfl figures.nonempty
    | cons c ds => exact figures.digits c List.mem_cons_self
  unfold of
  rw [if_pos first, (digits_append figures.digits stops).2]

/-- A number does not begin with a letter. -/
theorem read?_of_letter {c : Char} (letter : c ∈ ['P', 'I', 'O', 'M']) (cs : List Char) :
    Decimal.read? (c :: cs) = none := by
  simp only [List.mem_cons, List.not_mem_nil, or_false] at letter
  rcases letter with rfl | rfl | rfl | rfl <;> rfl

theorem Family.of_axes {cs : List Char} {axes : List (Option Nat)} (spelled : Axes cs axes) :
    of cs = .input := by
  cases spelled with
  | last axis =>
    cases axis with
    | unknown => rfl
    | length figures =>
      rw [← List.append_nil cs, of_figures figures .nil]
      rfl
  | @more piece rest _ _ axis others =>
    cases axis with
    | unknown => rfl
    | length figures =>
      rw [of_figures figures (.cons (by decide) rest)]
      -- behind the second run of digits there is the end, another axis or a sign
      have second {cs' : List Char} {axis : Option Nat} (axis : Axis cs' axis) {cs : List Char}
          (ends : cs = [] ∨ ∃ rest, cs = 'x' :: rest) :
          ofLead ('x' :: (cs' ++ cs)) = .input := by
        have stops : Stops cs := by
          rcases ends with rfl | ⟨rest, rfl⟩
          · exact .nil
          · exact .cons (by decide) rest
        cases axis with
        | unknown => rfl
        | length figures' =>
          show ofSecond _ = _
          rw [(digits_append figures'.digits stops).2]
          rcases ends with rfl | ⟨rest, rfl⟩ <;> rfl
      cases others with
      | last axis' => exact List.append_nil rest ▸ second axis' (.inl rfl)
      | more axis' => exact second axis' (.inr ⟨_, rfl⟩)

/-- A spelled token has the family that its characters tell. -/
theorem Spelled.family_eq {windowed : List Char → Windowing → Prop} {family : Family}
    {cs : List Char} {b : Blueprint} (spelled : Spelled windowed family cs b) :
    Family.of cs = family := by
  cases spelled with
  | units figures => exact Family.of_figures figures (.cons (by decide) _)
  | filters figures => exact Family.of_figures figures (.cons (by decide) _)
  | pooling kind rows columns =>
    rw [Family.of_figures rows (.cons (by decide) _)]
    show Family.ofSecond _ = _
    rw [(digits_append columns.digits ?_).2]
    · cases kind <;> rfl
    · cases kind <;> exact .cons (by decide) _
  | states summarize figures =>
    cases summarize <;> exact Family.of_figures figures (.cons (by decide) _)
  | keep => rfl
  | @factor cs x value =>
    cases cs with
    | nil => cases value
    | cons c cs =>
      show (if c ∈ ['P', 'I', 'O', 'M'] then Family.keyword else .factor) = _
      refine if_neg fun letter => ?_
      rw [read?_of_letter letter] at value
      cases value
  | standard => rfl
  | normalization => rfl
  | @keyword word b member =>
    have all : keywords.Forall fun entry => Family.of entry.1.toList = .keyword :=
      ⟨rfl, rfl, rfl, rfl, rfl, rfl, rfl, rfl⟩
    exact List.forall_iff_forall_mem.mp all (word, b) member
  | input spelled => exact Family.of_axes spelled

/-- No two recognizers accept one token. -/
theorem recognizer_unique {f g : Family} {cs : List Char} {b b' : Blueprint}
    (first : f.recognizer cs = some b) (second : g.recognizer cs = some b') : f = g :=
  (spelled_of_recognizer first).family_eq.symm.trans (spelled_of_recognizer second).family_eq

/-- The recognizers may be tried in any order. -/
theorem read?_of_perm {order : List (List Char → Option Blueprint)}
    (perm : order.Perm recognizers) (token : String) :
    (order.findSome? fun recognize => recognize token.toList) = read? token := by
  have agree {rs rs' : List (List Char → Option Blueprint)} (perm : rs.Perm recognizers)
      (perm' : rs'.Perm recognizers) {b : Blueprint}
      (read : (rs.findSome? fun recognize => recognize token.toList) = some b) :
      (rs'.findSome? fun recognize => recognize token.toList) = some b := by
    have among {recognize : List Char → Option Blueprint} (member : recognize ∈ recognizers) :
        ∃ family : Family, recognize = family.recognizer := by
      obtain ⟨family, -, rfl⟩ := List.mem_map.mp (recognizers_eq ▸ member)
      exact ⟨family, rfl⟩
    obtain ⟨recognize, member, accepts⟩ := List.exists_of_findSome?_eq_some read
    obtain ⟨family, rfl⟩ := among (perm.mem_iff.mp member)
    cases read' : rs'.findSome? fun recognize => recognize token.toList with
    | none =>
      have refused := List.findSome?_eq_none_iff.mp read' _
        (perm'.mem_iff.mpr (perm.mem_iff.mp member))
      exact absurd (refused.symm.trans accepts) nofun
    | some b' =>
      obtain ⟨recognize', member', accepts'⟩ := List.exists_of_findSome?_eq_some read'
      obtain ⟨family', rfl⟩ := among (perm'.mem_iff.mp member')
      obtain rfl := recognizer_unique accepts accepts'
      exact accepts'.symm.trans accepts
  exact Option.ext fun b => ⟨agree perm (.refl _), agree (.refl _) perm⟩

/-- A token is read as a blueprint exactly when a rule spells the blueprint so. -/
theorem read?_eq_some_iff {token : String} {b : Blueprint} :
    read? token = some b ↔ ∃ family, Spelled Accepted family token.toList b := by
  constructor
  · intro read
    obtain ⟨recognize, member, accepts⟩ := List.exists_of_findSome?_eq_some read
    obtain ⟨family, -, rfl⟩ := List.mem_map.mp (recognizers_eq ▸ member)
    exact ⟨family, spelled_of_recognizer accepts⟩
  · rintro ⟨family, spelled⟩
    have accepts := recognizer_of_spelled spelled
    cases read : read? token with
    | none =>
      have member : family.recognizer ∈ recognizers := by
        rw [recognizers_eq]
        exact List.mem_map_of_mem (by cases family <;> decide)
      have refused := List.findSome?_eq_none_iff.mp read _ member
      exact absurd (refused.symm.trans accepts) nofun
    | some b' =>
      obtain ⟨recognize, member, accepts'⟩ := List.exists_of_findSome?_eq_some read
      obtain ⟨family', -, rfl⟩ := List.mem_map.mp (recognizers_eq ▸ member)
      obtain rfl := recognizer_unique accepts accepts'
      exact accepts'.symm.trans accepts

/-- Steps of zero are refused at the end of a token, but not in front of a mark for rims. -/
example : (read? "5C3x3+0(S)").isNone ∧ (read? "5C3x3+0(S)(P)").isSome := by decide +kernel

end Blueprint

end LayerNet
