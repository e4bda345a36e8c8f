import LayerNet.Proofs.Architecture.Rearranging
import LayerNet.Proofs.Component.Journal

/-!
# Occurrences — what an assembly may do once

A statement list has one mark for each thing that an assembly of it can do: a token can be made a
component, a module opened, and a definition begun and ended. A mark tells where its token, module
or definition stands, so no mark occurs twice (`Statement.marksAll_nodup`).

The marks of a statement list are those of its definitions, which a frame keeps until they are
referred to (`Frame.left`), and those of its chains (`Statement.count_marksAll`).
-/

namespace LayerNet

/-- Something that an assembly can do, and where. -/
inductive Mark where
  | token (site : Site) (text : String)
  | module (site : Site)
  | start (site : Site) (name : String)
  | finish (site : Site) (name : String)
  deriving Repr, DecidableEq

namespace Mark

/-- Where a mark stands. -/
def site : Mark → Site
  | token site _ => site
  | module site => site
  | start site _ => site
  | finish site _ => site

/-- Whether a token is marked. -/
def isToken : Mark → Bool
  | token .. => true
  | _ => false

end Mark

mutual

/-- The marks of a segment with a given number. -/
def Segment.marks (within : List Nat) (n : Nat) : Segment → List Mark
  | .token text => [.token ⟨n, within⟩ text]
  | .module body => .module ⟨n, within⟩ :: Statement.marksAll within (n + 1) body

/-- The marks of segments, the first of which has a given number. -/
def Segment.marksAll (within : List Nat) (n : Nat) : List Segment → List Mark
  | [] => []
  | segment :: rest => segment.marks within n ++ Segment.marksAll within (n + segment.size) rest

/-- The marks of a statement with a given number. -/
def Statement.marks (within : List Nat) (n : Nat) : Statement → List Mark
  | .define name value => .start ⟨n, within⟩ name :: .finish ⟨n, within⟩ name
      :: Segment.marksAll (n :: within) (n + 1) value
  | .chain segments => Segment.marksAll within (n + 1) segments

/-- The marks of a statement list that begins with a given number. -/
def Statement.marksAll (within : List Nat) (n : Nat) : List Statement → List Mark
  | [] => []
  | statement :: rest =>
    statement.marks within n ++ Statement.marksAll within (n + statement.size) rest

end

/-! ## No mark occurs twice -/

/-- Marks that differ, with numbers in a range. -/
structure Spans (n m : Nat) (marks : List Mark) : Prop where
  nodup : marks.Nodup
  range : ∀ mark ∈ marks, n ≤ mark.site.number ∧ mark.site.number < m

namespace Spans

theorem nil (n m : Nat) : Spans n m [] := ⟨.nil, nofun⟩

theorem wider {n m n' m' : Nat} {marks : List Mark} (spans : Spans n m marks) (below : n' ≤ n)
    (above : m ≤ m') : Spans n' m' marks := by
  refine ⟨spans.nodup, fun mark member => ?_⟩
  have := spans.range mark member
  omega

theorem append {n m k : Nat} {marks marks' : List Mark} (first : Spans n m marks)
    (second : Spans m k marks') (below : n ≤ m) (above : m ≤ k) : Spans n k (marks ++ marks') := by
  refine ⟨List.nodup_append.mpr ⟨first.nodup, second.nodup, ?_⟩, fun mark member => ?_⟩
  · rintro mark member _ member' rfl
    have := first.range mark member
    have := second.range mark member'
    omega
  · rcases List.mem_append.mp member with member | member
    · exact (first.wider (Nat.le_refl n) above).range mark member
    · exact (second.wider below (Nat.le_refl k)).range mark member

/-- A mark with the first number before others. -/
theorem cons {n m : Nat} {marks : List Mark} (spans : Spans (n + 1) m marks) (mark : Mark)
    (here : mark.site.number = n) (above : n < m) : Spans n m (mark :: marks) := by
  have single : Spans n (n + 1) [mark] := by
    refine ⟨List.nodup_cons.mpr ⟨List.not_mem_nil, .nil⟩, fun other member => ?_⟩
    obtain rfl := List.mem_singleton.mp member
    omega
  exact single.append spans (Nat.le_succ n) above

end Spans

mutual

theorem Segment.spans_marks (within : List Nat) (n : Nat) (x : Segment) :
    Spans n (n + x.size) (x.marks within n) := by
  cases x with
  | token text =>
    rw [Segment.marks, Segment.size]
    exact (Spans.nil _ _).cons _ rfl (Nat.lt_succ_self n)
  | module body =>
    rw [Segment.marks, Segment.size, ← Nat.add_assoc]
    exact (Statement.spans_marksAll within (n + 1) body).cons _ rfl (by omega)

theorem Segment.spans_marksAll (within : List Nat) (n : Nat) (segments : List Segment) :
    Spans n (n + Segment.sizeAll segments) (Segment.marksAll within n segments) := by
  cases segments with
  | nil =>
    rw [Segment.marksAll]
    exact .nil _ _
  | cons x rest =>
    rw [Segment.marksAll, Segment.sizeAll, ← Nat.add_assoc]
    exact (Segment.spans_marks within n x).append (Segment.spans_marksAll within (n + x.size) rest)
      (Nat.le_add_right _ _) (Nat.le_add_right _ _)

theorem Statement.spans_marks (within : List Nat) (n : Nat) (statement : Statement) :
    Spans n (n + statement.size) (statement.marks within n) := by
  cases statement with
  | define name value =>
    rw [Statement.marks, Statement.size, ← Nat.add_assoc]
    have inside := Segment.spans_marksAll (n :: within) (n + 1) value
    have above : n < n + 1 + Segment.sizeAll value := by omega
    have ended := inside.cons (.finish ⟨n, within⟩ name) rfl above
    refine ⟨List.nodup_cons.mpr ⟨fun member => ?_, ended.nodup⟩, fun mark member => ?_⟩
    · rcases List.mem_cons.mp member with same | member
      · cases same
      · exact absurd (inside.range _ member).1 (Nat.not_succ_le_self n)
    · rcases List.mem_cons.mp member with rfl | member
      · exact ⟨Nat.le_refl n, above⟩
      · exact ended.range mark member
  | chain segments =>
    rw [Statement.marks, Statement.size, ← Nat.add_assoc]
    exact (Segment.spans_marksAll within (n + 1) segments).wider (Nat.le_succ n) (Nat.le_refl _)

theorem Statement.spans_marksAll (within : List Nat) (n : Nat) (statements : List Statement) :
    Spans n (n + Statement.sizeAll statements) (Statement.marksAll within n statements) := by
  cases statements with
  | nil =>
    rw [Statement.marksAll]
    exact .nil _ _
  | cons x rest =>
    rw [Statement.marksAll, Statement.sizeAll, ← Nat.add_assoc]
    exact (Statement.spans_marks within n x).append
      (Statement.spans_marksAll within (n + x.size) rest) (Nat.le_add_right _ _)
      (Nat.le_add_right _ _)

end

theorem Statement.marksAll_nodup (within : List Nat) (n : Nat) (statements : List Statement) :
    (Statement.marksAll within n statements).Nodup :=
  (spans_marksAll within n statements).nodup

/-! ## Tokens -/

mutual

theorem Segment.countP_marks (within : List Nat) (n : Nat) (x : Segment) :
    (x.marks within n).countP Mark.isToken = x.tokens.length := by
  cases x with
  | token text => rfl
  | module body =>
    rw [Segment.marks, List.countP_cons_of_neg (by simp [Mark.isToken]), Segment.tokens]
    exact Statement.countP_marksAll within (n + 1) body

theorem Segment.countP_marksAll (within : List Nat) (n : Nat) (segments : List Segment) :
    (Segment.marksAll within n segments).countP Mark.isToken
      = (Segment.tokensAll segments).length := by
  cases segments with
  | nil => rfl
  | cons x rest =>
    rw [Segment.marksAll, List.countP_append, Segment.tokensAll, List.length_append,
      Segment.countP_marks, Segment.countP_marksAll]

theorem Statement.countP_marks (within : List Nat) (n : Nat) (statement : Statement) :
    (statement.marks within n).countP Mark.isToken = statement.tokens.length := by
  cases statement with
  | define name value =>
    rw [Statement.marks, List.countP_cons_of_neg (by simp [Mark.isToken]),
      List.countP_cons_of_neg (by simp [Mark.isToken]), Statement.tokens]
    exact Segment.countP_marksAll (n :: within) (n + 1) value
  | chain segments =>
    rw [Statement.marks, Statement.tokens]
    exact Segment.countP_marksAll within (n + 1) segments

/-- A statement list has as many marked tokens as it has tokens. -/
theorem Statement.countP_marksAll (within : List Nat) (n : Nat) (statements : List Statement) :
    (Statement.marksAll within n statements).countP Mark.isToken
      = (Statement.tokensAll statements).length := by
  cases statements with
  | nil => rfl
  | cons x rest =>
    rw [Statement.marksAll, List.countP_append, Statement.tokensAll, List.length_append,
      Statement.countP_marks, Statement.countP_marksAll]

end

/-! ## Definitions and chains -/

/-- The marks of a segment with its site. -/
def placedMarks (placed : Site × Segment) : List Mark :=
  placed.2.marks placed.1.within placed.1.number

theorem flatMap_segmentsFrom (within : List Nat) (n : Nat) (segments : List Segment) :
    (segmentsFrom within n segments).flatMap placedMarks = Segment.marksAll within n segments := by
  induction segments generalizing n with
  | nil => rfl
  | cons x rest ih =>
    rw [segmentsFrom, List.flatMap_cons, ih, Segment.marksAll]
    rfl

/-- The marks of the definitions that a frame has not instantiated, with the sites of a scope. -/
def Frame.left : Frame → Scope → List Mark
  | (_, .fresh value) :: f, (name, site) :: c =>
    (Statement.define name value).marks site.within site.number ++ left f c
  | _ :: f, _ :: c => left f c
  | _, _ => []

/-- The marks of a statement list are those of its definitions and those of its chains. -/
theorem Statement.count_marksAll (mark : Mark) (within : List Nat) (n : Nat)
    (statements : List Statement) : (Statement.marksAll within n statements).count mark
      = (Frame.left ((definitions statements).map fun d => (d.1, .fresh d.2))
          (scopeFrom within n statements)).count mark
        + ((chainsFrom within n statements).flatMap (List.flatMap placedMarks)).count mark := by
  induction statements generalizing n with
  | nil => rfl
  | cons statement rest ih =>
    rw [marksAll, List.count_append, ih]
    cases statement with
    | define name value =>
      show _ = (marks within n (.define name value) ++ Frame.left
          ((definitions rest).map fun d => (d.1, .fresh d.2)) _).count mark
        + ((chainsFrom within _ rest).flatMap _).count mark
      rw [List.count_append, Nat.add_assoc]
    | chain segments =>
      show _ = (Frame.left ((definitions rest).map fun d => (d.1, .fresh d.2))
          (scopeFrom within _ rest)).count mark
        + ((segmentsFrom within (n + 1) segments :: chainsFrom within _ rest).flatMap _).count mark
      rw [List.flatMap_cons, List.count_append, flatMap_segmentsFrom, marks]
      omega

end LayerNet
