import LayerNet.Architecture.Reader
import LayerNet.Component.Assembly
import LayerNet.Component.Normal
import LayerNet.Proofs.Failures

/-!
# Refusals — a text is refused for what it says

As long as no layer is built, nothing about tensors can go wrong: reading, assembling and bringing
into normal form fail for the grammar and the wiring alone (`CompileError.OfText`). Reading and
assembling are by induction on the depth that bounds their recursion.
-/

namespace LayerNet

/-- What went wrong with tensors, if that is what the error is about. -/
def CompileError.tensorCause? : CompileError → Option TensorError
  | layer _ cause => some cause
  | tensor cause => some cause
  | _ => none

/-- The error is about the grammar or the wiring. -/
def CompileError.OfText (e : CompileError) : Prop := e.tensorCause? = none

/-! ## Reading -/

namespace Reader

theorem failsOnly_malformed {α : Type} (text : List Char) (fault : Malformation) :
    FailsOnly CompileError.OfText (malformed text fault : Except CompileError α) := .error rfl

theorem failsOnly_pieces (delimiter : Char) (text : List Char) :
    FailsOnly CompileError.OfText (pieces delimiter text) := by
  unfold pieces
  split
  · exact .ok _
  · exact failsOnly_malformed text _

variable {readBody : BodyReader} (body : ∀ text, FailsOnly CompileError.OfText (readBody text))
include body

theorem failsOnly_readSegment (chain segment : List Char) :
    FailsOnly CompileError.OfText (readSegment readBody chain segment) := by
  unfold readSegment
  split
  · exact failsOnly_malformed chain _
  split
  · split
    · exact failsOnly_malformed segment _
    · exact (body _).map _
  · split
    · exact failsOnly_malformed segment _
    · exact .ok _

theorem failsOnly_readChain (chain : List Char) :
    FailsOnly CompileError.OfText (readChain readBody chain) :=
  (failsOnly_pieces '~' chain).bind fun _ _ =>
    .mapM _ fun segment _ => failsOnly_readSegment body chain segment

theorem failsOnly_readStatement (text : List Char) :
    FailsOnly CompileError.OfText (readStatement readBody text) := by
  refine (failsOnly_pieces '=' text).bind fun parts _ => ?_
  split
  · exact (failsOnly_readChain body _).map _
  · split
    · exact (failsOnly_readChain body _).map _
    · exact failsOnly_malformed text _
  · exact failsOnly_malformed text _

theorem failsOnly_readStatements (text : List Char) :
    FailsOnly CompileError.OfText (readStatements readBody text) := by
  have split : FailsOnly CompileError.OfText (splitStatements text) := by
    refine (failsOnly_pieces ',' text).bind fun parts _ => ?_
    split
    · exact failsOnly_malformed text _
    · exact .ok _
  exact split.bind fun _ _ => .mapM _ fun statement _ => failsOnly_readStatement body statement

omit body in
theorem failsOnly_readNested (depth : Nat) (text : List Char) :
    FailsOnly CompileError.OfText (readNested depth text) := by
  induction depth generalizing text with
  | zero => exact failsOnly_malformed text _
  | succ depth ih => exact failsOnly_readStatements ih text

end Reader

theorem failsOnly_readArchitecture (text : String) :
    FailsOnly CompileError.OfText (readArchitecture text) := by
  unfold readArchitecture
  dsimp only
  split
  · exact .error rfl
  · exact Reader.failsOnly_readNested _ _

/-! ## Assembling -/

namespace Assembling

/-- Whenever the computation fails, it is for the grammar or the wiring. -/
abbrev Textual {α : Type} (x : Assembling α) : Prop :=
  Confined (Failure.Blames CompileError.OfText) x

theorem textual_fail {α : Type} {cause : CompileError} (text : cause.OfText) :
    Textual (fail cause : Assembling α) :=
  .lift (.fail text)

theorem textual_modifyGraph {f : ComponentGraph → Except CompileError ComponentGraph}
    (only : ∀ c, FailsOnly CompileError.OfText (f c)) : Textual (modifyGraph f) := by
  refine .bind .get fun s => ?_
  split
  · exact .set _
  next cause failed => exact textual_fail (only s.components cause failed)

theorem textual_frameOf (statements : List Statement) : Textual (frameOf statements) := by
  refine .foldlM _ (fun f definition _ => ?_) []
  dsimp only
  split
  · exact textual_fail rfl
  · exact .pure _

theorem textual_isBound (name : String) : Textual (isBound name) := .bind .get fun _ => .pure _

theorem textual_leaf (token : String) (name : Option String) : Textual (leaf token name) := by
  unfold leaf
  split
  · exact textual_fail rfl
  · exact .bind .get fun _ => .bind (textual_modifyGraph fun _ => .ok _) fun _ => .pure _

theorem textual_connect (a b : Ends) : Textual (connect a b) := by
  refine .forM _ fun edge _ => textual_modifyGraph fun c => ?_
  unfold ComponentGraph.link
  split
  · exact .error rfl
  · exact .ok _

theorem textual_closeModule (first : Nat) (chains : List Ends) :
    Textual (closeModule first chains) := by
  refine .bind .get fun s => ?_
  dsimp only
  split
  · exact .bind (textual_modifyGraph fun _ => .ok _) fun _ => .pure _
  · exact .bind (.pure _) fun _ => .pure _

theorem textual_inOuter {α : Type} (depth : Nat) {x : Assembling α} (inner : Textual x) :
    Textual (inOuter depth x) :=
  .bind .get fun _ => .bind (.modify _) fun _ => .bind inner fun _ => .bind (.modify _) fun _ =>
    .pure _

theorem textual_inFrame {α : Type} (f : Frame) {x : Assembling α} (inner : Textual x) :
    Textual (inFrame f x) :=
  .bind (.modify _) fun _ => .bind inner fun _ => .bind (.modify _) fun _ => .pure _

section

variable {segment : Segment → Assembling Ends} (each : ∀ x, Textual (segment x))
include each

theorem textual_chainWith (segments : List Segment) (previous : Option Ends) :
    Textual (chainWith segment segments previous) := by
  refine .bind (.foldlM _ (fun ends x _ => ?_) _) fun ends => ?_
  · refine .bind (each x) fun here => ?_
    dsimp only
    split
    · exact .bind (textual_connect _ here) fun _ => .pure _
    · exact .pure _
  · dsimp only
    split
    · exact .pure _
    · exact textual_fail rfl

theorem textual_define (name : String) (value : List Segment) :
    Textual (define segment name value) := by
  have closed (ends : Ends) : Textual (do bind name (.done ends); return ends) :=
    .bind (.modify _) fun _ => .pure ends
  refine .bind (.modify _) fun _ => ?_
  dsimp only
  split
  · refine .bind (textual_isBound _) fun bound => ?_
    split
    · exact .bind (textual_chainWith each _ none) closed
    · exact .bind (textual_leaf _ _) closed
  · exact .bind (textual_chainWith each value none) closed

theorem textual_moduleWith (body : List Statement) : Textual (moduleWith segment body) := by
  refine .bind (textual_frameOf body) fun f => .bind .get fun s => ?_
  split
  · exact textual_fail rfl
  · refine .bind (textual_inFrame f ?_) fun chainEnds => textual_closeModule _ chainEnds
    exact .mapM _ fun segments _ => textual_chainWith each segments none

end

theorem textual_segment (depth : Nat) (x : Segment) : Textual (segment depth x) := by
  induction depth generalizing x with
  | zero => exact .lift (.stop trivial)
  | succ depth ih =>
    cases x with
    | module body => exact textual_moduleWith ih body
    | token text =>
      refine .bind .get fun s => ?_
      split
      · exact textual_leaf text none
      · exact .pure _
      · exact textual_fail rfl
      · exact textual_inOuter _ (textual_define ih text _)

theorem textual_topLevel (depth : Nat) (statements : List Statement) :
    Textual (topLevel depth statements) := by
  refine .bind (.foldlM _ (fun tail segments _ => ?_) none) fun _ => .pure ()
  have begins : Textual (beginsBound segments) := by
    unfold beginsBound
    split
    · exact textual_isBound _
    · exact .pure false
  exact .bind begins fun bound =>
    .bind (textual_chainWith (textual_segment depth) segments _) fun _ => .pure _

end Assembling

theorem ComponentGraph.failsOnly_assemble (statements : List Statement) :
    FailsOnly (Failure.Blames CompileError.OfText) (assemble statements) := by
  have all : Assembling.Textual (do
      let f ← Assembling.frameOf statements
      Assembling.inFrame f (Assembling.topLevel (Statement.sizeAll statements + 1) statements)) :=
    .bind (Assembling.textual_frameOf statements) fun f =>
      Assembling.textual_inFrame f (Assembling.textual_topLevel _ statements)
  refine (all _).bind fun p _ => ?_
  dsimp only
  split
  · exact .fail rfl
  · exact .ok _

/-! ## Normal form -/

theorem ComponentGraph.failsOnly_normalize (c : ComponentGraph) :
    FailsOnly CompileError.OfText c.normalize := by
  unfold normalize
  split
  · exact .error rfl
  · exact .ok _

end LayerNet
