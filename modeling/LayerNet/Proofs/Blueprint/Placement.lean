import LayerNet.Blueprint.Instantiate
import LayerNet.Blueprint.Reader
import LayerNet.Proofs.Component.Passes
import LayerNet.Proofs.Layer.Build

/-!
# Placements — a layer accepts what arrives where it stands

The layer of a blueprint accepts the shapes that its predecessors give, and it gives one tensor for
each edge that leaves it (`Blueprint.instantiate_yields`). The exception is an input at the source,
which says itself what it accepts.

Constructors check nearly everything that their layers rely on. What they leave unchecked is that a
response normalization has a window, and this the reader has checked (`isUsable_of_isRead`).
-/

namespace LayerNet

namespace Scan

variable {α β : Type}

/-- Whatever the reader takes from the beginning of a token has a property. -/
def Reads (scan : Scan α) (P : α → Prop) : Prop :=
  ∀ cs a rest, scan.run cs = some (a, rest) → P a

namespace Reads

variable {P : α → Prop}

theorem any (scan : Scan α) : Reads scan fun _ => True := fun _ _ _ _ => trivial

theorem pure {a : α} (fits : P a) : Reads (Pure.pure a) P := by
  intro cs _ _ read
  cases read
  exact fits

theorem failure : Reads (Alternative.failure : Scan α) P :=
  fun _ _ _ read => nomatch read

theorem bind {scan : Scan α} {f : α → Scan β} {R : β → Prop} (first : Reads scan P)
    (second : ∀ a, P a → Reads (f a) R) : Reads (scan >>= f) R := by
  intro cs b rest read
  rw [StateT.run_bind] at read
  obtain ⟨⟨a, cs'⟩, read, read'⟩ := Option.bind_eq_some_iff.mp read
  exact second a (first cs a cs' read) cs' b rest read'

end Reads

theorem positive_reads : Reads positive fun n => n ≠ 0 := by
  refine (Reads.any number).bind fun n _ => ?_
  split
  · exact .failure
  next nonzero => exact .pure nonzero

end Scan

namespace Blueprint

open Scan

/-! ## What is read -/

/-- What a recognizer makes of a token. -/
inductive Recognized (token : List Char) : Blueprint → Prop
  | fullyConnected (units : Nat) : Recognized token (.fullyConnected units)
  | convolution (filters size : Nat) (windowing : Windowing) :
    Recognized token (.convolution filters size windowing)
  | pool (pooling : Pooling) (size : Nat) : Recognized token (.pool pooling size)
  | recurrent (units : Nat) (summarize : Bool) : Recognized token (.recurrent units summarize)
  | dropout (keep : Float32) : Recognized token (.dropout keep)
  | scale (factor : Float32) : Recognized token (.scale factor)
  /-- A window that is told is not empty. -/
  | normalization {size : Option Nat} : (∀ n, size = some n → n ≠ 0) →
    Recognized token (.normalization size)
  | keyword {word : String} {b : Blueprint} : (word, b) ∈ keywords → Recognized token b
  | input {dims : List (Option Nat)} : (Text.splitOn 'x' token).mapM readAxis = some dims →
    Recognized token (.input dims)

theorem recognized_of_whole {scan : Scan Blueprint} {token : List Char}
    (reads : Reads scan (Recognized token)) {b : Blueprint} (read : whole scan token = some b) :
    Recognized token b := by
  unfold whole at read
  split at read
  next a run =>
    cases read
    exact reads token _ [] run
  · cases read

theorem scanNormalization_reads (token : List Char) :
    Reads scanNormalization (Recognized token) := by
  refine (Reads.any _).bind fun _ _ => (Reads.any _).bind fun rest _ => ?_
  split
  · exact .pure (.normalization fun n same => nomatch same)
  · refine positive_reads.bind fun size positive => .pure (.normalization ?_)
    rintro n ⟨⟩
    exact positive

theorem recognized_of_readKeyword {token : List Char} {b : Blueprint}
    (read : readKeyword token = some b) : Recognized token b := by
  obtain ⟨⟨word, named⟩, found, rfl⟩ := Option.map_eq_some_iff.mp read
  exact .keyword (List.mem_of_find?_eq_some found)

/-- What is read is what one of the recognizers makes of the token. -/
theorem recognized_of_read {token : String} {b : Blueprint} (read : read? token = some b) :
    Recognized token.toList b := by
  obtain ⟨recognize, member, read⟩ := List.exists_of_findSome?_eq_some read
  simp only [recognizers, List.mem_cons, List.not_mem_nil, or_false] at member
  rcases member with rfl | rfl | rfl | rfl | rfl | rfl | rfl | rfl | rfl
  · refine recognized_of_whole ((Reads.any _).bind fun units _ => ?_) read
    exact (Reads.any _).bind fun _ _ => .pure (.fullyConnected units)
  · refine recognized_of_whole ((Reads.any _).bind fun filters _ => ?_) read
    refine (Reads.any _).bind fun _ _ => (Reads.any _).bind fun size _ => ?_
    exact (Reads.any _).bind fun windowing _ => .pure (.convolution filters size windowing)
  · refine recognized_of_whole ((Reads.any _).bind fun size _ => ?_) read
    refine (Reads.any _).bind fun _ _ => ?_
    split
    · exact .pure (.pool .max size)
    · exact (Reads.any _).bind fun _ _ => .pure (.pool .average size)
  · refine recognized_of_whole ((Reads.any _).bind fun units _ => ?_) read
    refine (Reads.any _).bind fun _ _ => (Reads.any _).bind fun summarize _ => ?_
    exact .pure (.recurrent units summarize)
  · refine recognized_of_whole ((Reads.any _).bind fun _ _ => ?_) read
    refine (Reads.any _).bind fun keep _ => ?_
    split
    · exact .pure (.dropout keep)
    · exact .failure
  · refine recognized_of_whole ((Reads.any _).bind fun _ _ => ?_) read
    exact (Reads.any _).bind fun factor _ => .pure (.scale factor)
  · exact recognized_of_whole (scanNormalization_reads _) read
  · exact recognized_of_readKeyword read
  · obtain ⟨dims, axes, rfl⟩ := Option.map_eq_some_iff.mp read
    exact .input axes

/-- If the blueprint asks for a window of a response normalization, the window is not empty. -/
def IsUsable (b : Blueprint) : Prop := ∀ n, b = .normalization (some n) → n ≠ 0

theorem isUsable_of_isRead {b : Blueprint} (read : b.IsRead) : b.IsUsable := by
  obtain ⟨token, read⟩ := read
  intro n same
  cases recognized_of_read read with
  | normalization nonempty =>
    cases same
    exact nonempty n rfl
  | keyword named =>
    subst same
    simp [keywords] at named
  | _ => cases same

theorem isUsable_of_isRouting {b : Blueprint} (routing : b.IsRouting) : b.IsUsable := by
  rcases routing with rfl | rfl
  · exact fun _ same => nomatch same
  · exact fun _ same => nomatch same

/-! ## Placed layers -/

/-- How many tensors the layer of a blueprint gives. -/
def tensors (b : Blueprint) (placement : Placement) : Nat :=
  if b.isSplit then max placement.outDegree 1 else 1

/-- What the layer of a blueprint accepts: what arrives, unless it is an input at the source. -/
def accepted (b : Blueprint) (placement : Placement) (layer : Layer) : List Shape :=
  if placement.isSource && b.isInput then [layer.outputShape] else placement.inputShapes

/-- The layer suits its placement. -/
def Suits (s : Store) (b : Blueprint) (placement : Placement) (layer : Layer) : Prop :=
  layer.Accepts s (b.accepted placement layer) ∧ layer.outputCount = b.tensors placement

theorem suits_of_isSingle {s : Store} {b : Blueprint} {placement : Placement} {layer : Layer}
    (noSplit : b.isSplit = false) (noInput : b.isInput = false)
    (single : layer.IsSingle s placement.inputShapes) : b.Suits s placement layer := by
  refine ⟨?_, ?_⟩
  · rw [accepted, noInput, Bool.and_false]
    exact single.1
  · rw [tensors, noSplit]
    exact single.2

theorem suits_of_placeInput {s : Store} {dims : List (Option Nat)} {shape : Shape}
    {placement : Placement} {layer : Layer} (arrives : placement.inputShapes = [shape])
    (success : placeInput dims shape placement.isSource = .ok layer) :
    (Blueprint.input dims).Suits s placement layer := by
  obtain ⟨declared, -, success⟩ := Outcome.bind_eq_ok_iff.mp success
  split at success
  · cases success
  next agrees =>
    obtain ⟨-, -, success⟩ := Outcome.bind_eq_ok_iff.mp success
    cases success
    refine ⟨?_, rfl⟩
    unfold accepted
    split
    · exact .input declared
    next source =>
      have later : placement.isSource = false := by simpa [isInput] using source
      have same : declared = shape := by simpa [later] using agrees
      rw [arrives, ← same]
      exact .input declared

/-- The one blueprint that takes several shapes. -/
theorem joined_yields {s : Store} (placement : Placement) :
    Building.Yields s (Building.lift (Layer.ofInputs placement.inputShapes))
      fun s' => concat.Suits s' placement :=
  (Building.Yields.lift _).mono fun _ _ _ success =>
    suits_of_isSingle rfl rfl (Layer.isSingle_of_inputs success)

theorem placeOne_yields {b : Blueprint} (usable : b.IsUsable) {placement : Placement}
    {shape : Shape} (arrives : placement.inputShapes = [shape]) (s : Store) :
    Building.Yields s (b.placeOne shape placement) fun s' => b.Suits s' placement := by
  have single {b : Blueprint} {x : Building Layer} (noSplit : b.isSplit = false)
      (noInput : b.isInput = false)
      (yields : Building.Yields s x fun s' => Layer.IsSingle s' [shape]) :
      Building.Yields s x fun s' => b.Suits s' placement :=
    yields.mono fun s' layer _ built => suits_of_isSingle noSplit noInput (arrives ▸ built)
  cases b with
  | input dims =>
    exact (Building.Yields.lift _).mono fun _ _ _ success => suits_of_placeInput arrives success
  | fullyConnected units => exact single rfl rfl (Layer.ofUnits_yields shape units)
  | convolution filters size windowing =>
    exact single rfl rfl (Layer.ofFilters_yields shape filters size windowing)
  | pool pooling size =>
    exact single rfl rfl ((Building.Yields.lift _).mono fun _ _ _ success =>
      Layer.isSingle_of_pooling success)
  | recurrent units summarize =>
    exact single rfl rfl (Layer.ofStates_yields shape units summarize)
  | dropout keep =>
    exact single rfl rfl ((Building.Yields.lift _).mono fun _ _ _ success =>
      Layer.isSingle_of_keep success)
  | scale factor => exact single rfl rfl (.pure ⟨.scale factor shape, rfl⟩)
  | normalization size =>
    have offset : ¬ Normalization.standard.k ≤ 0 := by decide +kernel
    refine single rfl rfl (.pure ⟨.normalization shape ?_ offset, rfl⟩)
    cases size with
    | none => exact Nat.succ_ne_zero 4
    | some n => exact usable n rfl
  | split =>
    refine .pure ⟨?_, rfl⟩
    rw [accepted, show split.isInput = false from rfl, Bool.and_false, arrives]
    exact .split _ shape
  | concat => exact joined_yields placement
  | activation a => exact single rfl rfl (.pure ⟨.activation a shape, rfl⟩)
  | loss l => exact single rfl rfl (.pure ⟨.loss l shape, rfl⟩)

/-- A layer that is built suits the place it was built for. -/
theorem instantiate_yields {b : Blueprint} (usable : b.IsUsable) (placement : Placement)
    (s : Store) : Building.Yields s (b.instantiate placement) fun s' => b.Suits s' placement := by
  unfold instantiate
  split
  next shape arrives => exact placeOne_yields usable arrives s
  · split
    next joins =>
      cases b with
      | concat => exact joined_yields placement
      | _ => exact absurd joins Bool.false_ne_true
    · exact .fail _

end Blueprint

end LayerNet
