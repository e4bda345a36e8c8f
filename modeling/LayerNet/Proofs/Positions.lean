import LayerNet.Proofs.Coordinates
import LayerNet.Proofs.Store.Regular

/-!
# Positions — every element has one index list, and every index list on the axes one element

The position of an index list is found by one pass over the axes, in word arithmetic
(`Content.position`). Where the elements can be counted, no step of the pass leaves the word: what
the axes so far have put together and what the others can still add stay below the number of
elements (`Content.advance_on`). So the pass ends at the row-major position, or it refuses the list
at the first index that is not on its axis (`Content.foldlM_advance`, by induction along the axes).

Together with the coordinates of a position this makes index lists and positions correspond
(`Content.Addressed`), for a content as it was made and after any number of reshapes in place, since
both leave it regular.
-/

namespace LayerNet

/-- One index for each axis, not negative and below its length. -/
def Shape.OnAxes (shape : Shape) (indices : List Int) : Prop :=
  List.Forall₂ (fun index length => 0 ≤ index ∧ index < Int.ofNat length) indices shape

/-- Indices on the axes, as natural numbers. -/
theorem Shape.OnAxes.toNat {shape : Shape} {indices : List Int} (onAxes : shape.OnAxes indices) :
    List.Forall₂ (· < ·) (indices.map Int.toNat) shape := by
  rw [List.forall₂_map_left_iff]
  exact onAxes.imp fun index length on => by
    have := on.2
    simp only [Int.ofNat_eq_natCast] at this
    omega

theorem Shape.OnAxes.map_toNat {shape : Shape} {indices : List Int}
    (onAxes : shape.OnAxes indices) : (indices.map Int.toNat).map Int.ofNat = indices := by
  induction onAxes with
  | nil => rfl
  | cons on _ ih =>
    rw [List.map_cons, List.map_cons, ih, Int.ofNat_eq_natCast, Int.toNat_of_nonneg on.1]

theorem Shape.onAxes_map {shape : Shape} {indices : List Nat}
    (below : List.Forall₂ (· < ·) indices shape) : shape.OnAxes (indices.map Int.ofNat) := by
  rw [OnAxes, List.forall₂_map_left_iff]
  exact below.imp fun index length below => ⟨Int.natCast_nonneg index, Int.ofNat_lt.mpr below⟩

namespace Content

/-- Index lists on the axes and positions below the number of elements correspond, and no other
index list has a position. -/
structure Addressed (c : Content) : Prop where
  accepts : ∀ indices, c.shape.OnAxes indices → ∃ position element,
    c.position indices = .ok position ∧ position < c.count
      ∧ c.values[position]? = some element ∧ c.get indices = .ok element
  refuses : ∀ indices, ¬ c.shape.OnAxes indices →
    c.position indices = Outcome.fail (.outOfRange indices c.shape "position")
      ∧ c.get indices = Outcome.fail (.outOfRange indices c.shape "position")
  differs : ∀ indices indices' position, c.position indices = .ok position →
    c.position indices' = .ok position → indices = indices'
  reaches : ∀ position < c.count, ∃ coordinates, c.shape.coordinates position = .ok coordinates
    ∧ c.position (coordinates.map Int.ofNat) = .ok position
  returns : ∀ indices position, c.position indices = .ok position →
    ∃ coordinates, c.shape.coordinates position = .ok coordinates
      ∧ coordinates.map Int.ofNat = indices

/-! ## The pass over the axes -/

section Pass

variable (refusal : TensorError) (offset : Nat) {length stride : Nat} {index : Int}

/-- One more axis keeps the offset below what the axes can put together. -/
theorem advance_on (on : 0 ≤ index ∧ index < Int.ofNat length) (some : 0 < stride)
    (fits : offset + length * stride ≤ Size.limit) :
    advance refusal offset (index, length, stride) = .ok (offset + index.toNat * stride)
      ∧ offset + index.toNat * stride + stride ≤ Size.limit := by
  obtain ⟨i, rfl⟩ := Int.eq_ofNat_of_zero_le on.1
  have below : i < length := Int.ofNat_lt.mp on.2
  have within : offset + i * stride + stride ≤ Size.limit := by
    have := Nat.mul_le_mul_right stride (Nat.succ_le_of_lt below)
    rw [Nat.succ_mul] at this
    omega
  refine ⟨?_, within⟩
  have product : i * stride < Size.limit := by omega
  have sum : offset + i * stride < Size.limit := by omega
  rw [advance, if_neg (by simp [below]), Int.toNat_natCast, Size.mul_of_lt product]
  exact Size.add_of_lt sum

theorem advance_off (off : ¬ (0 ≤ index ∧ index < Int.ofNat length)) :
    advance refusal offset (index, length, stride) = Outcome.fail refusal := by
  rw [advance, if_pos]
  simp only [Int.ofNat_eq_natCast] at off
  omega

/-- The pass adds the position of the indices to the offset, or refuses them. -/
theorem foldlM_advance {shape : Shape} {strides : List Nat} {indices : List Int}
    (inhabited : 0 ∉ shape) (stepped : shape ≠ [] → shape.strides = .ok strides)
    (fits : offset + shape.prod ≤ Size.limit) (same : indices.length = shape.length) :
    (shape.OnAxes indices → (indices.zip (shape.zip strides)).foldlM (advance refusal) offset
        = .ok (offset + shape.index (indices.map Int.toNat)))
      ∧ (¬ shape.OnAxes indices → (indices.zip (shape.zip strides)).foldlM (advance refusal) offset
        = Outcome.fail refusal) := by
  induction shape generalizing strides indices offset with
  | nil =>
    obtain rfl := List.eq_nil_of_length_eq_zero same
    exact ⟨fun _ => rfl, fun off => absurd .nil off⟩
  | cons length rest ih =>
    obtain ⟨index, indices, rfl⟩ := List.exists_cons_of_length_eq_add_one same
    obtain ⟨inner, rfl, behind⟩ := Shape.strides_cons (stepped (List.cons_ne_nil _ _))
    rw [List.mem_cons, not_or] at inhabited
    rw [List.prod_cons] at fits
    simp only [Shape.OnAxes, List.forall₂_cons, List.zip_cons_cons, List.foldlM_cons]
    by_cases on : 0 ≤ index ∧ index < Int.ofNat length
    · obtain ⟨step, fits⟩ := advance_on refusal offset on (Shape.prod_pos inhabited.2) fits
      obtain ⟨accepted, refused⟩ := ih _ inhabited.2 behind fits (Nat.succ.inj same)
      rw [step]
      refine ⟨fun onAxes => ?_, fun off => refused fun onAxes => off ⟨on, onAxes⟩⟩
      rw [List.map_cons, Shape.index, ← Nat.add_assoc]
      exact accepted onAxes.2
    · rw [advance_off refusal offset on]
      exact ⟨fun onAxes => absurd onAxes.1 on, fun _ => rfl⟩

end Pass

/-! ## Regular contents -/

variable {c : Content} {indices : List Int}

/-- Indices on the axes have their row-major position. -/
theorem Regular.position_eq (regular : c.Regular) (onAxes : c.shape.OnAxes indices) :
    c.position indices = .ok (c.shape.index (indices.map Int.toNat)) := by
  have wf := regular.wellFormed
  have pass := (foldlM_advance (.outOfRange indices c.shape "position") 0
    wf.valid.2 (fun _ => wf.strides) (by have := regular.fits; omega) onAxes.length_eq).1 onAxes
  rw [position, if_neg (fun different => different onAxes.length_eq), pass, Nat.zero_add]

theorem Regular.position_eq_fail (regular : c.Regular) (off : ¬ c.shape.OnAxes indices) :
    c.position indices = Outcome.fail (.outOfRange indices c.shape "position") := by
  have wf := regular.wellFormed
  rw [position]
  split
  · rfl
  next same =>
    exact (foldlM_advance _ 0 wf.valid.2 (fun _ => wf.strides) (by have := regular.fits; omega)
      (Classical.not_not.mp same)).2 off

/-- Index lists and positions of a regular content correspond. -/
theorem Regular.addressed (regular : c.Regular) : c.Addressed := by
  have inhabited : 0 ∉ c.shape := regular.wellFormed.valid.2
  have found {indices : List Int} {position : Nat} (success : c.position indices = .ok position) :
      c.shape.OnAxes indices ∧ c.shape.index (indices.map Int.toNat) = position := by
    by_cases onAxes : c.shape.OnAxes indices
    · rw [regular.position_eq onAxes] at success
      exact ⟨onAxes, Except.ok.inj success⟩
    · rw [regular.position_eq_fail onAxes] at success
      cases success
  have returns (indices : List Int) (position : Nat) (success : c.position indices = .ok position) :
      (c.shape.digits position).map Int.ofNat = indices := by
    obtain ⟨onAxes, rfl⟩ := found success
    rw [Shape.digits_index onAxes.toNat, onAxes.map_toNat]
  constructor
  case accepts =>
    intro indices onAxes
    have small : c.shape.index (indices.map Int.toNat) < c.values.size :=
      regular.values ▸ Shape.index_lt onAxes.toNat
    have position := regular.position_eq onAxes
    have there := Array.getElem?_eq_getElem small
    refine ⟨_, _, position, small, there, ?_⟩
    rw [get, position]
    exact Outcome.get_eq_ok_iff.mpr there
  case refuses =>
    intro indices off
    have refused := regular.position_eq_fail off
    refine ⟨refused, ?_⟩
    rw [get, refused]
    rfl
  case differs =>
    intro indices indices' position success success'
    rw [← returns indices position success, returns indices' position success']
  case reaches =>
    intro position small
    have below : position < c.shape.prod := regular.values ▸ small
    have onAxes := Shape.onAxes_map (Shape.digits_lt position (Shape.prod_pos inhabited))
    refine ⟨_, Shape.coordinates_eq_digits position inhabited, ?_⟩
    have back : Int.toNat ∘ Int.ofNat = id := funext Int.toNat_natCast
    rw [regular.position_eq onAxes, List.map_map, back, List.map_id, Shape.index_digits below]
  case returns =>
    intro indices position success
    exact ⟨_, Shape.coordinates_eq_digits position inhabited, returns indices position success⟩

theorem shape_of_reshape {shape : Shape} {c' : Content} (success : c.reshape shape = .ok c') :
    c'.shape = shape ∧ c'.values = c.values := by
  obtain ⟨_, -, success⟩ := Outcome.bind_eq_ok_iff.mp success
  obtain ⟨count, -, success⟩ := Outcome.bind_eq_ok_iff.mp success
  split at success
  · cases success
  · obtain ⟨strides, -, success⟩ := Outcome.bind_eq_ok_iff.mp success
    cases success
    exact ⟨rfl, rfl⟩

/-- In-place reshapes of a regular content lead to a regular one of the same elements, which has the
last of the shapes. -/
theorem Regular.of_reshapes {shapes : List Shape} {c' : Content} (regular : c.Regular)
    (success : shapes.foldlM reshape c = .ok c') :
    c'.Regular ∧ c'.shape = shapes.getLastD c.shape ∧ c'.values = c.values := by
  induction shapes generalizing c with
  | nil =>
    cases success
    exact ⟨regular, rfl, rfl⟩
  | cons shape shapes ih =>
    rw [List.foldlM_cons] at success
    obtain ⟨next, first, success⟩ := Outcome.bind_eq_ok_iff.mp success
    obtain ⟨shaped, valued⟩ := shape_of_reshape first
    obtain ⟨regular, last, values⟩ := ih (Regular.of_reshape first).1 success
    refine ⟨regular, ?_, values.trans valued⟩
    rw [last, shaped, List.getLastD_cons]

/-- Row-major addressing: the strides of a valid shape whose elements can be counted exist, and by
them index lists and positions correspond, also after reshapes in place. -/
theorem addressed_of_reshapes {shape : Shape} {count : Nat} (valid : shape.IsValid)
    (elements : shape.elements = .ok count) :
    ∃ strides, shape.strides = .ok strides ∧ ∀ values : Buffer, values.size = count →
      ∀ (shapes : List Shape) (c : Content),
        shapes.foldlM reshape ⟨shape, strides, values⟩ = .ok c →
          c.Addressed ∧ c.count = count ∧ c.shape = shapes.getLastD shape ∧ c.values = values := by
  have small := Size.product_lt elements
  have counted := Size.product_eq_ok elements
  obtain ⟨strides, stepped⟩ := Shape.strides_of_lt valid.2 (counted ▸ small)
  refine ⟨strides, stepped, fun values size shapes c success => ?_⟩
  have regular : Regular ⟨shape, strides, values⟩ :=
    regular_iff.mpr ⟨⟨valid, stepped, size.trans counted⟩, size.trans_lt small⟩
  obtain ⟨regular, last, valued⟩ := regular.of_reshapes success
  exact ⟨regular.addressed, (congrArg Array.size valued).trans size, last, valued⟩

/-- A box of 48 elements, seen as six columns and then as twelve. -/
theorem addressed_of_reshapes_box : Shape.IsValid [2, 4, 6] ∧ Shape.elements [2, 4, 6] = .ok 48
    ∧ ∃ c : Content,
      [[8, 6], [4, 12]].foldlM reshape ⟨[2, 4, 6], [24, 6, 1], Buffer.zeros 48⟩ = .ok c
      ∧ c.Addressed ∧ c.shape = [4, 12] ∧ c.position [3, 5] = .ok 41 := by
  have valid : Shape.IsValid [2, 4, 6] := by decide
  have elements : Shape.elements [2, 4, 6] = .ok 48 := by rfl
  obtain ⟨strides, stepped, addressed⟩ := addressed_of_reshapes valid elements
  obtain rfl : [24, 6, 1] = strides := Except.ok.inj stepped
  have sized : (Buffer.zeros 48).size = 48 := Array.size_replicate
  have reshaped : [[8, 6], [4, 12]].foldlM reshape ⟨[2, 4, 6], [24, 6, 1], Buffer.zeros 48⟩
      = .ok ⟨[4, 12], [12, 1], Buffer.zeros 48⟩ := by rfl
  obtain ⟨whole, -, shaped, -⟩ := addressed _ sized _ _ reshaped
  exact ⟨valid, elements, _, reshaped, whole, shaped, rfl⟩

end Content

end LayerNet
