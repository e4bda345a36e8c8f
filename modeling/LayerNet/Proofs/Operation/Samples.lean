import LayerNet.Proofs.Operation.Calls
import LayerNet.Proofs.Operation.Routed
import LayerNet.Proofs.Operation.Shapes

/-!
# Samples — an operation does to a batch what it does to each of its samples

The elements of one sample are a block of the batch's buffer (`Buffer.Block`), and a sample by itself
is a content with this block and a first axis of length one (`Content.SampleOf`). Where an operation
works behind the first axis, it gives on a sample by itself the sample of what it gives on the batch
(`Sampled`): element by element, the positions that it reads for the batch are those that it reads
for the sample, moved by whole samples.
-/

namespace LayerNet

/-! ## Blocks of buffers -/

/-- The second buffer is one of the blocks of equal length that the first one begins with. -/
structure Buffer.Block (b length : Nat) (whole part : Buffer) : Prop where
  size : part.size = length
  within : (b + 1) * length ≤ whole.size
  elements : ∀ i < length, part.element i = whole.element (b * length + i)

namespace Buffer

theorem element_map (f : Float32 → Float32) {b : Buffer} {i : Nat} (inside : i < b.size) :
    Buffer.element (b.map f) i = f (b.element i) := by
  rw [element_of_lt inside, element_of_lt (by rwa [Array.size_map]), Array.getElem_map]

theorem element_combine (f : Float32 → Float32 → Float32) {a b : Buffer} {i : Nat}
    (left : i < a.size) (right : i < b.size) :
    (combine f a b).element i = f (a.element i) (b.element i) := by
  rw [element_of_lt left, element_of_lt right, element_of_lt (by rw [size_combine]; omega)]
  exact Array.getElem_zipWith _

theorem element_append_left {a : Buffer} (b : Buffer) {i : Nat} (inside : i < a.size) :
    Buffer.element (a ++ b) i = a.element i := by
  simp [element, Array.getElem?_append, inside]

theorem element_append_right (a b : Buffer) (i : Nat) :
    Buffer.element (a ++ b) (a.size + i) = b.element i := by
  simp [element, Array.getElem?_append_right (Nat.le_add_right a.size i)]

theorem nonFinite?_eq_none_iff {b : Buffer} :
    b.nonFinite? = none ↔ ∀ i < b.size, (b.element i).isFinite = true := by
  unfold nonFinite?
  rw [Array.findIdx?_eq_none_iff]
  constructor
  · intro finite i inside
    rw [element_of_lt inside]
    simpa using finite b[i] (Array.getElem_mem inside)
  · intro finite x member
    obtain ⟨i, inside, rfl⟩ := Array.getElem_of_mem member
    rw [← element_of_lt inside, finite i inside]
    rfl

/-- A row of the result is what its row of the buffer is changed into, by induction on the rows. -/
theorem element_mapRows {width : Nat} {f : Nat → List Float32 → List Float32}
    (widths : ∀ r row, row.length = width → (f r row).length = width) (b : Buffer) {r j : Nat}
    (row : r < b.size / width) (column : j < width) :
    (b.mapRows width f).element (r * width + j) = (f r (b.row width r)).getD j 0 := by
  have wide (r : Nat) : (f r (b.row width r)).toArray.size = width := by
    rw [List.size_toArray]
    exact widths r _ (by simp [Buffer.row])
  have rows (n : Nat) : ∃ out : Buffer, (List.range n).foldl
      (fun out r => out ++ (f r (b.row width r)).toArray) #[] = out ∧ out.size = n * width
        ∧ ∀ r < n, out.element (r * width + j) = (f r (b.row width r)).getD j 0 := by
    induction n with
    | zero => exact ⟨#[], rfl, by simp, fun r none => absurd none (Nat.not_lt_zero r)⟩
    | succ n ih =>
      obtain ⟨out, folded, size, elements⟩ := ih
      refine ⟨out ++ (f n (b.row width n)).toArray, ?_, ?_, fun r small => ?_⟩
      · rw [List.range_succ, List.foldl_append, folded]
        rfl
      · rw [Array.size_append, size, wide, Nat.succ_mul]
      · rcases Nat.lt_succ_iff_lt_or_eq.mp small with earlier | rfl
        · rw [element_append_left _ (size ▸ mul_add_lt earlier column), elements r earlier]
        · rw [← size, element_append_right]
          simp [Buffer.element]
  obtain ⟨out, folded, -, elements⟩ := rows (b.size / width)
  unfold mapRows
  rw [folded, elements r row]

namespace Block

variable {b length : Nat} {whole part : Buffer}

theorem lt (block : Block b length whole part) {i : Nat} (inside : i < length) :
    b * length + i < whole.size := by
  have within := block.within
  rw [Nat.add_mul, Nat.one_mul] at within
  omega

/-- A block is there where the buffer has so many of them. -/
theorem of_size {n : Nat} (size : whole.size = n * length) (inside : b < n)
    (count : part.size = length)
    (elements : ∀ i < length, part.element i = whole.element (b * length + i)) :
    Block b length whole part where
  size := count
  within := size ▸ Nat.mul_le_mul_right length inside
  elements := elements

theorem tabulate {n count : Nat} {f g : Nat → Float32} (size : count = n * length) (inside : b < n)
    (same : ∀ i < length, g i = f (b * length + i)) :
    Block b length (Buffer.tabulate count f) (Buffer.tabulate length g) := by
  refine of_size ((size_tabulate _ _).trans size) inside (size_tabulate _ _) fun i small => ?_
  rw [element_tabulate g small, element_tabulate f (size ▸ mul_add_lt inside small), same i small]

theorem map (block : Block b length whole part) (f : Float32 → Float32) :
    Block b length (whole.map f) (part.map f) where
  size := by rw [Array.size_map, block.size]
  within := by
    rw [Array.size_map]
    exact block.within
  elements i small := by
    rw [element_map f (block.size.symm ▸ small), element_map f (block.lt small),
      block.elements i small]

theorem combine {whole' part' : Buffer} (block : Block b length whole part)
    (other : Block b length whole' part') (f : Float32 → Float32 → Float32) :
    Block b length (Buffer.combine f whole whole') (Buffer.combine f part part') where
  size := by rw [size_combine, block.size, other.size, Nat.min_self]
  within := by
    rw [size_combine]
    exact Nat.le_min.mpr ⟨block.within, other.within⟩
  elements i small := by
    rw [element_combine f (block.size.symm ▸ small) (other.size.symm ▸ small),
      element_combine f (block.lt small) (other.lt small), block.elements i small,
      other.elements i small]

/-- Rows that do not cross the ends of a block are changed alike. -/
theorem mapRows (block : Block b length whole part) {width : Nat} (divides : width ∣ length)
    {f : List Float32 → List Float32} (widths : ∀ row, row.length = width → (f row).length = width) :
    Block b length (whole.mapRows width fun _ => f) (part.mapRows width fun _ => f) := by
  obtain ⟨q, rfl⟩ := divides
  have blocks : (b + 1) * q * width ≤ whole.size := by
    rw [Nat.mul_assoc, Nat.mul_comm q]
    exact block.within
  refine ⟨?_, ?_, fun i small => ?_⟩
  · rw [size_mapRows part fun _ => widths, block.size]
    exact Nat.div_mul_cancel (Nat.dvd_mul_right width q)
  · rw [size_mapRows whole fun _ => widths, Nat.mul_comm width, ← Nat.mul_assoc]
    exact Nat.div_mul_cancel (Nat.dvd_mul_left width _) ▸
      Nat.mul_le_mul_right width (Nat.div_le_div_right blocks)
  · have positive : 0 < width := Nat.pos_of_mul_pos_right (Nat.zero_lt_of_lt small)
    have row : i / width < q := Nat.div_lt_of_lt_mul small
    have column : i % width < width := Nat.mod_lt i positive
    have digits : i = i / width * width + i % width := (Nat.div_add_mod' i width).symm
    have moved (j : Nat) :
        b * (width * q) + (i / width * width + j) = (b * q + i / width) * width + j := by
      rw [Nat.add_mul, Nat.mul_comm width q, Nat.mul_assoc, Nat.add_assoc]
    have rows : part.row width (i / width) = whole.row width (b * q + i / width) := by
      refine List.map_congr_left fun j member => ?_
      rw [List.mem_range] at member
      rw [block.elements _ (Nat.mul_comm width q ▸ mul_add_lt row member), moved]
    have inPart : i / width < part.size / width := by
      rwa [block.size, Nat.mul_div_cancel_left q positive]
    have inWhole : b * q + i / width < whole.size / width := by
      refine Nat.lt_of_lt_of_le (mul_add_lt (Nat.lt_succ_self b) row) ?_
      exact (Nat.le_div_iff_mul_le positive).mpr blocks
    rw [digits, moved, element_mapRows (fun _ => widths) part inPart column,
      element_mapRows (fun _ => widths) whole inWhole column, rows]

/-- Its elements are finite when all are. -/
theorem finite (block : Block b length whole part) (finite : whole.nonFinite? = none) :
    part.nonFinite? = none := by
  rw [nonFinite?_eq_none_iff] at finite ⊢
  intro i small
  rw [block.size] at small
  rw [block.elements i small]
  exact finite _ (block.lt small)

end Block

end Buffer

/-- An element of a product depends on one row of the left factor. -/
theorem Matrix.dot_congr {a a' w : Matrix.Entries} {inner i i' j : Nat}
    (same : ∀ p < inner, a i p = a' i' p) : dot a w inner i j = dot a' w inner i' j := by
  unfold dot
  refine List.foldl_ext _ _ _ fun sum p member => ?_
  rw [same p (List.mem_range.mp member)]

/-! ## Samples of batches -/

namespace Size

variable {ε : Type}

/-- A product of sizes is there when one with a larger first factor is. -/
theorem foldlM_mul_of_le {ns : List Nat} {start start' n : Nat} (smaller : start' ≤ start)
    (fits : (ns.foldlM mul start : Outcome ε Nat) = .ok n) :
    (ns.foldlM mul start' : Outcome ε Nat) = .ok (start' * ns.prod) := by
  induction ns generalizing start start' with
  | nil =>
    rw [List.prod_nil, Nat.mul_one]
    rfl
  | cons k ns ih =>
    rw [List.foldlM_cons, Outcome.bind_eq_ok_iff] at fits ⊢
    obtain ⟨next, first, rest⟩ := fits
    have small : start * k < limit := by
      unfold mul check at first
      split at first
      · assumption
      · cases first
    have smaller' := Nat.mul_le_mul_right k smaller
    rw [check_eq_ok first] at rest
    refine ⟨_, mul_of_lt (Nat.lt_of_le_of_lt smaller' small), ?_⟩
    rw [ih smaller' rest, List.prod_cons, Nat.mul_assoc]

/-- One sample has a number of elements when a batch of them has. -/
theorem product_sample {n count : Nat} {shape : List Nat} (positive : 0 < n)
    (fits : (product (n :: shape) : Outcome ε Nat) = .ok count) :
    (product (1 :: shape) : Outcome ε Nat) = .ok shape.prod := by
  unfold product at fits ⊢
  rw [List.foldlM_cons, Outcome.bind_eq_ok_iff] at fits ⊢
  obtain ⟨first, one, rest⟩ := fits
  rw [check_eq_ok one, Nat.one_mul] at rest
  refine ⟨1, mul_of_lt (by decide), ?_⟩
  rw [foldlM_mul_of_le positive rest, Nat.one_mul]

end Size

/-- Strides do not depend on the length of the first axis. -/
theorem Shape.strides_cons_congr {shape : Shape} (ranked : shape ≠ []) (n m : Nat) :
    Shape.strides (n :: shape) = Shape.strides (m :: shape) := by
  cases shape with
  | nil => exact absurd rfl ranked
  | cons next rest => rfl

namespace Content

/-- The second content is a sample of the first by itself: a batch of one, with the sample's block
of the elements. -/
structure SampleOf (b : Nat) (x y : Content) : Prop where
  whole : x.WellFormed
  single : y.WellFormed
  ranked : x.shape.tail ≠ []
  inside : b < x.shape.extent 0
  shape : y.shape = 1 :: x.shape.tail
  block : Buffer.Block b x.shape.tail.prod x.values y.values

variable {b : Nat} {x y : Content}

/-- The shapes of a batch and of a sample. -/
theorem SampleOf.exists_shape (sample : SampleOf b x y) : ∃ (n : Nat) (shape : Shape),
    x.shape = n :: shape ∧ y.shape = 1 :: shape ∧ shape ≠ [] ∧ b < n ∧ Buffer.Block b shape.prod x.values y.values := by
  obtain ⟨-, -, ranked, inside, shape, block⟩ := sample
  obtain ⟨n, rest, split⟩ := List.exists_cons_of_ne_nil fun none : x.shape = [] =>
    ranked (by rw [none]; rfl)
  rw [split] at ranked inside shape block
  exact ⟨n, rest, split, shape, ranked, inside, block⟩

/-- A content of a block is a sample of the content of the whole. -/
theorem SampleOf.of_make {n : Nat} {shape : Shape} (ranked : shape ≠ []) (inside : b < n)
    {values values' : Buffer} (made : make values (n :: shape) = .ok x)
    (block : Buffer.Block b shape.prod values values') :
    ∃ y, make values' (1 :: shape) = .ok y ∧ SampleOf b x y := by
  obtain ⟨shaped, valued, valid, elements, finite⟩ := of_make_eq_ok made
  have wf := wellFormed_of_make made
  have strides : Shape.strides (1 :: shape) = .ok x.strides := by
    rw [← wf.strides, shaped]
    exact Shape.strides_cons_congr ranked 1 n
  have made' : make values' (1 :: shape) = .ok ⟨1 :: shape, x.strides, values'⟩ := by
    rw [Shape.isValid_cons] at valid
    have valid' := (Shape.isValid_cons 1 shape).mpr ⟨Nat.one_pos, valid.2⟩
    unfold make
    rw [(Shape.validate_eq_ok_iff _).mpr valid', Shape.elements,
      Size.product_sample valid.1 elements]
    dsimp only [bind, Except.bind]
    rw [if_neg (fun different => different block.size), block.finite finite, strides]
    rfl
  subst valued
  refine ⟨_, made', wf, wellFormed_of_make made', ?_, ?_, ?_, ?_⟩
  · rwa [shaped]
  · rwa [shaped]
  · rw [shaped]
    rfl
  · rwa [shaped]

end Content

/-- Where the first computation gives results, so does the second, and it gives their samples. -/
def Sampled (b : Nat) (whole single : Checked Computed) : Prop :=
  ∀ c, whole = .ok c → ∃ d, single = .ok d ∧ List.Forall₂ (Content.SampleOf b) c.outputs d.outputs

namespace Sampled

variable {b n : Nat} {shape : Shape} {values values' : Buffer} {rule rule' : Rule}

/-- The same for one content that is made. -/
theorem of_make (ranked : shape ≠ []) (inside : b < n)
    (block : values.size = n * shape.prod → Buffer.Block b shape.prod values values') :
    Sampled b (Content.make values (n :: shape) >>= fun output => pure (Computed.single output rule))
      (Content.make values' (1 :: shape) >>= fun output => pure (Computed.single output rule')) := by
  intro c success
  obtain ⟨x, made, rest⟩ := Outcome.bind_eq_ok_iff.mp success
  cases rest
  have size := (Content.elements_of_make made).2
  rw [List.prod_cons] at size
  obtain ⟨y, made', sample⟩ := Content.SampleOf.of_make ranked inside made (block size)
  exact ⟨_, Outcome.bind_eq_ok_iff.mpr ⟨y, made', rfl⟩, .cons sample .nil⟩

end Sampled

namespace Content

open Buffer

variable {b : Nat} {x y x' y' bias : Content}

/-! ## Elementwise -/

theorem add_sampled (left : SampleOf b x y) (right : SampleOf b x' y') :
    Sampled b (x.add x') (y.add y') := by
  intro c success
  obtain ⟨⟨⟩, checked, success⟩ := Outcome.bind_eq_ok_iff.mp success
  have same := checkSameShape_eq_ok checked
  obtain ⟨n, shape, shaped, shaped', ranked, inside, block⟩ := left.exists_shape
  have block' := right.block
  rw [← same, shaped] at block'
  have agree : y.checkSameShape y' "add" = .ok () := by
    unfold checkSameShape
    rw [if_pos]
    rw [left.shape, right.shape, same]
  unfold add
  rw [agree, shaped']
  rw [shaped] at success
  exact Sampled.of_make ranked inside (fun _ => block.combine block' _) c success

theorem scale_sampled (sample : SampleOf b x y) (factor : Float32) :
    Sampled b (x.scale factor) (y.scale factor) := by
  obtain ⟨n, shape, shaped, shaped', ranked, inside, block⟩ := sample.exists_shape
  unfold scale
  rw [shaped, shaped']
  exact Sampled.of_make ranked inside fun _ => block.map _

theorem pointwise_sampled (sample : SampleOf b x y) (p : Pointwise) :
    Sampled b (p.compute x) (p.compute y) := by
  obtain ⟨n, shape, shaped, shaped', ranked, inside, block⟩ := sample.exists_shape
  unfold Pointwise.compute
  rw [shaped, shaped']
  exact Sampled.of_make ranked inside fun _ => block.map _

/-! ## Along rows -/

theorem addBias_sampled (sample : SampleOf b x y) (wf : bias.WellFormed) :
    Sampled b (x.addBias bias) (y.addBias bias) := by
  obtain ⟨n, shape, shaped, shaped', ranked, inside, block⟩ := sample.exists_shape
  have last (k : Nat) : (k :: shape).getLast? = shape.getLast? := by
    cases shape with
    | nil => exact absurd rfl ranked
    | cons next rest => rfl
  intro c success
  unfold addBias at success ⊢
  rw [shaped', last]
  rw [shaped, last] at success
  split at success
  · cases success
  next suits =>
    rw [if_neg suits]
    rw [not_or, not_not, not_not] at suits
    obtain ⟨width, axes⟩ := List.length_eq_one_iff.mp suits.1
    have divides : bias.count ∣ shape.prod := by
      have same : shape.width = width := by
        rw [Shape.width, List.getLastD_eq_getLast?, suits.2, axes]
        rfl
      rw [wf.count, axes, List.prod_singleton, ← same]
      exact Shape.width_dvd ranked
    refine Sampled.of_make ranked inside (fun size => ?_) c success
    have counts : y.count = shape.prod := block.size
    rw [counts]
    rw [size_tabulate] at size
    refine .tabulate size inside fun i small => ?_
    rw [block.elements i small]
    obtain ⟨q, rows⟩ := divides
    rw [rows, Nat.mul_left_comm, Nat.mul_add_mod]

theorem matmul_sampled (sample : SampleOf b x y) (weight : Content) :
    Sampled b (x.matmul weight) (y.matmul weight) := by
  intro c success
  unfold matmul at success
  split at success
  next m k k' columns shaped shaped' =>
    obtain ⟨n, shape, split, single, ranked, inside, block⟩ := sample.exists_shape
    rw [shaped] at split
    cases split
    rw [List.prod_singleton] at block
    unfold matmul
    rw [single, shaped']
    dsimp only
    split at success
    · cases success
    next agree =>
      rw [if_neg agree]
      refine Sampled.of_make (List.cons_ne_nil _ _) inside (fun size => ?_) c success
      rw [Matrix.product, size_tabulate] at size
      rw [Matrix.product, Matrix.product, Nat.one_mul, List.prod_singleton]
      rw [List.prod_singleton] at size
      refine .tabulate size inside fun j small => ?_
      have positive : 0 < columns := Nat.zero_lt_of_lt small
      have row : (b * columns + j) / columns = b := by
        rw [Nat.mul_comm, Nat.mul_add_div positive, Nat.div_eq_of_lt small, Nat.add_zero]
      have column : (b * columns + j) % columns = j % columns := by
        rw [Nat.mul_comm, Nat.mul_add_mod]
      rw [row, column, Nat.div_eq_of_lt small]
      refine Matrix.dot_congr fun p inner => ?_
      rw [Matrix.entries, Matrix.entries, Nat.zero_mul, Nat.zero_add, block.elements p inner]
  · cases success

/-- The rows of a batch along its last axis are the rows of its samples. -/
theorem SampleOf.mapRows (sample : SampleOf b x y) {f : List Float32 → List Float32}
    (lengths : ∀ row, (f row).length = row.length) {rule rule' : Rule} :
    Sampled b
      (make (x.values.mapRows x.shape.width fun _ => f) x.shape >>= fun output =>
        pure (Computed.single output rule))
      (make (y.values.mapRows y.shape.width fun _ => f) y.shape >>= fun output =>
        pure (Computed.single output rule')) := by
  obtain ⟨n, shape, shaped, shaped', ranked, inside, block⟩ := sample.exists_shape
  have width (k : Nat) : Shape.width (k :: shape) = shape.width := by
    cases shape with
    | nil => exact absurd rfl ranked
    | cons next rest => rfl
  rw [shaped, shaped', width, width]
  refine Sampled.of_make ranked inside fun _ => block.mapRows (Shape.width_dvd ranked) ?_
  exact fun row long => (lengths row).trans long

theorem softmax_sampled (sample : SampleOf b x y) : Sampled b x.softmax y.softmax :=
  sample.mapRows fun row => by rw [softmaxRow, List.length_map, List.length_map]

theorem normalize_sampled (sample : SampleOf b x y) (settings : Normalization) :
    Sampled b (x.normalize settings) (y.normalize settings) := by
  intro c success
  unfold normalize at success ⊢
  split at success
  · cases success
  next usable =>
    rw [if_neg usable]
    exact sample.mapRows (fun pixel => by simp) c success

/-! ## In place -/

theorem copy_sampled (sample : SampleOf b x y) : Sampled b x.copy y.copy := by
  obtain ⟨n, shape, shaped, shaped', ranked, inside, block⟩ := sample.exists_shape
  intro c success
  obtain ⟨output, rfl, made⟩ := (copy_eq_ok_iff sample.whole.count).mp success
  rw [shaped] at made
  obtain ⟨output', made', related⟩ := SampleOf.of_make ranked inside made block
  rw [← shaped'] at made'
  exact ⟨_, (copy_eq_ok_iff sample.single.count).mpr ⟨output', rfl, made'⟩, .cons related .nil⟩

theorem reshape_sampled (sample : SampleOf b x y) {shape : Shape} (ranked : shape ≠ []) :
    Sampled b (x.reshaped (x.shape.extent 0 :: shape)) (y.reshaped (y.shape.extent 0 :: shape)) := by
  obtain ⟨n, rest, shaped, shaped', -, inside, block⟩ := sample.exists_shape
  intro c success
  obtain ⟨output, rfl, made⟩ := reshaped_eq_ok_iff.mp success
  rw [shaped] at made
  have count : x.count = n * rest.prod := by rw [sample.whole.count, shaped, List.prod_cons]
  have count' : x.count = n * shape.prod := by
    exact (elements_of_make made).2
  have same : shape.prod = rest.prod := by
    rw [count] at count'
    exact (Nat.eq_of_mul_eq_mul_left (Nat.zero_lt_of_lt inside) count').symm
  rw [← same] at block
  obtain ⟨output', made', related⟩ := SampleOf.of_make ranked inside made block
  rw [shaped']
  exact ⟨_, reshaped_eq_ok_iff.mpr ⟨output', rfl, made'⟩, .cons related .nil⟩

end Content

end LayerNet
