import LayerNet.Operation.Call
import LayerNet.Proofs.Operation.Places
import LayerNet.Proofs.Operation.Values

/-!
# Shapes of results — which operations cannot refuse their operands

On well-formed operands whose shapes fit, an operation ends out of range or gives results of the
shapes that the operands' shapes tell (`Computes`): it gives no error. There is one lemma for each
operation that layers run.

Nearly all of an operation's checks are about shapes. What is left is that the buffer of a result is
as large as its shape asks (`Content.make_ensures`, `Routing.compute_computes`).
-/

namespace LayerNet

/-- The computation ends out of range or gives results of the shapes; it gives no error. -/
def Computes (x : Checked Computed) (shapes : List Shape) : Prop :=
  x.Ensures fun c => c.outputs.map Content.shape = shapes

namespace Shape

theorem isValid_cons (length : Nat) (shape : Shape) :
    IsValid (length :: shape) ↔ 0 < length ∧ 0 ∉ shape := by
  rw [IsValid, List.mem_cons, not_or, Nat.pos_iff_ne_zero]
  exact ⟨fun valid => ⟨Ne.symm valid.2.1, valid.2.2⟩,
    fun valid => ⟨List.cons_ne_nil _ _, Ne.symm valid.1, valid.2⟩⟩

theorem IsValid.set {shape : Shape} (valid : shape.IsValid) (axis : Nat) {length : Nat}
    (positive : 0 < length) : IsValid (shape.set axis length) := by
  refine ⟨fun empty => valid.1 ?_, fun member => ?_⟩
  · rw [← List.length_eq_zero_iff, ← List.length_set, empty]
    rfl
  rcases List.mem_or_eq_of_mem_set member with member | same
  · exact valid.2 member
  · exact Nat.lt_irrefl 0 (same ▸ positive)

theorem pos_of_getElem? {shape : Shape} (inhabited : 0 ∉ shape) {axis length : Nat}
    (found : shape[axis]? = some length) : 0 < length := by
  refine Nat.pos_of_ne_zero fun zero => inhabited ?_
  rw [← zero]
  exact List.mem_of_getElem? found

theorem extent_of_getElem? {shape : Shape} {axis length : Nat}
    (found : shape[axis]? = some length) : shape.extent axis = length := by
  rw [extent, List.getD_eq_getElem?_getD, found]
  rfl

/-- A shape is its leading axes and its width. -/
theorem take_append_width {shape : Shape} (nonempty : shape ≠ []) :
    shape.take (shape.rank - 1) ++ [shape.width] = shape := by
  obtain ⟨init, last, rfl⟩ := (List.eq_nil_or_concat' shape).resolve_left nonempty
  rw [rank, width, List.getLastD_concat, List.length_append, List.length_singleton,
    Nat.add_sub_cancel, List.take_left]

/-- With its leading axes known, a shape has only its width left to tell. -/
theorem exists_width {init shape : Shape} (rank : shape.rank = init.length + 1)
    (leading : shape.take init.length = init) : ∃ width, shape = init ++ [width] := by
  have parts := take_append_width (List.ne_nil_of_length_eq_add_one rank)
  rw [rank, Nat.add_sub_cancel, leading] at parts
  exact ⟨_, parts.symm⟩

end Shape

/-! ## Results of one content -/

theorem Content.make_ensures {values : Buffer} {shape : Shape} (valid : shape.IsValid)
    (size : values.size = shape.prod) : (make values shape).Ensures fun c => c.shape = shape := by
  unfold make
  rw [(Shape.validate_eq_ok_iff shape).mpr valid]
  refine (Size.product_ensures shape).bind fun count elements => ?_
  rw [if_neg (by rw [elements, size]; exact fun different => different rfl)]
  split
  · exact .of_nonFinite
  · exact (Shape.strides_ensures shape).bind fun _ _ => .of_ok rfl

theorem Computes.of_make {values : Buffer} {shape : Shape} {rule : Rule} (valid : shape.IsValid)
    (size : values.size = shape.prod) :
    Computes (Content.make values shape >>= fun output => pure (Computed.single output rule))
      [shape] :=
  (Content.make_ensures valid size).bind fun output shaped => .of_ok (by rw [← shaped]; rfl)

namespace Content

variable {x a b : Content}

theorem pointwise_computes (wf : x.WellFormed) (p : Pointwise) : Computes (p.compute x) [x.shape] :=
  .of_make wf.valid (by rw [Array.size_map]; exact wf.count)

theorem scale_computes (wf : x.WellFormed) (factor : Float32) :
    Computes (x.scale factor) [x.shape] :=
  .of_make wf.valid (by rw [Array.size_map]; exact wf.count)

theorem softmax_computes (wf : x.WellFormed) : Computes x.softmax [x.shape] := by
  refine .of_make wf.valid ?_
  rw [← wf.count]
  refine size_mapRows wf rfl fun r row width => ?_
  rw [softmaxRow, List.length_map, List.length_map]
  exact width

theorem normalize_computes (wf : x.WellFormed) {settings : Normalization}
    (window : settings.size ≠ 0) (offset : ¬ settings.k ≤ 0) :
    Computes (x.normalize settings) [x.shape] := by
  unfold normalize
  rw [if_neg (not_or.mpr ⟨window, offset⟩)]
  refine .of_make wf.valid ?_
  rw [← wf.count]
  exact size_mapRows wf rfl fun r row width => by simpa using width

theorem dropout_computes (wf : x.WellFormed) {keep : Float32} (probability : 0 < keep ∧ keep ≤ 1)
    (samples : Nat → Float32) : Computes (x.dropout keep samples) [x.shape] := by
  unfold dropout
  rw [if_pos probability]
  refine .of_make wf.valid ?_
  rw [Buffer.size_combine, dropoutMask, Buffer.size_tabulate, ← wf.count]
  exact Nat.min_self _

theorem add_computes (wfA : a.WellFormed) (wfB : b.WellFormed) (same : a.shape = b.shape) :
    Computes (a.add b) [a.shape] := by
  unfold add checkSameShape
  rw [if_pos same]
  refine .of_make wfA.valid ?_
  have sizeA : a.values.size = a.shape.prod := wfA.count
  have sizeB : b.values.size = a.shape.prod := same ▸ wfB.count
  rw [Buffer.size_combine, sizeA, sizeB, Nat.min_self]

theorem addBias_computes (wf : x.WellFormed) {width : Nat} (bias : b.shape = [width])
    (last : x.shape.getLast? = some width) : Computes (x.addBias b) [x.shape] := by
  unfold addBias
  rw [if_neg (by rw [bias, last]; simp [Shape.rank])]
  refine .of_make wf.valid ?_
  rw [Buffer.size_tabulate]
  exact wf.count

theorem matmul_computes {m k n : Nat} (left : a.shape = [m, k]) (right : b.shape = [k, n])
    (rows : 0 < m) (columns : 0 < n) : Computes (a.matmul b) [[m, n]] := by
  unfold matmul
  rw [left, right]
  dsimp only
  rw [if_neg (not_not.mpr rfl)]
  refine .of_make ((Shape.isValid_cons m [n]).mpr ⟨rows, by simp; omega⟩) ?_
  rw [Matrix.product, Buffer.size_tabulate, List.prod_cons, List.prod_singleton]

theorem conv2d_computes {kernel bias : Content} {windowing : Windowing}
    {batch height width channels kernelHeight kernelWidth filters rows columns : Nat}
    (image : x.shape = [batch, height, width, channels])
    (weights : kernel.shape = [kernelHeight, kernelWidth, channels, filters])
    (biases : bias.shape = [filters])
    (windows : windowing.extents height width kernelHeight kernelWidth
      = (.ok (some (rows, columns)) : Checked _))
    (valid : Shape.IsValid [batch, rows, columns, filters]) :
    Computes (x.conv2d kernel bias windowing) [[batch, rows, columns, filters]] := by
  unfold conv2d
  rw [image, weights]
  dsimp only
  rw [if_neg (not_not.mpr rfl), if_neg (not_not.mpr biases), windows]
  refine (Size.product_ensures _).bind fun count elements => ?_
  split
  · exact .of_overflow
  · refine Computes.of_make valid ?_
    rw [Convolution.forward, size_addTaps, Buffer.size_tabulate]
    simp only [List.prod_cons, List.prod_nil, Nat.mul_one, Nat.mul_assoc]

/-- Groups along an axis that they divide. -/
theorem grouping_ensures {axis length members : Nat} (found : x.shape[axis]? = some length)
    (positive : members ≠ 0) (divides : length % members = 0) (operation : String) :
    (x.grouping axis members operation).Ensures
      fun g => g.2 = x.shape.set axis (length / members) := by
  obtain ⟨inside, -⟩ := List.getElem?_eq_some_iff.mp found
  unfold grouping
  rw [Shape.axis_eq_ok (show axis < x.shape.rank from inside)]
  refine (Shape.blocks_ensures found).bind fun blocks same => ?_
  rw [if_neg (by rw [same]; exact not_or.mpr ⟨positive, not_not.mpr divides⟩)]
  exact .of_ok (by rw [same])

theorem quotient_pos {length members : Nat} (positive : 0 < length)
    (divides : length % members = 0) : 0 < length / members := by
  obtain ⟨groups, rfl⟩ := Nat.dvd_of_mod_eq_zero divides
  have members_pos : 0 < members := Nat.pos_of_mul_pos_right positive
  rw [Nat.mul_div_cancel_left groups members_pos]
  exact Nat.pos_of_mul_pos_left positive

section Reduce

variable (wf : x.WellFormed) {axis length members : Nat} (found : x.shape[axis]? = some length)
  (positive : members ≠ 0) (divides : length % members = 0)
include wf found positive divides

theorem maxReduce_computes :
    Computes (x.maxReduce axis members) [x.shape.set axis (length / members)] := by
  have grouped := grouping_ensures found positive divides "max_reduce"
  have valid := wf.valid.set axis
    (quotient_pos (Shape.pos_of_getElem? wf.valid.2 found) divides)
  refine (grouped.mono fun g success shaped => And.intro success shaped).bind ?_
  rintro ⟨g, shape⟩ ⟨success, rfl⟩
  obtain ⟨-, -, -, count⟩ := Grouping.of_grouping_eq_ok wf success
  refine Computes.of_make valid ?_
  rw [List.size_toArray, List.length_map, List.length_map, List.length_range, count]

theorem meanReduce_computes :
    Computes (x.meanReduce axis members) [x.shape.set axis (length / members)] := by
  have grouped := grouping_ensures found positive divides "mean_reduce"
  have valid := wf.valid.set axis
    (quotient_pos (Shape.pos_of_getElem? wf.valid.2 found) divides)
  refine (grouped.mono fun g success shaped => And.intro success shaped).bind ?_
  rintro ⟨g, shape⟩ ⟨success, rfl⟩
  obtain ⟨-, -, -, count⟩ := Grouping.of_grouping_eq_ok wf success
  refine Computes.of_make valid ?_
  rw [Buffer.size_tabulate, count]

end Reduce

end Content

/-! ## Results that elements are only moved to -/

theorem Routing.compute_computes (r : Routing) (inputs : List Content) {shapes : List Shape}
    (valid : ∀ shape ∈ shapes, shape.IsValid) : Computes (r.compute inputs shapes) shapes := by
  have made : (r.results inputs shapes).Ensures
      (List.Forall₂ (fun s c => c.shape = s.1) shapes.zipIdx) := by
    refine .mapM _ ?_
    rintro ⟨shape, p⟩ member
    refine (Size.product_ensures shape).bind fun count elements => ?_
    refine Content.make_ensures (valid shape ?_) ?_
    · exact List.fst_mem_of_mem_zipIdx member
    · rw [gather, Buffer.size_tabulate, elements]
  refine made.bind fun outputs shaped => .of_ok ?_
  have same : List.Forall₂ (fun s c => c = s) (shapes.zipIdx.map Prod.fst)
      (outputs.map Content.shape) := by
    rw [List.forall₂_map_left_iff, List.forall₂_map_right_iff]
    exact shaped
  rw [List.zipIdx_map_fst] at same
  exact (List.forall₂_eq_eq_eq ▸ same.flip).symm ▸ rfl

namespace Content

variable {x : Content}

theorem copy_computes (wf : x.WellFormed) : Computes x.copy [x.shape] :=
  Routing.compute_computes _ _ fun _ member => List.mem_singleton.mp member ▸ wf.valid

theorem reshaped_computes {shape : Shape} (valid : shape.IsValid) (count : shape.prod = x.count) :
    Computes (x.reshaped shape) [shape] := by
  unfold reshaped
  rw [(Shape.validate_eq_ok_iff shape).mpr valid]
  refine (Size.product_ensures shape).bind fun n elements => ?_
  rw [if_neg (by rw [elements, count]; exact fun different => different rfl)]
  have moved := Routing.compute_computes .identity [x]
    (fun _ member => List.mem_singleton.mp member ▸ valid : ∀ s ∈ [shape], s.IsValid)
  exact moved.bind fun _ shaped => .of_ok shaped

theorem agreeExcept_append (batch : Nat) (init : Shape) (w w' : Nat) :
    agreeExcept (init.length + 1) (batch :: (init ++ [w])) (batch :: (init ++ [w'])) = true := by
  simp only [agreeExcept, Shape.rank, List.length_cons, List.length_append, List.length_nil,
    beq_self_eq_true, Bool.true_and, List.all_eq_true, List.mem_range, Bool.or_eq_true, beq_iff_eq]
  intro i inside
  by_cases last : i = init.length + 1
  · exact .inl last
  · refine .inr ?_
    cases i with
    | zero => rfl
    | succ i =>
      rw [List.getElem?_cons_succ, List.getElem?_cons_succ,
        List.getElem?_append_left (show i < init.length by omega),
        List.getElem?_append_left (show i < init.length by omega)]

/-- Tensors side by side along an axis: all that has to agree is the rest of their shapes. -/
theorem concat_computes {first : Content} {rest : List Content} {axis length : Nat}
    (valid : first.shape.IsValid) (found : first.shape[axis]? = some length)
    (agree : ∀ x ∈ first :: rest, agreeExcept axis x.shape first.shape = true) :
    Computes (concat (first :: rest) axis) [first.shape.set axis
      (Size.total ((first :: rest).map fun x => x.shape.extent axis))] := by
  obtain ⟨inside, -⟩ := List.getElem?_eq_some_iff.mp found
  unfold concat
  dsimp only
  rw [Shape.axis_eq_ok (show axis < first.shape.rank from inside)]
  refine (Outcome.Ensures.of_ok (Q := fun a => a = axis) rfl).bind ?_
  rintro _ rfl
  rw [List.find?_eq_none.mpr fun x member => by simp [agree x member]]
  refine (Shape.blocks_ensures found).bind fun blocks _ => ?_
  refine (Size.sum_ensures _).bind fun total sum => ?_
  subst sum
  refine Routing.compute_computes _ _ fun shape member => ?_
  rw [List.mem_singleton.mp member]
  refine valid.set _ ?_
  rw [List.map_cons, Size.total, Shape.extent_of_getElem? found]
  exact Nat.lt_of_lt_of_le (Shape.pos_of_getElem? valid.2 found) (Nat.le_add_right _ _)

/-- Along the last axis, batches are as long as their samples are wide. -/
theorem extents_eq_widths {batch : Nat} {init : Shape} {contents : List Content}
    {shapes : List Shape} (split : ∀ other ∈ shapes, ∃ w, other = init ++ [w])
    (same : contents.map Content.shape = shapes.map (batch :: ·)) :
    contents.map (fun c => c.shape.extent (init.length + 1)) = shapes.map Shape.width := by
  calc contents.map (fun c => c.shape.extent (init.length + 1))
      = (contents.map Content.shape).map fun s => s.extent (init.length + 1) := by
        rw [List.map_map]
        rfl
    _ = shapes.map Shape.width := by
        rw [same, List.map_map]
        refine List.map_congr_left fun other member => ?_
        obtain ⟨w, rfl⟩ := split other member
        have last : (batch :: (init ++ [w]))[init.length + 1]? = .some w := by simp
        rw [Shape.width, List.getLastD_concat]
        exact Shape.extent_of_getElem? last

/-- Batches of shapes that differ in their widths only, which add up. -/
theorem concat_last_computes {batch : Nat} {contents : List Content} {shapes : List Shape}
    {shape : Shape} (some : shapes ≠ []) (ranked : shape ≠ [])
    (agree : ∀ other ∈ shapes, other.rank = shape.rank
      ∧ other.take (shape.rank - 1) = shape.take (shape.rank - 1))
    (widths : Size.total (shapes.map Shape.width) = shape.width)
    (valid : ∀ c ∈ contents, c.shape.IsValid)
    (same : contents.map Content.shape = shapes.map (batch :: ·)) :
    Computes (concat contents shape.rank) [batch :: shape] := by
  obtain ⟨init, width, rfl⟩ := (List.eq_nil_or_concat' shape).resolve_left ranked
  rw [Shape.width, List.getLastD_concat] at widths
  have rank : Shape.rank (init ++ [width]) = init.length + 1 := by simp [Shape.rank]
  rw [rank] at agree ⊢
  rw [Nat.add_sub_cancel, List.take_left] at agree
  have split : ∀ other ∈ shapes, ∃ w, other = init ++ [w] := fun other member =>
    Shape.exists_width (agree other member).1 (agree other member).2
  have shaped : ∀ c ∈ contents, ∃ w, c.shape = batch :: (init ++ [w]) := by
    intro c member
    have inside := List.mem_map_of_mem (f := Content.shape) member
    rw [same] at inside
    obtain ⟨other, member, behind⟩ := List.mem_map.mp inside
    obtain ⟨w, rfl⟩ := split other member
    exact ⟨w, behind.symm⟩
  have last (w : Nat) : (batch :: (init ++ [w]))[init.length + 1]? = .some w := by simp
  cases contents with
  | nil => exact absurd (List.map_eq_nil_iff.mp same.symm) some
  | cons first rest =>
    obtain ⟨w, front⟩ := shaped first List.mem_cons_self
    have joined := concat_computes (valid first List.mem_cons_self) (by rw [front, last w])
      fun c member => by
        obtain ⟨w', behind⟩ := shaped c member
        rw [behind, front]
        exact agreeExcept_append batch init w' w
    rw [extents_eq_widths split same, widths, front] at joined
    simpa using joined

/-- Equal tensors joined along a new axis behind the first one. -/
theorem stack_computes {first : Content} {rest : List Content} {batch : Nat} {shape : Shape}
    (valid : Shape.IsValid (batch :: shape))
    (same : ∀ x ∈ first :: rest, x.shape = batch :: shape) :
    Computes (stack (first :: rest) 1) [batch :: (rest.length + 1) :: shape] := by
  have shaped := same first List.mem_cons_self
  have second : Shape.axis 1 (Shape.rank (batch :: shape) + 1) "stack" = .ok 1 :=
    Shape.axis_eq_ok (by simp [Shape.rank]) "stack"
  unfold stack
  dsimp only
  rw [shaped, second]
  refine (Outcome.Ensures.of_ok (Q := fun a => a = 1) rfl).bind ?_
  rintro _ rfl
  rw [List.find?_eq_none.mpr fun x member => by simp [same x (List.mem_cons_of_mem first member)]]
  refine (Size.product_ensures _).bind fun inner _ => ?_
  refine Routing.compute_computes _ _ fun shape' member => ?_
  rw [List.mem_singleton.mp member]
  rw [Shape.isValid_cons] at valid
  show Shape.IsValid (batch :: (rest.length + 1) :: shape)
  rw [Shape.isValid_cons, List.mem_cons, not_or]
  exact ⟨valid.1, Nat.ne_of_lt (Nat.succ_pos _), valid.2⟩

/-- The members along the axis behind the first one. -/
theorem unstack_computes {batch members : Nat} {shape : Shape}
    (shaped : x.shape = batch :: members :: shape) (valid : Shape.IsValid (batch :: shape)) :
    Computes (x.unstack 1) (List.replicate members (batch :: shape)) := by
  have second : Shape.axis 1 (Shape.rank (batch :: members :: shape)) "unstack" = .ok 1 :=
    Shape.axis_eq_ok (by simp [Shape.rank]) "unstack"
  unfold unstack
  rw [shaped, second]
  refine (Outcome.Ensures.of_ok (Q := fun a => a = 1) rfl).bind ?_
  rintro _ rfl
  rw [if_neg (by simp [Shape.rank])]
  refine (Size.product_ensures _).bind fun inner _ => ?_
  exact Routing.compute_computes _ _ fun shape' member => (List.eq_of_mem_replicate member) ▸ valid

end Content

end LayerNet
