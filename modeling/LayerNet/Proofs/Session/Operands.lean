import LayerNet.Proofs.Operation.Convolutions
import LayerNet.Proofs.Operation.Products
import LayerNet.Proofs.Session.Hinging
import LayerNet.Proofs.Session.Unary

/-!
# Operands — what several operands receive on the way back

A rule that combines values answers with one buffer for each operand. Its entry, whenever it is
replayed, adds each of them to the gradient of its operand, in argument order, and nothing to any
other tensor (`Session.Repays`). The values that count are those that the operands have by then.

Where a convolution runs through in a session, as many windows were laid as fit the padded images,
the result is the convolution of what the tensors hold, and its entry gives images, kernel and bias
back their gradients (`Session.conv2d_convolves`). All of them go through the same terms
(`Convolution.Laws`).

A product in a session is what the loop over rows, inner axis and columns makes of zeros, for the
operands as they are stored; on the way back the same loop runs twice more, each time with one
operand read as its transpose and with the extents exchanged to match (`Session.product_layouts`).
-/

namespace LayerNet

namespace Session

/-- Where the operation runs through, it has one result, of this shape. Its entry, whenever it is
replayed, adds to the gradients of the operands, in argument order, the buffers that are told for
the values that there are by then and for the gradient of the result, and nothing to any other
tensor. -/
def Repays (m : Machine) (op : Operation TensorId) (shape : Shape)
    (amounts : (TensorId → Buffer) → Buffer → List Buffer) : Prop :=
  ∀ ids m', (apply op).run m = (.ok ids, m') → ∃ y d entry, ids = [y]
    ∧ m'.store.content? y = some d ∧ d.shape = shape
    ∧ m'.session.trace = m.session.trace.push entry
    ∧ ∀ s : Store, s.WellFormed → s.StandsFor false m'.store (op.operands ++ [y]) →
      ∃ gradient s', s.gradients [y] = [gradient] ∧ gradient.size = shape.prod
        ∧ replay s entry = .ok s'
        ∧ s.Receives s' (receipts op.operands fun a =>
          [((amounts s.values gradient).getD a.1 #[]).element a.2])

/-- A rule that answers with one buffer for each operand repays them with these. -/
theorem repays_of {m : Machine} {op : Operation TensorId} {contents : List Content}
    (shows : m.store.Shows op.operands contents) {rule : Rule} {values : Buffer} {shape : Shape}
    (computes : (operandsOf m.store op).compute
      = (Computed.single · rule) <$> Content.make values shape)
    {amounts : (TensorId → Buffer) → Buffer → List Buffer}
    (answers : ∀ (s : Store) contents' d' gradient, s.Shows op.operands contents' →
      List.Forall₂ (fun c' c => Content.count c' = Content.count c) contents' contents →
      gradient.size = shape.prod →
      rule ⟨contents', [d'], [gradient]⟩ = .ok ((amounts s.values gradient).map .whole)
        ∧ List.Forall₂ (fun b c => Array.size b = Content.count c) (amounts s.values gradient)
          contents') :
    Repays m op shape amounts := by
  intro ids m' run
  rcases run_apply op m with ⟨failure, failed⟩ | ⟨computed, ids', store, -, success, adds, ran⟩
  · rw [failed] at run
    cases run
  rw [ran] at run
  cases run
  obtain ⟨d, made, rfl⟩ := except_map_eq_ok_iff.mp (computes.symm.trans success)
  obtain ⟨y, _, here, none, rfl⟩ := List.forall₂_cons_right_iff.mp adds.added
  obtain rfl := List.forall₂_nil_right_iff.mp none
  have fresh : ∀ i ∈ op.operands, ∀ o ∈ [y], i.index < o.index := by
    intro i operand o result
    obtain ⟨c, content⟩ := shows.exists_content i operand
    obtain ⟨t, tensor, -⟩ := Option.map_eq_some_iff.mp content
    exact Nat.lt_of_lt_of_le (Store.index_lt_of_get? tensor) (adds.new o result)
  have shaped := (Content.of_make_eq_ok made).1
  refine ⟨y, d, _, rfl, here, shaped, rfl, fun s wf stands => ?_⟩
  obtain ⟨contents', shows', stand⟩ := Store.StandsFor.exists_contents
    (fun id member => stands id (List.mem_append_left _ member)) (shows.keeps adds.keeps)
  obtain ⟨d', here', stand'⟩ :=
    stands y (List.mem_append_right _ (List.mem_singleton_self y)) d here
  have count : d'.count = shape.prod := by
    rw [stand'.count, (Content.wellFormed_of_make made).count, shaped]
  have back : rule.Answers contents' [d'] fun gradients a =>
      [((amounts s.values (gradients.getD 0 #[])).getD a.1 #[]).element a.2] := by
    intro gradients sizes
    obtain ⟨gradient, _, size, none, rfl⟩ := List.forall₂_cons_right_iff.mp sizes
    obtain rfl := List.forall₂_nil_right_iff.mp none
    obtain ⟨answer, fit⟩ := answers s contents' d' gradient shows'
      (stand.imp fun _ _ stands => stands.count) (size.trans count)
    refine ⟨_, answer, List.forall₂_map_left_iff.mpr fit, fun a _ delta there => ?_⟩
    obtain ⟨b, found, rfl⟩ := Option.map_eq_some_iff.mp (List.getElem?_map .. ▸ there)
    show [b.element a.2] = [((amounts s.values gradient).getD a.1 #[]).element a.2]
    rw [List.getD_eq_getElem?_getD, found, Option.getD_some]
  obtain ⟨s', replayed, -, receives⟩ := replay_gains (e := ⟨op.name, op.operands, [y], rule⟩)
    wf fresh shows' (.cons here' .nil) back
  obtain ⟨t', tensor', rfl⟩ := Option.map_eq_some_iff.mp here'
  have shown : s.gradients [y] = [t'.gradientOrZeros] := by simp [Store.gradients, tensor']
  have size := Tensor.size_gradientOrZeros (wf.gradients y t' tensor')
  rw [shown] at receives
  exact ⟨t'.gradientOrZeros, s', shown, size.trans count, replayed, receives⟩

end Session

/-! ## Convolutions -/

namespace Session

variable {m m' : Machine} {x kernel bias y : TensorId} {a w b : Buffer}
  {images weights filters : Shape} {windowing : Windowing}

/-- A convolution is what it is defined to be, forward and backward. Where it runs through, there
are as many windows along each axis as fit the padded images, and the result has the convolution of
images, kernel and bias. Its entry, replayed, adds to their gradients those of the convolution, for
the values that there are by then, and nothing to any other tensor. What holds of the convolution
and of the gradients, element by element, is told by its laws. -/
theorem conv2d_convolves (holdsImages : m.store.Has x a images)
    (holdsKernel : m.store.Has kernel w weights) (holdsBias : m.store.Has bias b filters)
    (run : (apply1 (.conv2d x kernel bias windowing)).run m = (.ok y, m')) :
    ∃ g : Convolution, g.windowing = windowing
      ∧ images = g.imageShape ∧ weights = g.kernelShape ∧ filters = [g.filters]
      ∧ (∀ row, row < g.rows
        ↔ row * windowing.stride.1 + g.kernelHeight ≤ g.height + 2 * windowing.padding.1)
      ∧ (∀ column, column < g.columns
        ↔ column * windowing.stride.2 + g.kernelWidth ≤ g.width + 2 * windowing.padding.2)
      ∧ g.Laws
      ∧ m'.store.Has y (g.forward a w b) g.resultShape
      ∧ Repays m (.conv2d x kernel bias windowing) g.resultShape fun values gradient =>
        [g.pixelGradient (values kernel) gradient, g.weightGradient (values x) gradient,
          g.biasGradient gradient] := by
  obtain ⟨c, there, regular, rfl, rfl⟩ := holdsImages
  obtain ⟨d, there', regular', rfl, rfl⟩ := holdsKernel
  obtain ⟨e, there'', regular'', rfl, rfl⟩ := holdsBias
  have shows : m.store.Shows (Operation.conv2d x kernel bias windowing).operands [c, d, e] :=
    .cons there (.cons there' (.cons there'' .nil))
  have call : operandsOf m.store (.conv2d x kernel bias windowing) = .conv2d c d e windowing := by
    rw [operandsOf, Operation.map, there, there', there'']
    rfl
  obtain ⟨computed, output, success, outputs, here⟩ := of_run_apply1 run
  rw [call] at success
  obtain ⟨g, rfl, shapeX, shapeK, shapeB, extents, computes⟩ := Content.conv2d_eq success
  obtain ⟨down, across⟩ := Windowing.extents_eq_ok extents
  refine ⟨g, rfl, shapeX, shapeK, shapeB, Windowing.lt_extent_iff down,
    Windowing.lt_extent_iff across, g.laws, ?_, ?_⟩
  · obtain ⟨output', made, rfl⟩ := except_map_eq_ok_iff.mp (computes.symm.trans success)
    cases outputs
    exact .of_made here made
  · refine repays_of shows ((congrArg Operation.compute call).trans computes) ?_
    intro s contents' d' gradient shows counts _
    rcases shows with _ | ⟨here, _ | ⟨here', _ | ⟨here'', _ | _⟩⟩⟩
    rcases counts with _ | ⟨countX, _ | ⟨countK, _ | ⟨countB, -⟩⟩⟩
    rename_i c' d' e'
    have pixels : c'.values.size = g.imageShape.prod :=
      countX.trans (regular.values.trans (congrArg List.prod shapeX))
    have weights : d'.values.size = g.kernelShape.prod :=
      countK.trans (regular'.values.trans (congrArg List.prod shapeK))
    have biases : e'.values.size = g.filters :=
      countB.trans (regular''.values.trans (by rw [shapeB, List.prod_singleton]))
    rw [Store.values_eq here, Store.values_eq here']
    refine ⟨?_, .cons ?_ (.cons ?_ (.cons ?_ .nil))⟩
    · rw [Convolution.pixelGradient, Convolution.weightGradient, ← pixels, ← weights]
      rfl
    · rw [Convolution.pixelGradient, Content.size_addTaps, Buffer.size_zeros]
      exact pixels.symm
    · rw [Convolution.weightGradient, Content.size_addTaps, Buffer.size_zeros]
      exact weights.symm
    · rw [Convolution.biasGradient, Buffer.size_tabulate]
      exact biases.symm

/-- A machine with an image of two rows and two columns, a kernel as large, and a bias. -/
def ofImage : Machine :=
  { Machine.fresh with
    store := (((Machine.fresh.store.add ⟨[1, 2, 2, 1], [4, 2, 1, 1], #[1, 2, 3, 4]⟩ none).2.add
      ⟨[2, 2, 1, 1], [2, 1, 1, 1], #[1, 2, 3, 4]⟩ none).2.add ⟨[1], [1], #[1]⟩ none).2 }

/-- The image with a rim of zeros, in which the kernel moves by one row and by two columns. -/
theorem conv2d_convolves_rim : ∃ (m' : Machine) (g : Convolution),
    (apply1 (.conv2d ⟨0⟩ ⟨1⟩ ⟨2⟩ ⟨(1, 2), (1, 1)⟩)).run ofImage = (.ok ⟨3⟩, m')
      ∧ g.rows = 3 ∧ g.columns = 2 ∧ g.Laws
      ∧ m'.store.Has ⟨3⟩ #[5, 7, 15, 15, 7, 5] [1, 3, 2, 1]
      ∧ Repays ofImage (.conv2d ⟨0⟩ ⟨1⟩ ⟨2⟩ ⟨(1, 2), (1, 1)⟩) [1, 3, 2, 1] fun values gradient =>
        [g.pixelGradient (values ⟨1⟩) gradient, g.weightGradient (values ⟨0⟩) gradient,
          g.biasGradient gradient] := by
  have runs : ((apply1 (.conv2d ⟨0⟩ ⟨1⟩ ⟨2⟩ ⟨(1, 2), (1, 1)⟩)).run ofImage).1.toOption.any
      (· = ⟨3⟩) = true := by decide +kernel
  obtain ⟨y, ran, same⟩ := except_exists_of_any runs
  obtain rfl := of_decide_eq_true same
  have image : ofImage.store.Has ⟨0⟩ #[1, 2, 3, 4] [1, 2, 2, 1] :=
    ⟨_, rfl, ⟨by decide, by decide, rfl, rfl, by decide⟩, rfl, rfl⟩
  have kernel : ofImage.store.Has ⟨1⟩ #[1, 2, 3, 4] [2, 2, 1, 1] :=
    ⟨_, rfl, ⟨by decide, by decide, rfl, rfl, by decide⟩, rfl, rfl⟩
  have bias : ofImage.store.Has ⟨2⟩ #[1] [1] :=
    ⟨_, rfl, ⟨by decide, by decide, rfl, rfl, by decide⟩, rfl, rfl⟩
  obtain ⟨g, windows, images, weights, filters, rows, columns, laws, has, repays⟩ :=
    conv2d_convolves image kernel bias (Prod.ext ran rfl)
  obtain ⟨batch, height, width, channels, kernelHeight, kernelWidth, count, down, across, _⟩ := g
  cases windows
  cases images
  cases weights
  have three : down = 3 := by
    have inside := rows 2
    have outside := rows 3
    simp only at inside outside
    omega
  have two : across = 2 := by
    have inside := columns 1
    have outside := columns 2
    simp only at inside outside
    omega
  subst three two
  have values : Convolution.forward ⟨1, 2, 2, 1, 2, 2, 1, 3, 2, ⟨(1, 2), (1, 1)⟩⟩ #[1, 2, 3, 4]
      #[1, 2, 3, 4] #[1] = #[5, 7, 15, 15, 7, 5] := by decide +kernel
  exact ⟨_, _, Prod.ext ran rfl, rfl, rfl, laws, values ▸ has, repays⟩

end Session

/-! ## Products -/

open LayerNet.Matrix

/-- What a product leaves behind for the way back. -/
def Matrix.rule (rows inner columns : Nat) : Rule := fun seen =>
  .ok [.whole (product (stored false rows columns (seen.gradient 0))
      (stored true columns inner (seen.input 1).values) rows columns inner),
    .whole (product (stored true inner rows (seen.input 0).values)
      (stored false rows columns (seen.gradient 0)) inner rows columns)]

theorem Content.matmul_eq {a b : Content} {rows inner columns : Nat}
    (shapeA : a.shape = [rows, inner]) (shapeB : b.shape = [inner, columns]) :
    a.matmul b = (Computed.single · (Matrix.rule rows inner columns))
      <$> make (product (entries a.values inner) (entries b.values columns) rows inner columns)
        [rows, columns] := by
  unfold matmul
  rw [shapeA, shapeB]
  dsimp only
  rw [if_neg (fun different : inner ≠ inner => different rfl)]
  rfl

namespace Session

variable {m : Machine} {x y : TensorId} {a b : Buffer} {rows inner columns : Nat}

section Operands

variable (left : m.store.Has x a [rows, inner]) (right : m.store.Has y b [inner, columns])
include left right

theorem valid_product : Shape.IsValid [rows, columns] := by
  have left := left.valid.2
  have right := right.valid.2
  refine ⟨List.cons_ne_nil _ _, ?_⟩
  simp only [List.mem_cons, List.not_mem_nil, or_false, not_or] at left right ⊢
  exact ⟨left.1, right.2⟩

/-- A product runs through where its elements can be counted and are finite. -/
theorem hinges_matmul (recording : m.session.finalized = false) :
    Hinges (rows * columns < Size.limit
        ∧ (product (entries a inner) (entries b columns) rows inner columns).nonFinite? = none)
      (apply1 (.matmul x y)) m fun m' z =>
        m'.store.Has z (product (entries a inner) (entries b columns) rows inner columns)
          [rows, columns] := by
  have valid := valid_product left right
  obtain ⟨c, there, -, shapeA, rfl⟩ := left
  obtain ⟨d, there', -, shapeB, rfl⟩ := right
  refine (hinges_two there there' .matmul (fun _ => rfl) recording rfl (fun _ => rfl)
    (Content.matmul_eq shapeA shapeB) valid ?_).congr ?_
  · rw [product, Buffer.size_tabulate, List.prod_cons, List.prod_singleton]
  · rw [List.prod_cons, List.prod_singleton]

/-- A product gives each operand back the product of the gradient with the other one's transpose. -/
theorem repays_matmul : Repays m (.matmul x y) [rows, columns] fun values gradient =>
    [product (stored false rows columns gradient) (stored true columns inner (values y)) rows columns
        inner,
      product (stored true inner rows (values x)) (stored false rows columns gradient) inner rows
        columns] := by
  obtain ⟨c, there, regular, shapeA, rfl⟩ := left
  obtain ⟨d, there', regular', shapeB, rfl⟩ := right
  have shows : m.store.Shows (Operation.matmul x y).operands [c, d] :=
    .cons there (.cons there' .nil)
  have computes : (operandsOf m.store (.matmul x y)).compute = c.matmul d :=
    congrArg Operation.compute (operandsOf_two there there' .matmul fun _ => rfl)
  refine repays_of shows (computes.trans (Content.matmul_eq shapeA shapeB)) ?_
  intro s contents' d' gradient shows counts _
  rcases shows with _ | ⟨here, _ | ⟨here', _ | _⟩⟩
  rcases counts with _ | ⟨countA, _ | ⟨countB, -⟩⟩
  rw [Store.values_eq here, Store.values_eq here']
  refine ⟨rfl, .cons ?_ (.cons ?_ .nil)⟩
  · rw [product, Buffer.size_tabulate, countA, Content.count, regular.values, shapeA, List.prod_cons,
      List.prod_singleton]
  · rw [product, Buffer.size_tabulate, countB, Content.count, regular'.values, shapeB, List.prod_cons,
      List.prod_singleton]

end Operands

/-- A matrix product reads its operands in the layout in which they are stored. On operands of
matching size, each stored as it is or with rows and columns exchanged, the loop makes no access
outside of a buffer, and makes the same additions, one after the other, as on copies with rows and
columns exchanged back; to an element it adds the products along the inner axis, in order and but
for those whose left factor is zero. A product in a session is what the loop makes of zeros. It runs
through where its elements can be counted and are finite. Replayed, it adds to the gradient of the
left operand the product of the result's gradient with the right operand transposed, to that of the
right one the product of the left operand transposed with the result's gradient, and nothing to any
other tensor. -/
theorem product_layouts (recording : m.session.finalized = false)
    (left : m.store.Has x a [rows, inner]) (right : m.store.Has y b [inner, columns]) :
    (∀ (exchanged exchanged' : Bool) (rows inner columns : Nat) (a b out : Buffer),
      a.size = rows * inner → b.size = inner * columns → out.size = rows * columns →
      ∃ additions, accumulate exchanged exchanged' rows inner columns a b out
          = .ok (out.addAll additions)
        ∧ accumulate false false rows inner columns (copied exchanged rows inner a)
          (copied exchanged' inner columns b) out = .ok (out.addAll additions)
        ∧ additions = Matrix.additions (stored exchanged rows inner a)
          (stored exchanged' inner columns b) rows inner columns
        ∧ additions = Matrix.additions (entries (copied exchanged rows inner a) inner)
          (entries (copied exchanged' inner columns b) columns) rows inner columns
        ∧ product (stored exchanged rows inner a) (stored exchanged' inner columns b) rows inner
          columns = (Buffer.zeros (rows * columns)).addAll additions
        ∧ ∀ i < rows, ∀ j < columns, (additions.filter (·.1 = i * columns + j)).map Prod.snd
          = ((List.range inner).filter fun p => !(stored exchanged rows inner a i p == 0)).map
            fun p => stored exchanged rows inner a i p * stored exchanged' inner columns b p j)
      ∧ (∃ out : Buffer, out.size = rows * columns
        ∧ (∀ i < rows, ∀ j < columns, out.element (i * columns + j)
          = Buffer.tally (((List.range inner).filter fun p => !(a.element (i * inner + p) == 0)).map
            fun p => a.element (i * inner + p) * b.element (p * columns + j)))
        ∧ Hinges (rows * columns < Size.limit ∧ out.nonFinite? = none) (apply1 (.matmul x y)) m
          fun m' z => m'.store.Has z out [rows, columns])
      ∧ Repays m (.matmul x y) [rows, columns] fun values gradient =>
        [product (stored false rows columns gradient) (stored true columns inner (values y)) rows
            columns inner,
          product (stored true inner rows (values x)) (stored false rows columns gradient) inner rows
            columns] := by
  refine ⟨?_, ⟨product (entries a inner) (entries b columns) rows inner columns,
    Buffer.size_tabulate _ _, fun i row j column => (element_product row column).trans (dot_eq i j),
    hinges_matmul left right recording⟩, repays_matmul left right⟩
  intro exchanged exchanged' rows inner columns a b out sizeA sizeB sizeOut
  refine ⟨_, accumulate_eq exchanged exchanged' sizeA sizeB sizeOut, ?_, rfl,
    additions_copied exchanged exchanged' a b, product_eq _ _ _ _ _,
    fun i row j column => filter_additions row column⟩
  rw [additions_copied]
  exact accumulate_eq false false (size_copied sizeA) (size_copied sizeB) sizeOut

/-- A machine with a row of two elements and a matrix of two rows and three columns. -/
def ofFactors : Machine :=
  { Machine.fresh with
    store := ((Machine.fresh.store.add ⟨[1, 2], [2, 1], #[0, 2]⟩ none).2.add
      ⟨[2, 3], [3, 1], #[1, 2, 3, 4, 5, 6]⟩ none).2 }

/-- The row times the matrix; the first row of the matrix is passed over, since its factor is
zero. -/
theorem product_layouts_row :
    accumulate true true 1 2 3 #[0, 2] #[1, 4, 2, 5, 3, 6] #[0, 0, 0] = .ok #[8, 10, 12]
      ∧ (∃ z m', (apply1 (.matmul ⟨0⟩ ⟨1⟩)).run ofFactors = (.ok z, m')
        ∧ m'.store.Has z #[8, 10, 12] [1, 3])
      ∧ Repays ofFactors (.matmul ⟨0⟩ ⟨1⟩) [1, 3] fun values gradient =>
        [product (stored false 1 3 gradient) (stored true 3 2 (values ⟨1⟩)) 1 3 2,
          product (stored true 2 1 (values ⟨0⟩)) (stored false 1 3 gradient) 2 1 3] := by
  have left : ofFactors.store.Has ⟨0⟩ #[0, 2] [1, 2] :=
    ⟨_, rfl, ⟨by decide, by decide, rfl, rfl, by decide⟩, rfl, rfl⟩
  have right : ofFactors.store.Has ⟨1⟩ #[1, 2, 3, 4, 5, 6] [2, 3] :=
    ⟨_, rfl, ⟨by decide, by decide, rfl, rfl, by decide⟩, rfl, rfl⟩
  obtain ⟨kernel, ⟨out, size, elements, hinges⟩, repays⟩ := product_layouts rfl left right
  obtain ⟨_, loop, -, rfl, -⟩ :=
    kernel true true 1 2 3 #[0, 2] #[1, 4, 2, 5, 3, 6] #[0, 0, 0] rfl rfl rfl
  have row : out = #[8, 10, 12] := by
    refine Array.ext size fun j small small' => ?_
    rw [← Buffer.element_of_lt small, ← Buffer.element_of_lt small']
    rw [size] at small
    have element := elements 0 (by decide) j small
    rw [Nat.zero_mul, Nat.zero_add] at element
    rw [element]
    obtain rfl | rfl | rfl : j = 0 ∨ j = 1 ∨ j = 2 := by omega
    all_goals decide +kernel
  subst row
  have finite : Buffer.nonFinite? #[8, 10, 12] = none := by decide +kernel
  obtain ⟨z, m', run, -, has⟩ := hinges.passes ⟨by decide, finite⟩
  refine ⟨loop.trans ?_, ⟨z, m', run, has⟩, repays⟩
  exact congrArg Except.ok (by decide +kernel)

end Session

end LayerNet
