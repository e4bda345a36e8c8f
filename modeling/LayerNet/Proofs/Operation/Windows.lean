import LayerNet.Layer.Kind
import LayerNet.Operation.Call
import LayerNet.Proofs.Coordinates
import LayerNet.Proofs.Operation.Grouped

/-!
# Windows — groups along the rows, then along the columns

A pooling never sees a window: it reduces groups along one axis, and the results along the next. The
groups of groups are square windows (`Windows.window`): the members of one have the indices of the
result on the axes of samples and channels, and those of the window's places on the two others
(`Windows.window_index`). They partition the image, since the groups do on either axis
(`Windows.Laws`).

So the result is told by windows (`Windows.element_pooled`), and the largest of the largest is one
element of the window (`Windows.winner_mem`).
-/

namespace LayerNet

/-! ## One axis -/

/-- What a pooling makes of the values of a group. -/
def Pooling.reduce : Pooling → List Float32 → Float32
  | .max, values =>
    values.tail.foldl (fun best value => if best < value then value else best) (values.headD 0)
  | .average, values => Buffer.sum values / Float32.ofNat values.length

/-- The operation that reduces groups along an axis. -/
def Pooling.operation {α : Type} (pooling : Pooling) (x : α) (axis : Nat) (members : Nat) :
    Operation α :=
  match pooling with
  | .max => .maxReduce x axis members
  | .average => .meanReduce x axis members

namespace Grouping

/-- The groups, reduced. -/
def reduced (g : Grouping) (pooling : Pooling) (values : Buffer) : Buffer :=
  Buffer.tabulate g.count fun r => pooling.reduce ((g.positions r).map values.element)

/-- The gradients of the results, for the members of their groups. -/
def delta (g : Grouping) (pooling : Pooling) (values gradient : Buffer) : Delta :=
  match pooling with
  | .max => g.toLargest values gradient
  | .average => g.toMembers gradient

/-- What one element gets of the gradients of the results. -/
def shares (g : Grouping) (pooling : Pooling) (values gradient : Buffer) (position : Nat) :
    List Float32 :=
  match pooling with
  | .max =>
    if g.largest values (g.result position) = position then [gradient.element (g.result position)]
    else []
  | .average => [gradient.element (g.result position) * (1 / Float32.ofNat g.members)]

variable {g : Grouping}

/-- The largest element has the largest value. -/
theorem element_largest (some : 0 < g.members) (values : Buffer) (r : Nat) :
    values.element (g.largest values r)
      = Pooling.reduce .max ((g.positions r).map values.element) := by
  obtain ⟨n, members⟩ := Nat.exists_eq_succ_of_ne_zero (Nat.ne_of_gt some)
  have first : g.positions r = g.first r :: (g.positions r).tail := by
    rw [positions, members, List.range_succ_eq_map, List.map_cons, Nat.zero_mul, Nat.add_zero]
    rfl
  rw [largest, first, List.tail_cons, List.map_cons]
  show _ = ((g.positions r).tail.map values.element).foldl _ (values.element (g.first r))
  rw [List.foldl_map]
  refine (List.foldl_hom values.element fun best i => ?_).symm
  split <;> rfl

theorem mean_eq (values : Buffer) (r : Nat) :
    g.mean values r = Pooling.reduce .average ((g.positions r).map values.element) := by
  rw [mean, Pooling.reduce, List.length_map, length_positions]

theorem Partitions.reaching_delta {shape : Shape} {axis : Nat} (partitions : g.Partitions shape axis)
    (some : 0 < g.members) (pooling : Pooling) (values : Buffer) {gradient : Buffer}
    (size : gradient.size = g.count) {j : Nat} (inside : j < shape.prod) :
    (g.delta pooling values gradient).reaching j = g.shares pooling values gradient j := by
  cases pooling with
  | max => exact partitions.reaching_toLargest some values size inside
  | average => exact partitions.reaching_toMembers gradient inside

theorem Partitions.fits_delta {shape : Shape} {axis : Nat} (partitions : g.Partitions shape axis)
    (some : 0 < g.members) (pooling : Pooling) (values gradient : Buffer) {x : Content}
    (count : x.count = shape.prod) : (g.delta pooling values gradient).Fits x := by
  cases pooling with
  | max => exact partitions.fits_toLargest some values count
  | average => exact partitions.fits_toMembers count gradient

end Grouping

/-- A pooling along one axis makes the groups reduced, and leaves a rule that hands gradients to
their members. -/
theorem Content.operation_eq (pooling : Pooling) {x : Content} {axis members : Nat}
    {b : Shape.Blocks} (around : x.shape.blocks axis = .ok b) (some : 0 < members)
    (even : members ∣ b.length) : (pooling.operation x axis members).compute
      = (Computed.single · fun seen =>
        .ok [Grouping.delta ⟨b, members⟩ pooling x.values (seen.gradient 0)])
        <$> make (Grouping.reduced ⟨b, members⟩ pooling x.values)
          (x.shape.set axis (b.length / members)) := by
  cases pooling with
  | max =>
    have values (r : Nat) := Grouping.element_largest (g := ⟨b, members⟩) some x.values r
    unfold Grouping.reduced
    simp only [← values]
    exact maxReduce_eq around some even
  | average =>
    have values (r : Nat) := Grouping.mean_eq (g := ⟨b, members⟩) x.values r
    unfold Grouping.reduced
    simp only [← values]
    exact meanReduce_eq around some even

/-! ## Two axes -/

/-- Square windows on a batch of images, by the results. -/
structure Windows where
  batch : Nat
  rows : Nat
  columns : Nat
  channels : Nat
  size : Nat
  deriving Repr, DecidableEq

namespace Windows

variable (w : Windows)

/-- The shape of the images. -/
def shape : Shape := [w.batch, w.rows * w.size, w.columns * w.size, w.channels]

/-- The shape once the rows are reduced. -/
def between : Shape := [w.batch, w.rows, w.columns * w.size, w.channels]

/-- The shape of the results. -/
def resultShape : Shape := [w.batch, w.rows, w.columns, w.channels]

/-- The groups of rows. -/
def down : Grouping := ⟨⟨w.batch, w.rows * w.size, w.columns * w.size * w.channels⟩, w.size⟩

/-- The groups of columns. -/
def across : Grouping := ⟨⟨w.batch * w.rows, w.columns * w.size, w.channels⟩, w.size⟩

/-- The positions of the window of a result, column by column. -/
def window (result : Nat) : List Nat := (w.across.positions result).flatMap w.down.positions

/-- The rows, reduced. -/
def reduced (pooling : Pooling) (values : Buffer) : Buffer := w.down.reduced pooling values

/-- The windows, reduced. -/
def pooled (pooling : Pooling) (values : Buffer) : Buffer :=
  w.across.reduced pooling (w.reduced pooling values)

/-- The position of the first largest element of a window. -/
def winner (values : Buffer) (result : Nat) : Nat :=
  w.down.largest values (w.across.largest (w.reduced .max values) result)

variable {w}

section Geometry

variable (valid : w.shape.IsValid)
include valid

theorem size_pos : 0 < w.size :=
  Nat.pos_of_ne_zero fun none => valid.2 (by simp [shape, none])

theorem groups_down : w.down.groups = w.rows := Nat.mul_div_cancel _ (size_pos valid)

theorem groups_across : w.across.groups = w.columns := Nat.mul_div_cancel _ (size_pos valid)

theorem whole_down : w.down.blocks.length = w.down.groups * w.down.members := by
  rw [groups_down valid]
  rfl

theorem whole_across : w.across.blocks.length = w.across.groups * w.across.members := by
  rw [groups_across valid]
  rfl

theorem set_down : w.shape.set 1 (w.down.blocks.length / w.size) = w.between := by
  rw [show w.down.blocks.length / w.size = w.rows from groups_down valid]
  rfl

theorem set_across : w.between.set 2 (w.across.blocks.length / w.size) = w.resultShape := by
  rw [show w.across.blocks.length / w.size = w.columns from groups_across valid]
  rfl

theorem valid_between : w.between.IsValid := by
  refine ⟨List.cons_ne_nil _ _, fun member => valid.2 ?_⟩
  simp only [between, shape, List.mem_cons, List.not_mem_nil, or_false] at member ⊢
  rcases member with none | none | none | none
  · exact .inl none
  · exact .inr (.inl (by rw [← none, Nat.zero_mul]))
  · exact .inr (.inr (.inl none))
  · exact .inr (.inr (.inr none))

theorem count_down : w.down.count = w.between.prod := by
  rw [Grouping.count, groups_down valid]
  simp only [down, between, List.prod_cons, List.prod_nil]
  ring

theorem count_across : w.across.count = w.resultShape.prod := by
  rw [Grouping.count, groups_across valid]
  simp only [across, resultShape, List.prod_cons, List.prod_nil]
  ring

/-- The members of a group of rows. -/
theorem positions_down {b i column k : Nat} (inside : column < w.columns * w.size)
    (channels : k < w.channels) : w.down.positions (w.between.index [b, i, column, k])
      = (List.range w.size).map fun u => w.shape.index [b, i * w.size + u, column, k] := by
  have low : column * w.channels + k < w.columns * w.size * w.channels := mul_add_lt inside channels
  have parts : w.between.index [b, i, column, k]
      = (b * w.rows + i) * (w.columns * w.size * w.channels) + (column * w.channels + k) := by
    rw [between, Shape.index_four]
    ring
  rw [Grouping.positions_eq (whole_down valid), parts]
  refine List.map_congr_left fun u _ => ?_
  simp only [Stacking.place, down, mul_add_div low, mul_add_mod low, shape, Shape.index_four]
  ring

/-- The members of a group of columns. -/
theorem positions_across {b i j k : Nat} (channels : k < w.channels) :
    w.across.positions (w.resultShape.index [b, i, j, k])
      = (List.range w.size).map fun v => w.between.index [b, i, j * w.size + v, k] := by
  rw [Grouping.positions_eq (whole_across valid), resultShape, Shape.index_four]
  refine List.map_congr_left fun v _ => ?_
  simp only [Stacking.place, across, mul_add_div channels, mul_add_mod channels, between,
    Shape.index_four]
  ring

/-- The window of a result, by indices. -/
theorem window_index {b i j k : Nat} (columns : j < w.columns) (channels : k < w.channels) :
    w.window (w.resultShape.index [b, i, j, k]) = (List.range w.size).flatMap fun v =>
      (List.range w.size).map fun u =>
        w.shape.index [b, i * w.size + u, j * w.size + v, k] := by
  rw [window, positions_across valid channels, List.flatMap_map]
  refine List.flatMap_congr fun v member => ?_
  exact positions_down valid (mul_add_lt columns (List.mem_range.mp member)) channels

/-- The result, by indices: what the pooling makes of what it makes of the columns of the window. -/
theorem element_pooled (pooling : Pooling) (values : Buffer) {b i j k : Nat} (batch : b < w.batch)
    (rows : i < w.rows) (columns : j < w.columns) (channels : k < w.channels) :
    (w.pooled pooling values).element (w.resultShape.index [b, i, j, k])
      = pooling.reduce ((List.range w.size).map fun v => pooling.reduce
        ((List.range w.size).map fun u =>
          values.element (w.shape.index [b, i * w.size + u, j * w.size + v, k]))) := by
  have inside : w.resultShape.index [b, i, j, k] < w.across.count := by
    rw [count_across valid]
    exact Shape.index_lt (.cons batch (.cons rows (.cons columns (.cons channels .nil))))
  rw [pooled, Grouping.reduced, Buffer.element_tabulate _ inside, positions_across valid channels,
    List.map_map]
  refine congrArg pooling.reduce (List.map_congr_left fun v member => ?_)
  have column := mul_add_lt columns (List.mem_range.mp member)
  have inside : w.between.index [b, i, j * w.size + v, k] < w.down.count := by
    rw [count_down valid]
    exact Shape.index_lt (.cons batch (.cons rows (.cons column (.cons channels .nil))))
  show (w.reduced pooling values).element _ = _
  rw [reduced, Grouping.reduced, Buffer.element_tabulate _ inside, positions_down valid column channels,
    List.map_map]
  rfl

section Partitions

variable (small : w.shape.prod < Size.limit)
include small

theorem around_down : w.shape.blocks 1 = .ok w.down.blocks := by
  have inside : 1 < w.shape.rank := Nat.lt_of_sub_eq_succ rfl
  obtain ⟨⟨outer, length, inner⟩, around⟩ := Shape.blocks_of_lt valid.2 small inside
  obtain ⟨found, before, behind⟩ := Shape.blocks_spec around
  cases found
  simp only [shape, List.take, List.drop, List.prod_cons, List.prod_nil, Nat.mul_one] at before behind
  rw [around, before, behind]
  rfl

theorem partitions_down : w.down.Partitions w.shape 1 :=
  Grouping.partitions (whole_down valid) (size_pos valid) (around_down valid small) valid

theorem small_between : w.between.prod < Size.limit := by
  rw [← count_down valid]
  exact Nat.lt_of_le_of_lt
    (Grouping.count_le (whole_down valid) (size_pos valid) (around_down valid small)) small

theorem around_across : w.between.blocks 2 = .ok w.across.blocks := by
  have inside : 2 < w.between.rank := Nat.lt_of_sub_eq_succ rfl
  obtain ⟨⟨outer, length, inner⟩, around⟩ :=
    Shape.blocks_of_lt (valid_between valid).2 (small_between valid small) inside
  obtain ⟨found, before, behind⟩ := Shape.blocks_spec around
  cases found
  simp only [between, List.take, List.drop, List.prod_cons, List.prod_nil, Nat.mul_one]
    at before behind
  rw [around, before, behind]
  rfl

theorem partitions_across : w.across.Partitions w.between 2 :=
  Grouping.partitions (whole_across valid) (size_pos valid) (around_across valid small)
    (valid_between valid)

/-- The result whose window a position is in. -/
theorem mem_window {p r : Nat} (result : r < w.resultShape.prod) :
    p ∈ w.window r ↔ p < w.shape.prod ∧ w.across.result (w.down.result p) = r := by
  have down := partitions_down valid small
  have across := partitions_across valid small
  rw [← count_across valid] at result
  rw [window, List.mem_flatMap]
  constructor
  · rintro ⟨q, among, member⟩
    have within : q < w.down.count := count_down valid ▸ across.bounded r result q among
    rw [down.result_eq within member, across.result_eq result among]
    exact ⟨down.bounded q within p member, rfl⟩
  · rintro ⟨inside, rfl⟩
    obtain ⟨within, member⟩ := down.covers p inside
    obtain ⟨-, among⟩ := across.covers _ (count_down valid ▸ within)
    exact ⟨_, among, member⟩

/-- Every position is in the window of one result. -/
theorem covers {p : Nat} (inside : p < w.shape.prod) :
    w.across.result (w.down.result p) < w.resultShape.prod := by
  rw [← count_across valid]
  have within := ((partitions_down valid small).covers p inside).1
  exact ((partitions_across valid small).covers _ (count_down valid ▸ within)).1

theorem nodup_window {r : Nat} (result : r < w.resultShape.prod) : (w.window r).Nodup := by
  have down := partitions_down valid small
  have across := partitions_across valid small
  rw [← count_across valid] at result
  have within {q : Nat} (among : q ∈ w.across.positions r) : q < w.down.count :=
    count_down valid ▸ across.bounded r result q among
  rw [window, List.nodup_flatMap]
  constructor
  · exact fun q among => (down.members q (within among)).2
  · refine (across.members r result).2.imp_of_mem fun {q q'} among among' differ => ?_
    exact down.disjoint q (within among) q' (within among') differ

/-- The winner is in the window, and has the value of the result. -/
theorem winner_spec (values : Buffer) {r : Nat} (result : r < w.resultShape.prod) :
    w.winner values r ∈ w.window r
      ∧ (w.pooled .max values).element r = values.element (w.winner values r) := by
  have some := size_pos valid
  rw [← count_across valid] at result
  have among := Grouping.largest_mem (g := w.across) some (w.reduced .max values) r
  have within : w.across.largest (w.reduced .max values) r < w.down.count :=
    count_down valid ▸ (partitions_across valid small).bounded r result _ among
  refine ⟨List.mem_flatMap.mpr ⟨_, among, Grouping.largest_mem some values _⟩, ?_⟩
  rw [pooled, Grouping.reduced, Buffer.element_tabulate _ result, ← Grouping.element_largest some,
    winner, Grouping.element_largest some values]
  exact Buffer.element_tabulate _ within

section Gradients

variable (values : Buffer) {gradient gradient' : Buffer} {p r : Nat}
  (result : r < w.resultShape.prod) (member : p ∈ w.window r)
include result member

/-- Where the gradients in between are those that a maximum of columns hands on, the winner of a
window gets the gradient of the result, by way of zero. Any other element gets a zero, or nothing. -/
theorem shares_max (handed : ∀ q < w.between.prod, gradient'.element q
      = (w.across.shares .max (w.reduced .max values) gradient q).foldl (· + ·) 0) :
    (w.winner values r = p → w.down.shares .max values gradient' p = [0 + gradient.element r])
      ∧ (w.winner values r ≠ p → w.down.shares .max values gradient' p = []
        ∨ w.down.shares .max values gradient' p = [0]) := by
  have some := size_pos valid
  have down := partitions_down valid small
  obtain ⟨inside, same⟩ := (mem_window valid small result).mp member
  have within := (down.covers p inside).1
  have handed := handed _ (count_down valid ▸ within)
  simp only [Grouping.shares, same] at handed ⊢
  rw [← count_across valid] at result
  have among := Grouping.largest_mem (g := w.across) some (w.reduced .max values) r
  have own : w.down.result (w.winner values r) = w.across.largest (w.reduced .max values) r :=
    down.result_eq
      (count_down valid ▸ (partitions_across valid small).bounded r result _ among)
      (Grouping.largest_mem some values _)
  refine ⟨fun wins => ?_, fun loses => ?_⟩
  · have column : w.down.result p = w.across.largest (w.reduced .max values) r := wins ▸ own
    rw [if_pos column.symm] at handed
    rw [column] at handed ⊢
    refine (if_pos wins).trans ?_
    rw [handed]
    rfl
  · split
    next largest =>
      have other : w.across.largest (w.reduced .max values) r ≠ w.down.result p := by
        intro column
        rw [← column] at largest
        exact loses largest
      rw [if_neg other] at handed
      exact .inr (congrArg ([·]) handed)
    next => exact .inl rfl

/-- Where the gradients in between are those that a mean of columns hands on, every element of a
window gets its share of the share of the gradient, by way of zero. -/
theorem shares_average (handed : ∀ q < w.between.prod, gradient'.element q
      = (w.across.shares .average (w.reduced .average values) gradient q).foldl (· + ·) 0) :
    w.down.shares .average values gradient' p
      = [(0 + gradient.element r * (1 / Float32.ofNat w.size)) * (1 / Float32.ofNat w.size)] := by
  obtain ⟨inside, same⟩ := (mem_window valid small result).mp member
  have within := ((partitions_down valid small).covers p inside).1
  have handed := handed _ (count_down valid ▸ within)
  simp only [Grouping.shares, same] at handed ⊢
  rw [handed]
  rfl

end Gradients

end Partitions

end Geometry

variable (w)

/-- What windows are, and what a pooling makes of them. The window of a result has the elements of
its sample and channel in `size` rows and `size` columns, each once; every element is in one window.
The result is what the pooling makes of what it makes of the columns of the window, and of a maximum
it is the value of one element, the winner. -/
structure Laws (pooling : Pooling) (values : Buffer) : Prop where
  windows : ∀ b < w.batch, ∀ i < w.rows, ∀ j < w.columns, ∀ k < w.channels,
    w.window (w.resultShape.index [b, i, j, k]) = (List.range w.size).flatMap fun v =>
      (List.range w.size).map fun u => w.shape.index [b, i * w.size + u, j * w.size + v, k]
  nodup : ∀ r < w.resultShape.prod, (w.window r).Nodup
  unique : ∀ p < w.shape.prod, ∃! r, r < w.resultShape.prod ∧ p ∈ w.window r
  elements : ∀ b < w.batch, ∀ i < w.rows, ∀ j < w.columns, ∀ k < w.channels,
    (w.pooled pooling values).element (w.resultShape.index [b, i, j, k])
      = pooling.reduce ((List.range w.size).map fun v => pooling.reduce
        ((List.range w.size).map fun u =>
          values.element (w.shape.index [b, i * w.size + u, j * w.size + v, k])))
  winner : ∀ r < w.resultShape.prod, w.winner values r ∈ w.window r
    ∧ (w.pooled .max values).element r = values.element (w.winner values r)

variable {w}

theorem laws (valid : w.shape.IsValid) (small : w.shape.prod < Size.limit) (pooling : Pooling)
    (values : Buffer) : w.Laws pooling values where
  windows _ _ _ _ _ columns _ channels := window_index valid columns channels
  nodup _ result := nodup_window valid small result
  unique p inside := by
    refine ⟨_, ⟨covers valid small inside, ?_⟩, fun r given => ?_⟩
    · exact (mem_window valid small (covers valid small inside)).mpr ⟨inside, rfl⟩
    · exact ((mem_window valid small given.1).mp given.2).2.symm
  elements _ batch _ rows _ columns _ channels :=
    element_pooled valid pooling values batch rows columns channels
  winner _ result := winner_spec valid small values result

end Windows

end LayerNet
