import LayerNet.Proofs.Operation.Samples

/-!
# Axes of samples — operations along an axis behind the first

Around such an axis a batch has the blocks of its samples, one sample's after the other's
(`Shape.blocks_sample`). So a position of the result is, moved by whole samples of the result, made
of the same positions, moved by whole samples of the operand.
-/

namespace LayerNet

/-- Digits of a number that is moved by a multiple of the whole. -/
theorem add_div_of_moved {outer inner : Nat} (positive : 0 < inner) (i : Nat) :
    (outer * inner + i) / inner = outer + i / inner := by
  rw [Nat.mul_comm, Nat.mul_add_div positive]

theorem Shape.of_axis_eq_ok {axis bound a : Nat} {operation : String}
    (success : Shape.axis axis bound operation = .ok a) : a = axis ∧ axis < bound := by
  unfold Shape.axis at success
  split at success
  · cases success
  · split at success
    · cases success
    next inside =>
      cases success
      exact ⟨rfl, Nat.not_le.mp inside⟩

/-- Around an axis behind the first, a batch has the blocks of each of its samples. -/
theorem Shape.blocks_sample {n axis : Nat} {shape : Shape} {blocks : Blocks} (positive : 0 < n)
    (success : Shape.blocks (n :: shape) (axis + 1) = .ok blocks) :
    Shape.blocks (1 :: shape) (axis + 1) = .ok ⟨(shape.take axis).prod, blocks.length, blocks.inner⟩
      ∧ blocks.outer = n * (shape.take axis).prod := by
  unfold Shape.blocks at success ⊢
  obtain ⟨length, found, success⟩ := Outcome.bind_eq_ok_iff.mp success
  obtain ⟨outer, before, success⟩ := Outcome.bind_eq_ok_iff.mp success
  obtain ⟨inner, after, success⟩ := Outcome.bind_eq_ok_iff.mp success
  cases success
  rw [List.take_succ_cons] at before ⊢
  rw [List.getElem?_cons_succ] at found ⊢
  rw [List.drop_succ_cons] at after ⊢
  refine ⟨?_, (Size.product_eq_ok before).trans List.prod_cons⟩
  rw [found, Size.product_sample positive before, after]
  rfl

/-! ## Groups -/

namespace Grouping

/-- The groups with another number of outer blocks. -/
def outside (g : Grouping) (outer : Nat) : Grouping :=
  ⟨⟨outer, g.blocks.length, g.blocks.inner⟩, g.members⟩

variable {g : Grouping} {b outer : Nat}

/-- The first member of a group in another sample. -/
theorem first_moved {i : Nat} (small : i < outer * g.groups * g.blocks.inner) :
    g.first (b * (outer * g.groups * g.blocks.inner) + i)
      = b * (outer * g.blocks.length * g.blocks.inner) + g.first i := by
  have nonempty := Nat.zero_lt_of_lt small
  have inner : 0 < g.blocks.inner := Nat.pos_of_mul_pos_left nonempty
  have groups : 0 < g.groups := Nat.pos_of_mul_pos_left (Nat.pos_of_mul_pos_right nonempty)
  have block : (b * (outer * g.groups * g.blocks.inner) + i) / (g.blocks.inner * g.groups)
      = b * outer + i / (g.blocks.inner * g.groups) := by
    rw [← add_div_of_moved (Nat.mul_pos inner groups), Nat.mul_comm g.blocks.inner]
    simp only [Nat.mul_assoc]
  have place : (b * (outer * g.groups * g.blocks.inner) + i) / g.blocks.inner % g.groups
      = i / g.blocks.inner % g.groups := by
    rw [← Nat.mul_assoc b, add_div_of_moved inner, ← Nat.mul_assoc b, Nat.mul_add_mod']
  have offset : (b * (outer * g.groups * g.blocks.inner) + i) % g.blocks.inner
      = i % g.blocks.inner := by
    rw [← Nat.mul_assoc b, Nat.mul_add_mod']
  unfold first
  dsimp only
  rw [block, place, offset, Nat.add_mul, Nat.add_mul]
  simp only [Nat.mul_assoc, Nat.add_assoc]

theorem positions_moved {i : Nat} (small : i < outer * g.groups * g.blocks.inner) :
    g.positions (b * (outer * g.groups * g.blocks.inner) + i)
      = (g.positions i).map (b * (outer * g.blocks.length * g.blocks.inner) + ·) := by
  unfold positions
  rw [first_moved small, List.map_map]
  exact List.map_congr_left fun r _ => Nat.add_assoc _ _ _

section Values

variable {length : Nat} {whole part : Buffer} (block : Buffer.Block b length whole part)
  {result i : Nat} (moved : g.positions result = (g.positions i).map (b * length + ·))
  (within : ∀ p ∈ g.positions i, p < length)
include block moved within

theorem mean_moved : g.mean whole result = g.mean part i := by
  unfold mean
  rw [moved, List.map_map]
  refine congrArg (fun values => Buffer.sum values / _) (List.map_congr_left fun p member => ?_)
  exact (block.elements p (within p member)).symm

/-- The first largest element of a group, in another sample. -/
theorem largest_moved (first : g.first result = b * length + g.first i) (positive : 0 < g.members) :
    g.largest whole result = b * length + g.largest part i := by
  have best (rest : List Nat) (start : Nat) (inside : ∀ p ∈ start :: rest, p < length) :
      (rest.map (b * length + ·)).foldl
        (fun best p => if whole.element best < whole.element p then p else best)
        (b * length + start)
      = b * length + rest.foldl
        (fun best p => if part.element best < part.element p then p else best) start := by
    induction rest generalizing start with
    | nil => rfl
    | cons p rest ih =>
      rw [List.map_cons, List.foldl_cons, List.foldl_cons]
      rw [List.forall_mem_cons, List.forall_mem_cons] at inside
      obtain ⟨small, next, inside⟩ := inside
      rw [← block.elements start small, ← block.elements p next]
      split
      · exact ih p (List.forall_mem_cons.mpr ⟨next, inside⟩)
      · exact ih start (List.forall_mem_cons.mpr ⟨small, inside⟩)
  have start := positions_eq_cons positive i
  unfold largest
  rw [moved, ← List.map_tail, first]
  exact best _ _ (start ▸ within)

end Values

end Grouping

namespace Content

open Buffer

variable {b : Nat} {x y : Content}

/-- The groups of a batch are those of its samples. -/
theorem grouping_sample (sample : SampleOf b x y) {axis members : Nat} (behind : axis ≠ 0)
    {operation : String} {g : Grouping} {shape : Shape}
    (success : x.grouping axis members operation = .ok (g, shape)) : ∃ outer n shape',
      y.grouping axis members operation
        = .ok (g.outside outer, 1 :: shape')
      ∧ shape = n :: shape' ∧ shape' ≠ [] ∧ b < n := by
  obtain ⟨n, rest, shaped, shaped', ranked, inside, -⟩ := sample.exists_shape
  obtain ⟨axis, rfl⟩ := Nat.exists_eq_succ_of_ne_zero behind
  unfold grouping at success ⊢
  rw [shaped] at success
  rw [shaped']
  obtain ⟨a, there, success⟩ := Outcome.bind_eq_ok_iff.mp success
  obtain ⟨rfl, bound⟩ := Shape.of_axis_eq_ok there
  obtain ⟨blocks, around, success⟩ := Outcome.bind_eq_ok_iff.mp success
  obtain ⟨around', -⟩ := Shape.blocks_sample (Nat.zero_lt_of_lt inside) around
  split at success
  · cases success
  next equal =>
    cases success
    refine ⟨(rest.take axis).prod, n, rest.set axis (blocks.length / members), ?_, rfl, ?_, inside⟩
    · refine Outcome.bind_eq_ok_iff.mpr ⟨axis + 1, Shape.axis_eq_ok bound operation, ?_⟩
      refine Outcome.bind_eq_ok_iff.mpr ⟨_, around', ?_⟩
      dsimp only
      rw [if_neg equal]
      rfl
    · exact fun none => ranked (List.length_eq_zero_iff.mp (by rw [← List.length_set, none]; rfl))

/-- The mean and the first largest element of a group are those of a group of its sample. -/
theorem groups_moved (sample : SampleOf b x y) {axis members : Nat} (behind : axis ≠ 0)
    {operation : String} {g : Grouping} {shape : Shape}
    (success : x.grouping axis members operation = .ok (g, shape)) : ∃ g' n shape',
      y.grouping axis members operation = .ok (g', 1 :: shape')
      ∧ shape = n :: shape' ∧ shape' ≠ [] ∧ b < n ∧ g'.count = List.prod shape'
      ∧ ∀ i < List.prod shape', g.mean x.values (b * shape'.prod + i) = g'.mean y.values i
        ∧ x.values.element (g.largest x.values (b * shape'.prod + i))
          = y.values.element (g'.largest y.values i) := by
  obtain ⟨outer, n, shape, success', rfl, ranked, inside⟩ := grouping_sample sample behind success
  obtain ⟨whole, lengths, positive, count⟩ := Grouping.of_grouping_eq_ok sample.single success'
  rw [List.prod_cons, Nat.one_mul] at count
  have block : Block b (outer * g.blocks.length * g.blocks.inner) x.values y.values := by
    have block := sample.block
    rw [← block.size] at block
    exact whole ▸ block
  refine ⟨_, n, shape, success', rfl, ranked, inside, count.symm, fun i small => ?_⟩
  have within : ∀ p ∈ g.positions i, p < outer * g.blocks.length * g.blocks.inner := by
    intro p member
    exact whole ▸ Grouping.position_lt whole lengths (count ▸ small) member
  have size : shape.prod = outer * g.groups * g.blocks.inner := count
  rw [size] at small ⊢
  have moved := Grouping.positions_moved (b := b) small
  have largest := Grouping.largest_moved block moved within (Grouping.first_moved small) positive
  refine ⟨Grouping.mean_moved block moved within, ?_⟩
  rw [largest]
  exact (block.elements _ (within _ (Grouping.largest_mem positive _ _))).symm

theorem maxReduce_sampled (sample : SampleOf b x y) {axis : Nat} (behind : axis ≠ 0) (members : Nat) :
    Sampled b (x.maxReduce axis members) (y.maxReduce axis members) := by
  have gathered (values : Buffer) (g : Grouping) :
      (((List.range g.count).map (g.largest values)).map values.element).toArray
        = Buffer.tabulate g.count fun i => values.element (g.largest values i) := by
    simp [Buffer.tabulate, List.map_map, Function.comp_def, ← List.toArray_range]
  intro c success
  obtain ⟨⟨g, shape⟩, grouped, success⟩ := Outcome.bind_eq_ok_iff.mp success
  obtain ⟨g', n, shape, grouped', rfl, ranked, inside, count, moved⟩ :=
    groups_moved sample behind grouped
  unfold maxReduce
  rw [grouped']
  refine Sampled.of_make ranked inside (fun size => ?_) c success
  rw [gathered, size_tabulate] at size
  rw [gathered, gathered, count]
  exact .tabulate size inside fun i small => (moved i small).2.symm

theorem meanReduce_sampled (sample : SampleOf b x y) {axis : Nat} (behind : axis ≠ 0)
    (members : Nat) : Sampled b (x.meanReduce axis members) (y.meanReduce axis members) := by
  intro c success
  obtain ⟨⟨g, shape⟩, grouped, success⟩ := Outcome.bind_eq_ok_iff.mp success
  obtain ⟨g', n, shape, grouped', rfl, ranked, inside, count, moved⟩ :=
    groups_moved sample behind grouped
  unfold meanReduce
  rw [grouped']
  refine Sampled.of_make ranked inside (fun size => ?_) c success
  rw [Buffer.size_tabulate] at size
  rw [count]
  exact .tabulate size inside fun i small => (moved i small).1.symm

end Content

/-! ## Routings -/

namespace Routing

/-- The element at a place among buffers. -/
def fetch (buffers : List Buffer) (place : Nat × Nat) : Float32 :=
  (buffers.getD place.1 #[]).element place.2

theorem gather_eq_tabulate (buffers : List Buffer) (size : Nat) (place : Nat → Nat × Nat) :
    gather buffers size place = Buffer.tabulate size fun i => fetch buffers (place i) := by
  simp [gather, fetch, Array.getD_eq_getD_getElem?]

/-- Results are sampled where each element is fetched from the sample that it is in. -/
theorem compute_sampled {b n : Nat} (inside : b < n) {r r' : Routing} {xs ys : List Content}
    {shapes : List Shape} (ranked : ∀ shape ∈ shapes, shape ≠ [])
    (moved : ∀ (p : Nat) (shape : Shape), shapes[p]? = some shape → ∀ i < shape.prod,
      fetch (ys.map Content.values) (r'.source p i)
        = fetch (xs.map Content.values) (r.source p (b * shape.prod + i))) :
    Sampled b (r.compute xs (shapes.map (n :: ·))) (r'.compute ys (shapes.map (1 :: ·))) := by
  intro c success
  obtain ⟨outputs, rfl, made⟩ := compute_eq_ok_iff.mp success
  rw [List.zipIdx_map, List.forall₂_map_left_iff] at made
  have each : List.Forall₂ (fun (entry : Shape × Nat) output => ∃ sample,
      Content.make (gather (ys.map Content.values) (List.prod (1 :: entry.1)) (r'.source entry.2))
        (1 :: entry.1) = .ok sample ∧ Content.SampleOf b output sample) shapes.zipIdx outputs := by
    refine forall₂_imp_of_mem made ?_
    rintro ⟨shape, p⟩ member output made
    rw [List.mk_mem_zipIdx_iff_getElem?] at member
    refine Content.SampleOf.of_make (ranked shape (List.mem_of_getElem? member)) inside made ?_
    rw [gather_eq_tabulate, gather_eq_tabulate, List.prod_cons, Nat.one_mul]
    exact .tabulate List.prod_cons inside (moved p shape member)
  obtain ⟨samples, made', related⟩ := exists_between each
  refine ⟨⟨samples, r'.rule, false⟩, compute_eq_ok_iff.mpr ⟨samples, rfl, ?_⟩, related⟩
  rw [List.zipIdx_map, List.forall₂_map_left_iff]
  exact made'

end Routing

namespace Content

variable {b : Nat} {x y : Content} {xs ys : List Content}

/-- An element of a sample of one of several contents is fetched where it is in the whole. -/
theorem fetch_moved {p : Nat} (sample : SampleOf b x y) (there : xs[p]? = some x)
    (there' : ys[p]? = some y) {i : Nat} (small : i < y.count) :
    Routing.fetch (ys.map values) (p, i) = Routing.fetch (xs.map values) (p, b * y.count + i) := by
  have block := sample.block
  rw [← block.size] at block
  simp only [Routing.fetch, List.getD_eq_getElem?_getD, List.getElem?_map, there, there',
    Option.map_some, Option.getD_some]
  exact block.elements i small

/-- The number of elements of a sample by itself. -/
theorem SampleOf.count_eq (sample : SampleOf b x y) {shape : Shape} (shaped : y.shape = 1 :: shape) :
    y.count = shape.prod := by
  rw [sample.single.count, shaped, List.prod_cons, Nat.one_mul]

theorem unstack_eq {n m : Nat} {rest : Shape} (shaped : x.shape = n :: m :: rest) :
    x.unstack 1 = (do
      let inner ← Size.product rest
      (Stacking.parting ⟨inner, m⟩).compute [x] ((List.replicate m rest).map (n :: ·))) := by
  have axis : Shape.axis 1 (Shape.rank (n :: m :: rest)) "unstack" = .ok 1 :=
    @Shape.axis_eq_ok 1 _ (by simp [Shape.rank]) _
  have small : ¬ Shape.rank (n :: m :: rest) < 2 := by simp [Shape.rank]
  unfold unstack
  rw [shaped, axis, List.map_replicate]
  dsimp only [bind, Except.bind]
  rw [if_neg small]
  rfl

theorem unstack_sampled (sample : SampleOf b x y) (rank : 2 < x.shape.rank) :
    Sampled b (x.unstack 1) (y.unstack 1) := by
  obtain ⟨n, shape, shaped, shaped', -, inside, -⟩ := sample.exists_shape
  obtain ⟨m, rest, rfl, ranked⟩ : ∃ (m : Nat) (rest : Shape), shape = m :: rest ∧ rest ≠ [] := by
    rw [shaped] at rank
    match shape, rank with
    | m :: k :: rest, _ => exact ⟨m, k :: rest, rfl, List.cons_ne_nil k rest⟩
  have count : y.count = m * rest.prod := sample.count_eq shaped'
  rw [unstack_eq shaped, unstack_eq shaped']
  intro c success
  obtain ⟨inner, product, success⟩ := Outcome.bind_eq_ok_iff.mp success
  obtain rfl := Size.product_eq_ok product
  have moved (p : Nat) (shape : Shape) (found : (List.replicate m rest)[p]? = some shape) (i : Nat)
      (small : i < shape.prod) :
      Routing.fetch ([y].map values) ((Stacking.parting ⟨rest.prod, m⟩).source p i)
        = Routing.fetch ([x].map values)
          ((Stacking.parting ⟨rest.prod, m⟩).source p (b * shape.prod + i)) := by
    obtain ⟨member, rfl⟩ := List.getElem?_eq_some_iff.mp found
    rw [List.length_replicate] at member
    rw [List.getElem_replicate] at small ⊢
    have place (k : Nat) : (Stacking.parting ⟨rest.prod, m⟩).source p (k * rest.prod + i)
        = (0, k * y.count + (p * rest.prod + i)) := by
      have positive := Nat.zero_lt_of_lt small
      show (0, Stacking.place _ p _) = _
      rw [Stacking.place, add_div_of_moved positive, Nat.div_eq_of_lt small, Nat.add_zero,
        Nat.mul_add_mod', Nat.mod_eq_of_lt small, count, Nat.add_mul, Nat.mul_assoc, Nat.add_assoc]
    have own := place 0
    rw [Nat.zero_mul, Nat.zero_mul, Nat.zero_add, Nat.zero_add] at own
    rw [own, place b]
    exact fetch_moved sample rfl rfl (count ▸ mul_add_lt member small)
  have ranked (shape : Shape) (member : shape ∈ List.replicate m rest) : shape ≠ [] :=
    List.eq_of_mem_replicate member ▸ ranked
  obtain ⟨d, gave, related⟩ := Routing.compute_sampled inside ranked moved c success
  exact ⟨d, Outcome.bind_eq_ok_iff.mpr ⟨_, product, gave⟩, related⟩

theorem stack_eq {n : Nat} {shape : Shape} (shaped : ∀ z ∈ x :: xs, z.shape = n :: shape) :
    stack (x :: xs) 1 = (do
      let inner ← Size.product shape
      (Stacking.joining ⟨inner, (x :: xs).length⟩).compute (x :: xs)
        ([(x :: xs).length :: shape].map (n :: ·))) := by
  obtain ⟨first, others⟩ := List.forall_mem_cons.mp shaped
  have axis : Shape.axis 1 (Shape.rank (n :: shape) + 1) "stack" = .ok 1 :=
    @Shape.axis_eq_ok 1 _ (by simp [Shape.rank]) _
  have alike : xs.find? (fun z => z.shape ≠ n :: shape) = none := by
    rw [List.find?_eq_none]
    intro z member
    simp [others z member]
  unfold stack
  dsimp only
  rw [first, axis]
  dsimp only [bind, Except.bind]
  rw [alike]
  rfl

/-- Contents that were stacked have one shape. -/
theorem shapes_of_stack {c : Computed} (success : stack (x :: xs) 1 = .ok c) :
    ∀ z ∈ x :: xs, z.shape = x.shape := by
  unfold stack at success
  obtain ⟨axis, -, success⟩ := Outcome.bind_eq_ok_iff.mp success
  split at success
  · cases success
  next none =>
    rw [List.find?_eq_none] at none
    refine List.forall_mem_cons.mpr ⟨rfl, fun z member => ?_⟩
    simpa using none z member

theorem stack_sampled (samples : List.Forall₂ (SampleOf b) xs ys) :
    Sampled b (stack xs 1) (stack ys 1) := by
  intro c success
  cases samples with
  | nil => cases success
  | @cons x y xs ys first rest =>
    obtain ⟨n, shape, shaped, shaped', -, inside, -⟩ := first.exists_shape
    have alike := shaped ▸ shapes_of_stack success
    have samples : List.Forall₂ (SampleOf b) (x :: xs) (y :: ys) := .cons first rest
    have alike' : ∀ z ∈ y :: ys, z.shape = 1 :: shape :=
      forall_mem_of_forall₂ samples alike fun _ _ sample shaped => by
        rw [sample.shape, shaped]
        rfl
    rw [stack_eq alike] at success
    rw [stack_eq alike', ← samples.length_eq]
    obtain ⟨inner, product, success⟩ := Outcome.bind_eq_ok_iff.mp success
    obtain rfl := Size.product_eq_ok product
    generalize x :: xs = xs at *
    generalize y :: ys = ys at *
    have moved (p : Nat) (part : Shape) (found : [xs.length :: shape][p]? = some part) (i : Nat)
        (small : i < part.prod) :
        Routing.fetch (ys.map values) ((Stacking.joining ⟨shape.prod, xs.length⟩).source p i)
          = Routing.fetch (xs.map values)
            ((Stacking.joining ⟨shape.prod, xs.length⟩).source p (b * part.prod + i)) := by
      obtain ⟨rfl, rfl⟩ : p = 0 ∧ part = xs.length :: shape := by
        obtain ⟨first, rfl⟩ := List.getElem?_eq_some_iff.mp found
        obtain rfl := Nat.lt_one_iff.mp first
        exact ⟨rfl, rfl⟩
      rw [List.prod_cons] at small ⊢
      have nonempty := Nat.zero_lt_of_lt small
      have inner : 0 < shape.prod := Nat.pos_of_mul_pos_left nonempty
      have member : i / shape.prod < xs.length := Nat.div_lt_of_lt_mul (Nat.mul_comm _ _ ▸ small)
      have place (k : Nat) : (Stacking.joining ⟨shape.prod, xs.length⟩).source 0
          (k * (xs.length * shape.prod) + i)
          = (i / shape.prod, k * shape.prod + i % shape.prod) := by
        show Stacking.locate _ _ = _
        rw [Stacking.locate]
        dsimp only
        rw [Nat.mul_comm shape.prod, add_div_of_moved nonempty, Nat.div_eq_of_lt small,
          ← Nat.mul_assoc, add_div_of_moved inner, Nat.mul_add_mod', Nat.mul_add_mod',
          Nat.mod_eq_of_lt member, Nat.add_zero]
      have own := place 0
      rw [Nat.zero_mul, Nat.zero_mul, Nat.zero_add, Nat.zero_add] at own
      obtain ⟨y, there', sample⟩ := exists_rel_of_getElem? samples (List.getElem?_eq_getElem member)
      have count := sample.count_eq (alike' y (List.mem_of_getElem? there'))
      have within : i % shape.prod < y.count := by
        rw [count]
        exact Nat.mod_lt i inner
      rw [own, place b, fetch_moved sample (List.getElem?_eq_getElem member) there' within, count]
    have ranked (part : Shape) (member : part ∈ [xs.length :: shape]) : part ≠ [] := by
      rw [List.mem_singleton.mp member]
      exact List.cons_ne_nil _ _
    obtain ⟨d, gave, related⟩ := Routing.compute_sampled inside ranked moved c success
    exact ⟨d, Outcome.bind_eq_ok_iff.mpr ⟨_, product, gave⟩, related⟩

end Content

/-! ## Parts side by side -/

namespace Parts

/-- A position of an outer block lies in one of the parts. -/
theorem find_spec {inner : Nat} {lengths : List Nat} {position : Nat}
    (inside : position < Size.total lengths * inner) : ∃ length,
      lengths[(find inner lengths position).1]? = some length
        ∧ (find inner lengths position).2 < length * inner := by
  induction lengths generalizing position with
  | nil => simp [Size.total] at inside
  | cons length rest ih =>
    rw [Size.total, Nat.add_mul] at inside
    unfold find
    split
    next here => exact ⟨length, rfl, here⟩
    next later =>
      have left : position - length * inner < Size.total rest * inner := by omega
      obtain ⟨other, there, within⟩ := ih left
      exact ⟨other, by simpa using there, within⟩

variable {l : Parts} {outer i : Nat} (small : i < outer * l.row)
include small

/-- A position of the whole lies in one of the parts. -/
theorem locate_spec : ∃ length, l.lengths[(l.locate i).1]? = some length
    ∧ l.run (l.locate i).1 = length * l.inner
    ∧ (l.locate i).2 < outer * (length * l.inner) := by
  have positive : 0 < l.row := Nat.pos_of_mul_pos_left (Nat.zero_lt_of_lt small)
  obtain ⟨length, there, within⟩ : ∃ length,
      l.lengths[(find l.inner l.lengths (i % l.row)).1]? = some length
        ∧ (find l.inner l.lengths (i % l.row)).2 < length * l.inner :=
    find_spec (Nat.mod_lt i positive)
  have run : l.run (find l.inner l.lengths (i % l.row)).1 = length * l.inner := by
    rw [Parts.run, List.getD_eq_getElem?_getD, there]
    rfl
  refine ⟨length, there, run, ?_⟩
  unfold locate
  dsimp only
  rw [run]
  exact mul_add_lt (Nat.div_lt_of_lt_mul (Nat.mul_comm _ _ ▸ small)) within

/-- The same position in another sample of the whole lies in another sample of the part. -/
theorem locate_moved (k : Nat) : l.locate (k * (outer * l.row) + i)
    = ((l.locate i).1, k * (outer * l.run (l.locate i).1) + (l.locate i).2) := by
  have positive : 0 < l.row := Nat.pos_of_mul_pos_left (Nat.zero_lt_of_lt small)
  unfold locate
  dsimp only
  rw [← Nat.mul_assoc, Nat.mul_add_mod', add_div_of_moved positive, Nat.add_mul, Nat.mul_assoc,
    Nat.add_assoc]

end Parts

namespace Content

variable {b : Nat} {x y : Content} {xs ys : List Content}

/-- Shapes that agree but for an axis differ by the length of this axis. -/
theorem agreeExcept_iff {axis : Nat} {u v : Shape} (inside : axis < v.rank) :
    agreeExcept axis u v = true ↔ ∃ length, u = v.set axis length := by
  unfold agreeExcept
  simp only [Bool.and_eq_true, beq_iff_eq, List.all_eq_true, List.mem_range, Bool.or_eq_true]
  constructor
  · rintro ⟨ranks, same⟩
    refine ⟨u.extent axis, List.ext_getElem? fun i => ?_⟩
    rw [List.getElem?_set]
    split
    next here =>
      subst here
      have inside' : axis < u.length := Nat.lt_of_lt_of_eq inside ranks.symm
      rw [if_pos (show axis < List.length v from inside), Shape.extent,
        List.getD_eq_getElem?_getD, List.getElem?_eq_getElem inside']
      rfl
    next other =>
      rcases Nat.lt_or_ge i u.rank with there | beyond
      · exact (same i there).resolve_left (Ne.symm other)
      · rw [List.getElem?_eq_none beyond,
          List.getElem?_eq_none (Nat.le_trans (Nat.le_of_eq ranks.symm) beyond)]
  · rintro ⟨length, rfl⟩
    refine ⟨List.length_set, fun i _ => ?_⟩
    by_cases here : i = axis
    · exact .inl here
    · exact .inr (List.getElem?_set_ne (Ne.symm here))

theorem concat_eq {axis : Nat} (inside : axis < x.shape.rank)
    (alike : ∀ z ∈ xs, agreeExcept axis z.shape x.shape = true) {blocks : Shape.Blocks}
    (around : x.shape.blocks axis = .ok blocks) (head : xs.head? = some x) :
    concat xs axis = (do
      let total ← Size.sum (xs.map fun z => z.shape.extent axis)
      (Parts.joining ⟨blocks.outer, blocks.inner, xs.map fun z => z.shape.extent axis⟩).compute xs
        [x.shape.set axis total]) := by
  obtain ⟨rest, rfl⟩ := List.head?_eq_some_iff.mp head
  have none : (x :: rest).find? (fun z => !agreeExcept axis z.shape x.shape) = none := by
    rw [List.find?_eq_none]
    intro z member
    simp [alike z member]
  unfold concat
  dsimp only
  rw [Shape.axis_eq_ok inside]
  dsimp only [bind, Except.bind]
  rw [none, around]

/-- Contents that were joined agree but for the axis. -/
theorem of_concat_eq_ok {axis : Nat} {c : Computed} (success : concat (x :: xs) axis = .ok c) :
    axis < x.shape.rank ∧ (∀ z ∈ x :: xs, agreeExcept axis z.shape x.shape = true)
      ∧ ∃ blocks, x.shape.blocks axis = .ok blocks := by
  unfold concat at success
  dsimp only at success
  obtain ⟨a, there, joined⟩ := Outcome.bind_eq_ok_iff.mp success
  obtain ⟨rfl, inside⟩ := Shape.of_axis_eq_ok there
  split at joined
  · cases joined
  next none =>
    rw [List.find?_eq_none] at none
    obtain ⟨blocks, around, -⟩ := Outcome.bind_eq_ok_iff.mp joined
    exact ⟨inside, fun z member => by simpa using none z member, blocks, around⟩

/-- An element of samples side by side is, in the whole, at the same place of the same sample. -/
theorem locate_sampled (samples : List.Forall₂ (SampleOf b) xs ys) {axis : Nat} {shape : Shape}
    (inside : axis < shape.rank) {blocks : Shape.Blocks} (around : shape.blocks axis = .ok blocks)
    (alike : ∀ y ∈ ys, ∃ length, y.shape = shape.set axis length) {l : Parts}
    (inner : l.inner = blocks.inner) (lengths : l.lengths = ys.map fun y => y.shape.extent axis)
    {i : Nat} (small : i < blocks.outer * l.row) :
    Routing.fetch (ys.map values) (l.locate i)
      = Routing.fetch (xs.map values) (l.locate (b * (blocks.outer * l.row) + i)) := by
  obtain ⟨length, there, run, within⟩ := Parts.locate_spec small
  rw [Parts.locate_moved small, run, inner]
  rw [inner] at within
  generalize l.locate i = place at there within
  obtain ⟨p, j⟩ := place
  rw [lengths, List.getElem?_map, Option.map_eq_some_iff] at there
  obtain ⟨y, there, rfl⟩ := there
  have member : p < xs.length := by
    rw [samples.length_eq]
    exact (List.getElem?_eq_some_iff.mp there).1
  have sample := rel_of_getElem? samples (List.getElem?_eq_getElem member) there
  have count : y.count = blocks.outer * (y.shape.extent axis * blocks.inner) := by
    obtain ⟨length, shaped⟩ := alike y (List.mem_of_getElem? there)
    have extent : y.shape.extent axis = length := by
      rw [shaped]
      exact Shape.extent_of_getElem? (List.getElem?_set_self inside)
    rw [sample.single.count, extent, shaped, Shape.prod_set around, Nat.mul_assoc]
  rw [← count] at within ⊢
  exact fetch_moved sample (List.getElem?_eq_getElem member) there within

theorem concat_sampled (samples : List.Forall₂ (SampleOf b) xs ys) {axis : Nat}
    (behind : axis ≠ 0) : Sampled b (concat xs axis) (concat ys axis) := by
  intro c success
  cases samples with
  | nil => cases success
  | @cons x y xs ys first rest =>
    obtain ⟨axis, rfl⟩ := Nat.exists_eq_succ_of_ne_zero behind
    obtain ⟨n, shape, shaped, shaped', ranked, inside, -⟩ := first.exists_shape
    obtain ⟨bound, alike, blocks, around⟩ := of_concat_eq_ok success
    have samples : List.Forall₂ (SampleOf b) (x :: xs) (y :: ys) := .cons first rest
    rw [concat_eq bound alike around rfl] at success
    rw [shaped] at bound alike around
    obtain ⟨around', -⟩ := Shape.blocks_sample (Nat.zero_lt_of_lt inside) around
    have bound' : axis + 1 < Shape.rank (1 :: shape) := bound
    have alike (z : Content) (member : z ∈ x :: xs) :
        ∃ length, z.shape = (n :: shape).set (axis + 1) length :=
      (agreeExcept_iff bound).mp (alike z member)
    have alike' : ∀ z ∈ y :: ys, ∃ length, z.shape = (1 :: shape).set (axis + 1) length := by
      refine forall_mem_of_forall₂ samples alike fun z z' sample => ?_
      rintro ⟨length, shaped⟩
      refine ⟨length, ?_⟩
      rw [sample.shape, shaped]
      rfl
    have lengths : (x :: xs).map (fun z => z.shape.extent (axis + 1))
        = (y :: ys).map fun z => z.shape.extent (axis + 1) := by
      rw [← List.forall₂_eq_eq_eq, List.forall₂_map_left_iff, List.forall₂_map_right_iff]
      refine samples.imp fun z z' sample => ?_
      obtain ⟨m, rest, shaped, shaped', -⟩ := sample.exists_shape
      rw [shaped, shaped']
      rfl
    have joined := concat_eq (shaped' ▸ bound') (fun z member => by
      rw [shaped']
      exact (agreeExcept_iff bound').mpr (alike' z member)) (shaped' ▸ around') rfl
    rw [joined, ← lengths, shaped']
    generalize x :: xs = xs at *
    generalize y :: ys = ys at *
    obtain ⟨total, sum, success⟩ := Outcome.bind_eq_ok_iff.mp success
    obtain rfl := Size.sum_eq_ok sum
    let l : Parts := ⟨(shape.take axis).prod, blocks.inner, xs.map fun z => z.shape.extent (axis + 1)⟩
    have size : (shape.set axis (Size.total l.lengths)).prod = (shape.take axis).prod * l.row := by
      have size := Shape.prod_set around' (Size.total l.lengths)
      rwa [List.set_cons_succ, List.prod_cons, Nat.one_mul, Nat.mul_assoc] at size
    let whole : Parts := ⟨blocks.outer, l.inner, l.lengths⟩
    have joined : whole.joining.compute xs ([shape.set axis (Size.total l.lengths)].map (n :: ·))
        = .ok c := by
      rw [shaped] at success
      exact success
    have ranked (part : Shape) (member : part ∈ [shape.set axis (Size.total l.lengths)]) :
        part ≠ [] := by
      rw [List.mem_singleton.mp member]
      exact fun none => ranked (List.length_eq_zero_iff.mp (by rw [← List.length_set, none]; rfl))
    have moved (p : Nat) (part : Shape) (found : [shape.set axis (Size.total l.lengths)][p]? = some part)
        (i : Nat) (small : i < part.prod) :
        Routing.fetch (ys.map values) (l.joining.source p i)
          = Routing.fetch (xs.map values) (whole.joining.source p (b * part.prod + i)) := by
      obtain rfl := List.mem_singleton.mp (List.mem_of_getElem? found)
      rw [size] at small ⊢
      exact locate_sampled samples bound' around' alike' rfl lengths small
    obtain ⟨d, gave, related⟩ := Routing.compute_sampled inside ranked moved c joined
    exact ⟨d, Outcome.bind_eq_ok_iff.mpr ⟨_, sum, gave⟩, related⟩

end Content

end LayerNet
