import LayerNet.Proofs.Operation.Samples

/-!
# Windows over samples — a convolution treats every image by itself

The taps of one image are those of the first, moved by whole images and whole results
(`Convolution.sampleTaps_eq`). What is added to one element of the results is told by the terms at its
position alone, in their order (`Buffer.element_addAll`), and these all belong to the image that the
element belongs to.
-/

namespace LayerNet

/-- Of lists one after the other of which only one has members, this one is left. -/
theorem flatMap_range_of_single {α : Type} {f : Nat → List α} {n b : Nat} (inside : b < n)
    (others : ∀ s, s ≠ b → f s = []) : (List.range n).flatMap f = f b := by
  induction n with
  | zero => exact absurd inside (Nat.not_lt_zero b)
  | succ n ih =>
    rw [List.range_succ, List.flatMap_append, List.flatMap_singleton]
    rcases Nat.lt_succ_iff_lt_or_eq.mp inside with earlier | rfl
    · rw [ih earlier, others n (Nat.ne_of_gt earlier), List.append_nil]
    · have none : (List.range b).flatMap f = [] :=
        List.flatMap_eq_nil_iff.mpr fun s member => others s (Nat.ne_of_lt (List.mem_range.mp member))
      rw [none, List.nil_append]

namespace Convolution

/-- The taps of one image. -/
def sampleTaps (g : Convolution) (sample : Nat) : List Tap :=
  (List.range g.rows).flatMap fun row =>
    (List.range g.columns).flatMap fun column => g.windowTaps sample row column

/-- The elements of one image. -/
def pixels (g : Convolution) : Nat := g.height * g.width * g.channels

/-- The elements of the results of one image. -/
def results (g : Convolution) : Nat := g.rows * g.columns * g.filters

/-- A tap in another image. -/
def tapIn (g : Convolution) (sample : Nat) (t : Tap) : Tap :=
  ⟨sample * g.pixels + t.pixel, t.weight, sample * g.results + t.result⟩

variable {g : Convolution}

theorem inside_lt {window stride padding kernel extent : Nat} {entry : Nat × Nat}
    (member : entry ∈ inside window stride padding kernel extent) : entry.2 < extent := by
  obtain ⟨k, -, found⟩ := List.mem_filterMap.mp member
  dsimp only at found
  split at found
  · cases found
  next within =>
    cases found
    dsimp only
    omega

theorem windowTaps_eq (sample row column : Nat) :
    g.windowTaps sample row column = (g.windowTaps 0 row column).map (g.tapIn sample) := by
  unfold windowTaps
  dsimp only
  rw [List.map_flatMap]
  refine List.flatMap_congr fun down _ => ?_
  rw [List.map_map]
  refine List.map_congr_left fun across _ => ?_
  simp only [Function.comp_apply, tapIn, pixels, results, Nat.add_mul, Nat.mul_assoc, Nat.zero_mul,
    Nat.zero_add, Nat.add_assoc]

theorem sampleTaps_eq (sample : Nat) :
    g.sampleTaps sample = (g.sampleTaps 0).map (g.tapIn sample) := by
  unfold sampleTaps
  simp only [List.map_flatMap, ← windowTaps_eq]

/-- A tap of the first image reads and adds inside it. -/
theorem tap_within {t : Tap} (member : t ∈ g.sampleTaps 0) :
    (∀ c < g.channels, t.pixel + c < g.pixels) ∧ ∀ n < g.filters, t.result + n < g.results := by
  simp only [sampleTaps, List.mem_flatMap, List.mem_range, windowTaps, List.mem_map] at member
  obtain ⟨row, inRows, column, inColumns, down, below, across, beside, rfl⟩ := member
  have inHeight := inside_lt below
  have inWidth := inside_lt beside
  simp only [Nat.zero_mul, Nat.zero_add]
  exact ⟨fun c small => mul_add_lt (mul_add_lt inHeight inWidth) small,
    fun n small => mul_add_lt (mul_add_lt inRows inColumns) small⟩

/-- What the taps of one image add to the results. -/
def sampleTerms (g : Convolution) (x w : Buffer) (sample : Nat) : List (Nat × Float32) :=
  (g.sampleTaps sample).flatMap (g.forwardTerms x w)

/-- The terms of an image are those of the image by itself, moved to its results. -/
theorem sampleTerms_eq {b : Nat} {x y w : Buffer} (block : Buffer.Block b g.pixels x y) :
    g.sampleTerms x w b = (g.sampleTerms y w 0).map fun t => (b * g.results + t.1, t.2) := by
  unfold sampleTerms
  rw [sampleTaps_eq, List.flatMap_map, List.map_flatMap]
  refine List.flatMap_congr fun t member => ?_
  unfold forwardTerms
  rw [List.map_flatMap]
  refine List.flatMap_congr fun c channel => ?_
  rw [List.map_map]
  refine List.map_congr_left fun n filter => ?_
  have within := (tap_within member).1 c (List.mem_range.mp channel)
  simp only [Function.comp_apply, tapIn, Nat.add_assoc, block.elements _ within]

/-- Every term of an image belongs to its results. -/
theorem exists_of_mem_sampleTerms {x w : Buffer} {sample : Nat} {t : Nat × Float32}
    (member : t ∈ g.sampleTerms x w sample) : ∃ i < g.results, t.1 = sample * g.results + i := by
  unfold sampleTerms at member
  rw [sampleTaps_eq, List.flatMap_map] at member
  simp only [List.mem_flatMap, forwardTerms, List.mem_map, List.mem_range] at member
  obtain ⟨tap, among, c, -, n, filter, rfl⟩ := member
  refine ⟨tap.result + n, (tap_within among).2 n filter, ?_⟩
  simp only [tapIn, Nat.add_assoc]

/-- Of all terms, those at a position of an image's results are terms of the image. -/
theorem filter_terms {x w : Buffer} {b i : Nat} (inside : b < g.batch) (small : i < g.results) :
    (g.taps.flatMap (g.forwardTerms x w)).filter (·.1 = b * g.results + i)
      = (g.sampleTerms x w b).filter (·.1 = b * g.results + i) := by
  have images : g.taps.flatMap (g.forwardTerms x w) = (List.range g.batch).flatMap (g.sampleTerms x w) :=
    List.flatMap_assoc
  rw [images, List.filter_flatMap]
  refine flatMap_range_of_single inside fun s other => List.filter_eq_nil_iff.mpr fun t member => ?_
  obtain ⟨j, within, place⟩ := exists_of_mem_sampleTerms member
  have positive := Nat.zero_lt_of_lt small
  intro here
  rw [decide_eq_true_iff, place] at here
  have same := congrArg (· / g.results) here
  simp only [Nat.mul_comm _ g.results, Nat.mul_add_div positive, Nat.div_eq_of_lt small,
    Nat.div_eq_of_lt within, Nat.add_zero] at same
  exact other same

theorem addTaps_eq (terms : Tap → List (Nat × Float32)) (start : Buffer) :
    g.addTaps terms start = start.addAll (g.taps.flatMap terms) := by
  unfold addTaps Buffer.addAll
  rw [List.foldl_flatMap]

/-- An element of the results is the bias of its filter, and the terms of its image at its place. -/
theorem element_forward {x w bias : Buffer} {b i : Nat} (inside : b < g.batch)
    (small : i < g.results) : (g.forward x w bias).element (b * g.results + i)
      = (((g.sampleTerms x w b).filter (·.1 = b * g.results + i)).map Prod.snd).foldl (· + ·)
        (bias.element (i % g.filters)) := by
  have size : g.batch * g.rows * g.columns * g.filters = g.batch * g.results := by
    simp only [results, Nat.mul_assoc]
  have within : b * g.results + i < g.batch * g.rows * g.columns * g.filters := by
    rw [size]
    exact mul_add_lt inside small
  have filter : (b * g.results + i) % g.filters = i % g.filters := by
    rw [results, ← Nat.mul_assoc, Nat.mul_add_mod']
  unfold forward
  dsimp only
  rw [addTaps_eq, Buffer.element_addAll (by rwa [Buffer.size_tabulate]), filter_terms inside small,
    Buffer.element_tabulate _ within, filter]

/-- The results of an image are those of the image by itself. -/
theorem forward_block {b : Nat} {x y w bias : Buffer} (inside : b < g.batch)
    (block : Buffer.Block b g.pixels x y) : Buffer.Block b g.results (g.forward x w bias)
      ({ g with batch := 1 }.forward y w bias) := by
  have size (h : Convolution) (x : Buffer) : (h.forward x w bias).size = h.batch * h.results := by
    unfold forward
    dsimp only
    rw [Content.size_addTaps, Buffer.size_tabulate]
    simp only [results, Nat.mul_assoc]
  refine .of_size (size g x) inside ((size _ y).trans (Nat.one_mul _)) fun i small => ?_
  have own := @element_forward { g with batch := 1 } y w bias 0 i Nat.one_pos small
  rw [Nat.zero_mul, Nat.zero_add] at own
  have moved : (g.sampleTerms x w b).filter (·.1 = b * g.results + i)
      = ((g.sampleTerms y w 0).filter (·.1 = i)).map fun t => (b * g.results + t.1, t.2) := by
    rw [sampleTerms_eq block, List.filter_map]
    simp only [Function.comp_def, Nat.add_left_cancel_iff]
  rw [own, element_forward inside small, moved, List.map_map]
  rfl

end Convolution

/-- A convolution of a batch convolves its images. -/
theorem Content.conv2d_sampled {b : Nat} {x y : Content} (sample : SampleOf b x y)
    (kernel bias : Content) (windowing : Windowing) :
    Sampled b (x.conv2d kernel bias windowing) (y.conv2d kernel bias windowing) := by
  intro c success
  unfold conv2d at success
  split at success
  next batch height width channels kernelHeight kernelWidth channels' filters shaped kernels =>
    obtain ⟨n, shape, split, single, ranked, inside, block⟩ := sample.exists_shape
    rw [shaped] at split
    cases split
    unfold conv2d
    rw [single, kernels]
    dsimp only
    split at success
    · cases success
    next agree =>
      rw [if_neg agree]
      split at success
      · cases success
      next biases =>
        rw [if_neg biases]
        obtain ⟨extents, windows, success⟩ := Outcome.bind_eq_ok_iff.mp success
        rw [windows]
        split at success
        · cases success
        next rows columns =>
          let g : Convolution := ⟨batch, height, width, channels, kernelHeight, kernelWidth, filters,
            rows, columns, windowing⟩
          obtain ⟨count, elements, success⟩ := Outcome.bind_eq_ok_iff.mp success
          have elements' := Size.product_sample (Nat.zero_lt_of_lt inside) elements
          have images : [height, width, channels].prod = g.pixels := by
            simp only [List.prod_cons, List.prod_nil, Nat.mul_one, Convolution.pixels, g, Nat.mul_assoc]
          have results : [rows, columns, filters].prod = g.results := by
            simp only [List.prod_cons, List.prod_nil, Nat.mul_one, Convolution.results, g,
              Nat.mul_assoc]
          split at success
          · cases success
          next room =>
            have smaller : ¬ Size.signedMax < 4 * [rows, columns, filters].prod := by
              have count := Size.product_eq_ok elements
              rw [List.prod_cons] at count
              have fewer := Nat.le_mul_of_pos_left [rows, columns, filters].prod
                (Nat.zero_lt_of_lt inside)
              omega
            rw [images] at block
            dsimp only [bind, Except.bind]
            rw [Shape.elements, elements']
            dsimp only
            rw [if_neg smaller]
            exact Sampled.of_make (List.cons_ne_nil rows [columns, filters]) inside
              (fun _ => results ▸ Convolution.forward_block inside block) c success
  · cases success

end LayerNet
