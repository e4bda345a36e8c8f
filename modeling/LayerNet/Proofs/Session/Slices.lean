import LayerNet.Proofs.Operation.Slicing
import LayerNet.Proofs.Session.Handing
import LayerNet.Proofs.Session.Seeding
import LayerNet.Proofs.Session.Yielding

/-!
# Slices in a session — a split agrees with slicing

A split records one entry, and slicing the boxes of its parts records one for each of them. Both add
the same contents to the store, in the same order (`Store.addAll`), so what follows is done to the
same tensors.

Replayed, the entry of the split writes down the gradient of every element and adds it once; the
entries of the slices add at the places of one box after the other. Every element lies in one part
and no other (`Parts.parting` is exact), so it receives one amount either way
(`Session.replay_slices`), and the gradients are the same (`Session.slices_agree`).
-/

namespace LayerNet

/-! ## Contents stored one after the other -/

/-- Contents as new tensors, one after the other. -/
def Store.addAll (s : Store) : List Content → List TensorId × Store
  | [] => ([], s)
  | c :: contents =>
    let (id, s) := s.add c none
    let (ids, s) := s.addAll contents
    (id :: ids, s)

theorem Store.adds_addAll (contents : List Content) (s : Store) :
    Adds contents s (s.addAll contents).1 (s.addAll contents).2 := by
  induction contents generalizing s with
  | nil => exact .refl s
  | cons c contents ih => exact .cons rfl rfl (ih (s.add c none).2)

namespace Session

variable {m : Machine} {x : TensorId} {c : Content}

/-- The results of an operation that is no view are stored one after the other. -/
theorem run_keep_own {computed : Computed} (own : computed.isView = false)
    (buffer : Option BufferId) (m : Machine) : (keep computed buffer).run m
      = (.ok (m.store.addAll computed.outputs).1,
        { m with store := (m.store.addAll computed.outputs).2 }) := by
  have each : keep computed buffer = computed.outputs.mapM fun c => Step.add c none := by
    unfold keep
    refine congrArg (computed.outputs.mapM ·) (funext fun c => ?_)
    rw [own]
    cases buffer <;> rfl
  rw [each]
  clear each own
  induction computed.outputs generalizing m with
  | nil => rfl
  | cons c contents ih =>
    have first : (Step.add c none : Step TensorError TensorId).run m
      = (.ok (m.store.add c none).1, { m with store := (m.store.add c none).2 }) := rfl
    rw [List.mapM_cons, Step.run_bind_ok first, Step.run_bind_ok (ih _)]
    rfl

/-- The entries of slices of a tensor. -/
def sliceEntries (x : TensorId) (boxes : List (List Nat × Shape)) (ids : List TensorId) :
    List Entry :=
  List.zipWith (fun box id => ⟨"slice", [x], [id], Box.rule box.1⟩) boxes ids

/-- The results of these entries are the slices. -/
theorem exists_mem_sliceEntries (x : TensorId) {boxes : List (List Nat × Shape)}
    {ids : List TensorId} (same : boxes.length = ids.length) (id : TensorId) :
    (∃ e ∈ sliceEntries x boxes ids, id ∈ e.outputs) ↔ id ∈ ids := by
  unfold sliceEntries
  induction boxes generalizing ids with
  | nil =>
    obtain rfl := List.eq_nil_of_length_eq_zero same.symm
    simp
  | cons box boxes ih =>
    obtain ⟨first, ids, rfl⟩ := List.exists_cons_of_length_eq_add_one same.symm
    simp [ih (Nat.succ.inj same)]

/-- A tensor sliced into the parts of an axis, one box after the other. -/
def slices (x : TensorId) (shape : Shape) (axis : Nat) (lengths : List Nat) :
    Step TensorError (List TensorId) :=
  applyEach (fun box => .slice x box.1 box.2) (Box.parts shape axis lengths)

/-- Slices are stored one after the other, with an entry for each. -/
theorem run_slices (recording : m.session.finalized = false) (there : m.store.content? x = some c)
    {boxes : List (List Nat × Shape)} {outputs : List Content}
    (each : List.Forall₂ (fun box o => c.slice box.1 box.2 = .ok (.single o (Box.rule box.1)))
      boxes outputs) :
    (applyEach (fun box => .slice x box.1 box.2) boxes).run m
      = (.ok (m.store.addAll outputs).1, { m with
        store := (m.store.addAll outputs).2
        session := { m.session with
          trace := m.session.trace
            ++ (sliceEntries x boxes (m.store.addAll outputs).1).toArray } }) := by
  unfold applyEach
  induction each generalizing m with
  | nil =>
    show (Except.ok [], m) = (Except.ok [], _)
    simp [Store.addAll, sliceEntries]
  | @cons box o boxes outputs success _ ih =>
    have there' : ∀ id ∈ (Operation.slice x box.1 box.2).operands,
        ∃ c, m.store.content? id = some c :=
      fun id member => ⟨c, List.mem_singleton.mp member ▸ there⟩
    have computes : (operandsOf m.store (.slice x box.1 box.2)).compute
        = .ok (.single o (Box.rule box.1)) := by
      rw [operandsOf_one there rfl]
      exact success
    obtain ⟨m₁, next⟩ : ∃ m₁ : Machine, m₁ = { m with
        store := (m.store.add o none).2
        session := { m.session with
          trace := m.session.trace.push
            ⟨"slice", [x], [(m.store.add o none).1], Box.rule box.1⟩ } } := ⟨_, rfl⟩
    have first : (apply1 (.slice x box.1 box.2)).run m = (.ok (m.store.add o none).1, m₁) := by
      rw [next]
      exact Step.run_bind_ok (run_apply_of_kept recording there' computes (run_keep_own rfl _ m))
    have rest := ih (m := m₁) (next ▸ recording)
      (next ▸ (Store.adds_addAll [o] m.store).keeps x c there)
    rw [List.mapM_cons, Step.run_bind_ok first, Step.run_bind_ok rest, next]
    simp [Store.addAll, sliceEntries]
    rfl

/-! ## The way back -/

section Parted

variable {s : Store} {axis : Nat} {blocks : Shape.Blocks} {lengths : List Nat}
  {outputs : List Content} {ids : List TensorId}

/-- The entry of a slice hands the gradients of a part to the places where the part is laid. -/
theorem hands_slice (wf : c.WellFormed) (parted : c.Parted axis blocks lengths) {p length : Nat}
    (found : lengths[p]? = some length) {output : Content}
    (made : c.makePart axis blocks lengths length p = .ok output) {id : TensorId}
    (content : s.content? id = some output) (fresh : x.index < id.index) :
    Hands s x c
      ⟨"slice", [x], [id],
        Box.rule (Box.part c.shape axis (Size.total (lengths.take p)) length).1⟩
      fun j => ((List.range output.count).filter fun i =>
          Parts.place ⟨blocks.outer, blocks.inner, lengths⟩ p i = j).map
        (((s.get? id).map Tensor.gradientOrZeros).getD #[]).element where
  unary := rfl
  fresh := List.forall_mem_singleton.mpr fresh
  answers := by
    have returns := Content.slice_part_returns wf parted found made
    refine ⟨[output], _, .cons content .nil, returns.answers, fun j _ => ?_⟩
    have sizes : (s.gradients [id]).length = [output.count].length := rfl
    have back := returned_places sizes (fun _ i => (0, Parts.place
      ⟨blocks.outer, blocks.inner, lengths⟩ p i)) (0, j)
    refine back.trans ?_
    simp [Store.gradients]

/-- What an element gets back from each part, of the gradients of the parts. -/
def partAmounts (blocks : Shape.Blocks) (lengths counts : List Nat) (gradients : List Buffer) :
    List (Nat → List Float32) :=
  (counts.zip gradients).zipIdx.map fun e j => ((List.range e.1.1).filter fun i =>
    Parts.place ⟨blocks.outer, blocks.inner, lengths⟩ e.2 i = j).map e.1.2.element

/-- Every element lies in one part, so the order of the parts makes no difference. -/
theorem flatMap_partAmounts_reverse {counts : List Nat} {gradients : List Buffer}
    (exact : (Parts.parting ⟨blocks.outer, blocks.inner, lengths⟩).Exact [c.count] counts)
    (length : gradients.length = counts.length) {j : Nat} (small : j < c.count) :
    (partAmounts blocks lengths counts gradients).reverse.flatMap (· j)
      = returned (places counts) (Parts.parting ⟨blocks.outer, blocks.inner, lengths⟩).origin
        gradients (0, j) := by
  have one := exact.returned_eq gradients (a := (0, j)) (mem_places_singleton.mpr ⟨rfl, small⟩)
  have parts : returned (places counts)
      (Parts.parting ⟨blocks.outer, blocks.inner, lengths⟩).origin gradients (0, j) = _ :=
    returned_places length
      (fun p i => (0, Parts.place ⟨blocks.outer, blocks.inner, lengths⟩ p i)) (0, j)
  rw [one, ← List.perm_singleton, ← one, parts]
  refine List.Perm.trans (List.Perm.flatMap_right _ (List.reverse_perm _)) (List.Perm.of_eq ?_)
  simp [partAmounts, List.flatMap_map]

section Made

variable (parted : c.Parted axis blocks lengths)
  (made : List.Forall₂ (fun (entry : Nat × Nat) o =>
    c.makePart axis blocks lengths entry.1 entry.2 = .ok o) lengths.zipIdx outputs)
  (shows : s.Shows ids outputs) (fresh : ∀ id ∈ ids, x.index < id.index)
include parted made shows fresh

/-- The entries of the slices, in the order of the parts. -/
theorem hands_slices (wf : c.WellFormed) : List.Forall₂ (Hands s x c)
    (sliceEntries x (Box.parts c.shape axis lengths) ids)
    (partAmounts blocks lengths (outputs.map Content.count) (s.gradients ids)) := by
  have sizes : outputs.length = lengths.length := by
    rw [← made.length_eq, List.length_zipIdx]
  have sizes' : ids.length = lengths.length := shows.length_eq.trans sizes
  refine List.forall₂_iff_get.mpr ⟨?_, fun p inside _ => ?_⟩
  · simp [sliceEntries, partAmounts, Box.parts, Store.gradients, sizes, sizes']
  · have inside : p < lengths.length := by
      simpa [sliceEntries, Box.parts, sizes'] using inside
    have part := made.get (i := p) (by simpa using inside) (by omega)
    have content := shows.get (i := p) (by omega) (by omega)
    have newer := fresh _ (List.get_mem ids ⟨p, by omega⟩)
    simp only [List.get_eq_getElem, List.getElem_zipIdx, Nat.zero_add] at part content newer
    simpa [sliceEntries, partAmounts, Box.parts, Store.gradients] using
      hands_slice wf parted (List.getElem?_eq_getElem inside) part content newer

/-- Replayed, the entry of a split leaves the store that the entries of the slices leave, the last
of them replayed first. -/
theorem replay_slices (wf : s.WellFormed) (there : s.content? x = some c) :
    ∃ s', [(⟨"split", [x], ids,
        (Parts.parting ⟨blocks.outer, blocks.inner, lengths⟩).rule⟩ : Entry)].foldlM replay s
          = .ok s'
      ∧ (sliceEntries x (Box.parts c.shape axis lengths) ids).reverse.foldlM replay s
        = .ok s' := by
  have sizes : ids.length = lengths.length := by
    rw [shows.length_eq, ← made.length_eq, List.length_zipIdx]
  have exact : (Parts.parting ⟨blocks.outer, blocks.inner, lengths⟩).Exact
      ([c].map Content.count) (outputs.map Content.count) :=
    (Routing.compute_movedBy parted.exact
      (Content.compute_eq_ok_iff_made.mpr ⟨outputs, rfl, made⟩)).exact
  have whole : Hands s x c
      ⟨"split", [x], ids, (Parts.parting ⟨blocks.outer, blocks.inner, lengths⟩).rule⟩
      fun j => returned (places (outputs.map Content.count))
        (Parts.parting ⟨blocks.outer, blocks.inner, lengths⟩).origin (s.gradients ids) (0, j) :=
    ⟨rfl, fresh, outputs, _, shows, exact.returns.answers, fun _ _ => rfl⟩
  have pieces := hands_slices parted made shows fresh (wf.content there)
  have boxed : (Box.parts c.shape axis lengths).length = ids.length := by
    rw [Box.parts, List.length_map, List.length_zipIdx, sizes]
  refine foldlM_replay_same wf there (.cons whole .nil) (List.forall₂_reverse_iff.mpr pieces)
    ?_ (fun id => ?_) (fun j small => ?_)
  · have some : sliceEntries x (Box.parts c.shape axis lengths) ids ≠ [] := by
      rw [← List.length_pos_iff, sliceEntries, List.length_zipWith, boxed, Nat.min_self, sizes,
        List.length_pos_iff]
      exact parted.nonempty
    simp [some]
  · simp only [List.mem_reverse, exists_mem_sliceEntries x boxed, List.mem_singleton,
      exists_eq_left]
  · have length : (s.gradients ids).length = (outputs.map Content.count).length := by
      rw [Store.gradients, List.length_map, List.length_map, shows.length_eq]
    rw [List.flatMap_singleton, flatMap_partAmounts_reverse exact length small]

end Made

end Parted

/-! ## Agreement -/

section Agreement

variable (regular : m.store.Regular) (recording : m.session.finalized = false)
  (there : m.store.content? x = some c) {axis : Nat} (inside : axis < c.shape.rank)
  {partition : Partition} (admits : partition.Admits (c.shape.extent axis))
include regular recording there inside admits

/-- A split yields what slicing the boxes of its parts does. -/
theorem split_agrees :
    Agree (c.values.nonFinite? = none) m (apply (.split x axis partition))
      (slices x c.shape axis (partition.parts (c.shape.extent axis)))
      fun parts => parts.map Content.shape
        = (partition.parts (c.shape.extent axis)).map (c.shape.set axis ·) := by
  obtain ⟨wf, small⟩ := Content.regular_iff.mp (regular.content there)
  obtain ⟨blocks, parted, splits⟩ := Content.exists_parted wf small inside admits
  have one (box : List Nat × Shape) {o : Content}
      (success : c.slice box.1 box.2 = .ok (.single o (Box.rule box.1))) (m' : Machine)
      (onward : m.Onward m') : Yields (apply (.slice x box.1 box.2)) m' [o] :=
    yields_one (onward.finalized ▸ recording) (onward.keeps x c there) (.slice x box.1 box.2) rfl
      success
  refine ⟨fun finite => ?_, fun infinite => ?_⟩
  · obtain ⟨d, success⟩ := Routing.compute_of_finite parted.exact parted.valid parted.small
      (List.forall_mem_singleton.mpr finite)
    obtain ⟨outputs, rfl, made⟩ := Content.compute_eq_ok_iff_made.mp success
    refine ⟨outputs, Routing.shapes_of_compute success, ?_, ?_⟩
    · rw [← splits] at success
      exact yields_one recording there (.split x axis partition) rfl success
    · refine yields_applyEach ((Content.slices_of_made wf parted made).imp ?_)
      intro box o success
      exact one box success
  · obtain ⟨each, some⟩ := Content.slice_cases wf parted
    have ended := Routing.compute_of_nonFinite parted.exact parted.valid parted.small
      ⟨c, List.mem_singleton_self c, infinite⟩
    rw [← splits] at ended
    have stops (box : List Nat × Shape) (ended : c.slice box.1 box.2 = Outcome.stop .nonFinite)
        (m' : Machine) (onward : m.Onward m') : Ends (apply (.slice x box.1 box.2)) m' :=
      ends_one (onward.finalized ▸ recording) (onward.keeps x c there) rfl ended
    refine ⟨?_, ends_applyEach (fun box member => ?_) ?_⟩
    · exact ends_one recording there rfl ended
    · rcases each box member with ⟨o, success⟩ | ended
      · exact .inl ⟨o, one box success⟩
      · exact .inr (stops box ended)
    · obtain ⟨box, member, ended⟩ := some infinite
      exact ⟨box, member, stops box ended⟩

/-- Seeded with the same gradients, and replayed, the parts of a split leave the store that the
slices leave. -/
theorem seeded_split (finite : c.values.nonFinite? = none) (gradients : List Buffer) :
    (((seeded (apply (.split x axis partition)) gradients).run m).1
        = ((seeded (slices x c.shape axis (partition.parts (c.shape.extent axis))) gradients).run
          m).1
      ∧ ((seeded (apply (.split x axis partition)) gradients).run m).2.store
        = ((seeded (slices x c.shape axis (partition.parts (c.shape.extent axis))) gradients).run
          m).2.store)
    ∧ (m.Sound → List.Forall₂ (fun (g : Buffer) length =>
        g.size = List.prod (c.shape.set axis length)) gradients
        (partition.parts (c.shape.extent axis)) →
      ((seeded (apply (.split x axis partition)) gradients).run m).1 = .ok ()) := by
  obtain ⟨wf, small⟩ := Content.regular_iff.mp (regular.content there)
  obtain ⟨blocks, parted, splits⟩ := Content.exists_parted wf small inside admits
  obtain ⟨d, success⟩ := Routing.compute_of_finite parted.exact parted.valid parted.small
    (List.forall_mem_singleton.mpr finite)
  have shapes := Routing.shapes_of_compute success
  obtain ⟨outputs, rfl, made⟩ := Content.compute_eq_ok_iff_made.mp success
  have there' : ∀ id ∈ (Operation.split x axis partition).operands,
      ∃ c, m.store.content? id = some c :=
    fun id member => ⟨c, List.mem_singleton.mp member ▸ there⟩
  have call : operandsOf m.store (.split x axis partition) = .split c axis partition :=
    operandsOf_one there rfl
  have computes := (congrArg Operation.compute call).trans (splits.trans success)
  have run := run_apply_of_kept recording there' computes (run_keep_own rfl _ m)
  have run' := run_slices recording there (Content.slices_of_made wf parted made)
  have adds := m.store.adds_addAll outputs
  have valid : ∀ o ∈ outputs, o.WellFormed := by
    intro o member
    obtain ⟨entry, -, made⟩ := exists_rel_of_mem made member
    exact Content.wellFormed_of_make made
  have wf' := adds.wellFormed regular.wellFormed valid
  refine ⟨?_, fun sound sizes => ?_⟩
  · refine seeded_same recording run run' Array.toList_push Array.toList_append ?_ gradients
    intro s reseeded
    refine replay_slices parted made ?_ ?_ (reseeded.wellFormed wf') ?_
    · exact adds.added.imp fun id o content => (reseeded.contents id).trans content
    · obtain ⟨t, tensor, -⟩ := Option.map_eq_some_iff.mp there
      intro id member
      exact Nat.lt_of_lt_of_le (Store.index_lt_of_get? tensor) (adds.new id member)
    · exact (reseeded.contents x).trans (adds.keeps x c there)
  · have sound' := sound.apply (.split x axis partition)
    rw [run] at sound'
    have shaped : List.Forall₂ (fun (g : Buffer) shape => g.size = List.prod shape) gradients
        (outputs.map Content.shape) := by
      rw [shapes, List.forall₂_map_right_iff]
      exact sizes
    rw [List.forall₂_map_right_iff] at shaped
    have fits : List.Forall₂ (fun (g : Buffer) (o : Content) => g.size = o.count) gradients
        outputs :=
      (forall₂_imp_of_mem shaped.flip fun o member g size =>
        size.trans (valid o member).count.symm).flip
    exact seeded_eq_ok run sound' fun pair member => exists_of_mem_zip adds.added fits member

end Agreement

/-- A split agrees with slicing. Along every axis of a tensor, and into all parts that take up its
length, the parts of the split are, in order, the slices that begin on that axis where the parts
before them end, and at its start on all others, and that have the part's length there and the full
extent elsewhere. An element that is not finite ends the run either way. Whatever gradients the
parts are seeded with, the slices seeded with the same are replayed with the same result, which for
gradients of the right sizes is success, and leave the same tensors with the same gradients. -/
theorem slices_agree (regular : m.store.Regular) (recording : m.session.finalized = false)
    (there : m.store.content? x = some c) {axis : Nat} (inside : axis < c.shape.rank)
    {partition : Partition} (admits : partition.Admits (c.shape.extent axis)) :
    Agree (c.values.nonFinite? = none) m (apply (.split x axis partition))
        (slices x c.shape axis (partition.parts (c.shape.extent axis)))
        (fun parts => parts.map Content.shape
          = (partition.parts (c.shape.extent axis)).map (c.shape.set axis ·))
      ∧ (c.values.nonFinite? = none → ∀ gradients : List Buffer,
        ((seeded (apply (.split x axis partition)) gradients).run m).1
            = ((seeded (slices x c.shape axis (partition.parts (c.shape.extent axis)))
              gradients).run m).1
          ∧ ((seeded (apply (.split x axis partition)) gradients).run m).2.store
            = ((seeded (slices x c.shape axis (partition.parts (c.shape.extent axis)))
              gradients).run m).2.store
          ∧ (m.Sound → List.Forall₂ (fun (g : Buffer) length =>
              g.size = List.prod (c.shape.set axis length)) gradients
              (partition.parts (c.shape.extent axis)) →
            ((seeded (apply (.split x axis partition)) gradients).run m).1 = .ok ())) := by
  refine ⟨split_agrees regular recording there inside admits, fun finite gradients => ?_⟩
  obtain ⟨⟨results, stores⟩, success⟩ :=
    seeded_split regular recording there inside admits finite gradients
  exact ⟨results, stores, success⟩

/-- The columns of a square, split and sliced. -/
theorem slices_agree_square :
    (∃ parts, parts.map Content.shape = [[2, 1], [2, 1]]
      ∧ Yields (apply (.split ⟨0⟩ (1 : Nat) (.sizes [1, 1]))) ofSquare parts
      ∧ Yields (slices ⟨0⟩ [2, 2] 1 [1, 1]) ofSquare parts)
    ∧ ((seeded (apply (.split ⟨0⟩ (1 : Nat) (.sizes [1, 1]))) [#[5, 6], #[7, 8]]).run
      ofSquare).1 = .ok ()
    ∧ ((seeded (slices ⟨0⟩ [2, 2] 1 [1, 1]) [#[5, 6], #[7, 8]]).run ofSquare).1 = .ok ()
    ∧ ((seeded (apply (.split ⟨0⟩ (1 : Nat) (.sizes [1, 1]))) [#[5, 6], #[7, 8]]).run
        ofSquare).2.store
      = ((seeded (slices ⟨0⟩ [2, 2] 1 [1, 1]) [#[5, 6], #[7, 8]]).run ofSquare).2.store := by
  have finite : Buffer.nonFinite? #[1, 2, 3, 4] = none := by decide +kernel
  have there : ofSquare.store.content? ⟨0⟩ = some ⟨[2, 2], [2, 1], #[1, 2, 3, 4]⟩ := rfl
  have admits : (Partition.sizes [1, 1]).Admits 2 := ⟨by decide, by decide, by decide⟩
  have inside : 1 < Shape.rank [2, 2] := by decide
  obtain ⟨agree, same⟩ := slices_agree regular_ofSquare rfl there inside admits
  obtain ⟨results, stores, success⟩ := same finite [#[5, 6], #[7, 8]]
  have replayed := success sound_ofSquare (.cons rfl (.cons rfl .nil))
  exact ⟨agree.yields finite, replayed, results ▸ replayed, stores⟩

end Session

end LayerNet
