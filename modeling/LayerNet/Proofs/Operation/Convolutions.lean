import LayerNet.Proofs.Coordinates
import LayerNet.Proofs.Operation.Returns
import LayerNet.Proofs.Operation.SampleWindows
import Mathlib.Data.List.Nodup

/-!
# Convolutions — one enumeration for three sums

A window meets a place of the kernel where the padded pixel below it lies inside the image
(`Convolution.Meets`). The taps are these meetings, each once, in the order of image, window and
kernel (`Convolution.taps_eq`, `Convolution.nodup_meetings`, `Convolution.mem_meetings`). At a
meeting a pixel is multiplied with a weight for a result, for each channel and filter
(`Convolution.terms`).

Forward a product is added for each term to its result (`Convolution.forward_eq`). Backward the
gradient of the result, multiplied with the pixel, is added to the weight
(`Convolution.weightGradient_eq`), and multiplied with the weight it is added to the pixel, summed
over the filters first (`Convolution.pixelGradient_eq`). So all three go through the same terms.
-/

namespace LayerNet

/-- Of lists one after the other, what passes a test is in one of them if the others have nothing
that does. -/
theorem filter_flatMap_range {α : Type} {f : Nat → List α} {p : α → Bool} {n i : Nat} (inside : i < n)
    (others : ∀ s < n, ∀ x ∈ f s, p x = true → s = i) :
    ((List.range n).flatMap f).filter p = (f i).filter p := by
  have within : (List.range n).flatMap (fun s => (f s).filter p)
      = (List.range n).flatMap fun s => if s < n then (f s).filter p else [] :=
    List.flatMap_congr fun s member => (if_pos (List.mem_range.mp member)).symm
  rw [List.filter_flatMap, within, flatMap_range_of_single inside, if_pos inside]
  intro s other
  split
  next small =>
    exact List.filter_eq_nil_iff.mpr fun x member passes => other (others s small x member passes)
  · rfl

/-- Lists one after the other have no member twice if none has and a key tells them apart. -/
theorem nodup_flatMap_range {α : Type} {f : Nat → List α} {n : Nat} (key : α → Nat)
    (each : ∀ i, (f i).Nodup) (keyed : ∀ i, ∀ x ∈ f i, key x = i) :
    ((List.range n).flatMap f).Nodup := by
  refine List.nodup_flatMap.mpr ⟨fun i _ => each i, ?_⟩
  refine List.nodup_range.imp fun {i j} differ => ?_
  intro x first second
  exact differ ((keyed i x first).symm.trans (keyed j x second))

/-- The windows along an axis are those that fit the padded axis. -/
theorem Windowing.lt_extent_iff {ε : Type} {input kernel stride padding count : Nat}
    (success : (extent input kernel stride padding : Outcome ε (Option Nat)) = .ok (some count))
    (window : Nat) : window < count ↔ window * stride + kernel ≤ input + 2 * padding := by
  unfold extent at success
  obtain ⟨double, first, success⟩ := Outcome.bind_eq_ok_iff.mp success
  obtain ⟨padded, second, success⟩ := Outcome.bind_eq_ok_iff.mp success
  rw [Size.check_eq_ok first] at second
  rw [Size.check_eq_ok second] at success
  split at success
  · cases success
  next fits =>
    rw [not_or, Nat.not_lt] at fits
    obtain ⟨n, counted, success⟩ := Outcome.bind_eq_ok_iff.mp success
    cases success
    rw [Size.check_eq_ok counted, Nat.lt_succ_iff,
      Nat.le_div_iff_mul_le (Nat.pos_of_ne_zero fits.1)]
    omega

/-- The windows along both axes. -/
theorem Windowing.extents_eq_ok {ε : Type} {w : Windowing} {height width kernelHeight kernelWidth : Nat}
    {rows columns : Nat}
    (success : (w.extents height width kernelHeight kernelWidth : Outcome ε (Option (Nat × Nat)))
      = .ok (some (rows, columns))) :
    (extent height kernelHeight w.stride.1 w.padding.1 : Outcome ε (Option Nat)) = .ok (some rows)
      ∧ (extent width kernelWidth w.stride.2 w.padding.2 : Outcome ε (Option Nat))
        = .ok (some columns) := by
  obtain ⟨r, down, success⟩ := Outcome.bind_eq_ok_iff.mp success
  obtain ⟨c, across, success⟩ := Outcome.bind_eq_ok_iff.mp success
  have both := Except.ok.inj success
  rw [Option.bind_eq_some_iff] at both
  obtain ⟨r', rfl, both⟩ := both
  obtain ⟨c', rfl, both⟩ := Option.map_eq_some_iff.mp both
  cases both
  exact ⟨down, across⟩

namespace Convolution

/-- A place of the kernel in a window of an image. -/
structure Meeting where
  sample : Nat
  row : Nat
  column : Nat
  down : Nat
  across : Nat
  deriving Repr, DecidableEq

/-- What is multiplied: a pixel and a weight, for a result. -/
structure Term where
  pixel : Nat
  weight : Nat
  result : Nat
  deriving Repr, DecidableEq

/-- The offset in the padded axis is one in the axis itself. -/
def Covers (padding extent offset : Nat) : Prop := padding ≤ offset ∧ offset < padding + extent

instance (padding extent offset : Nat) : Decidable (Covers padding extent offset) :=
  inferInstanceAs (Decidable (_ ∧ _))

variable (g : Convolution)

/-- The shape of the images. -/
def imageShape : Shape := [g.batch, g.height, g.width, g.channels]

/-- The shape of the kernel. -/
def kernelShape : Shape := [g.kernelHeight, g.kernelWidth, g.channels, g.filters]

/-- The shape of the results. -/
def resultShape : Shape := [g.batch, g.rows, g.columns, g.filters]

/-- How far down the padded image the window has its place of the kernel. -/
def downAt (row down : Nat) : Nat := row * g.windowing.stride.1 + down

/-- How far across the padded image the window has its place of the kernel. -/
def acrossAt (column across : Nat) : Nat := column * g.windowing.stride.2 + across

/-- The rows of the kernel that a window has inside the image. -/
def downs (row : Nat) : List Nat :=
  (List.range g.kernelHeight).filter fun down => Covers g.windowing.padding.1 g.height (g.downAt row down)

/-- The columns of the kernel that a window has inside the image. -/
def acrosses (column : Nat) : List Nat :=
  (List.range g.kernelWidth).filter fun across =>
    Covers g.windowing.padding.2 g.width (g.acrossAt column across)

/-- There are such an image, window and place of the kernel, and the padded pixel lies inside the
image. -/
structure Meets (t : Meeting) : Prop where
  sample : t.sample < g.batch
  row : t.row < g.rows
  column : t.column < g.columns
  down : t.down < g.kernelHeight
  across : t.across < g.kernelWidth
  below : Covers g.windowing.padding.1 g.height (g.downAt t.row t.down)
  beside : Covers g.windowing.padding.2 g.width (g.acrossAt t.column t.across)

/-- The meetings of one window. -/
def windowMeetings (sample row column : Nat) : List Meeting :=
  (g.downs row).flatMap fun down =>
    (g.acrosses column).map fun across => ⟨sample, row, column, down, across⟩

/-- All meetings. -/
def meetings : List Meeting :=
  (List.range g.batch).flatMap fun sample =>
    (List.range g.rows).flatMap fun row =>
      (List.range g.columns).flatMap fun column => g.windowMeetings sample row column

/-- What is multiplied at a meeting, for a channel and a filter. -/
def term (t : Meeting) (channel filter : Nat) : Term where
  pixel := g.imageShape.index [t.sample, g.downAt t.row t.down - g.windowing.padding.1,
    g.acrossAt t.column t.across - g.windowing.padding.2, channel]
  weight := g.kernelShape.index [t.down, t.across, channel, filter]
  result := g.resultShape.index [t.sample, t.row, t.column, filter]

/-- Where a meeting begins. -/
def tapOf (t : Meeting) : Tap := ⟨(g.term t 0 0).pixel, (g.term t 0 0).weight, (g.term t 0 0).result⟩

/-- What is multiplied at a meeting. -/
def termsOf (t : Meeting) : List Term :=
  (List.range g.channels).flatMap fun channel => (List.range g.filters).map (g.term t channel)

/-- What is multiplied. -/
def terms : List Term := g.meetings.flatMap g.termsOf

variable {g}

/-! ## Meetings -/

theorem mem_windowMeetings {t : Meeting} {sample row column : Nat} :
    t ∈ g.windowMeetings sample row column
      ↔ (t.sample = sample ∧ t.row = row ∧ t.column = column) ∧ t.down ∈ g.downs row
        ∧ t.across ∈ g.acrosses column := by
  unfold windowMeetings
  simp only [List.mem_flatMap, List.mem_map]
  constructor
  · rintro ⟨down, below, across, beside, rfl⟩
    exact ⟨⟨rfl, rfl, rfl⟩, below, beside⟩
  · rintro ⟨⟨rfl, rfl, rfl⟩, below, beside⟩
    exact ⟨t.down, below, t.across, beside, rfl⟩

/-- The meetings are what meets, and nothing else. -/
theorem mem_meetings {t : Meeting} : t ∈ g.meetings ↔ g.Meets t := by
  unfold meetings
  simp only [List.mem_flatMap, List.mem_range, mem_windowMeetings, downs, acrosses, List.mem_filter,
    decide_eq_true_eq]
  constructor
  · rintro ⟨_, sample, _, row, _, column, ⟨rfl, rfl, rfl⟩, ⟨down, below⟩, across, beside⟩
    exact ⟨sample, row, column, down, across, below, beside⟩
  · rintro ⟨sample, row, column, down, across, below, beside⟩
    exact ⟨_, sample, _, row, _, column, ⟨rfl, rfl, rfl⟩, ⟨down, below⟩, across, beside⟩

/-- No meeting is listed twice. -/
theorem nodup_meetings : g.meetings.Nodup := by
  have windows (sample row column : Nat) : (g.windowMeetings sample row column).Nodup := by
    refine List.nodup_flatMap.mpr ⟨fun down _ => ?_, ?_⟩
    · refine (List.nodup_range.filter _).map fun across across' same => ?_
      cases same
      rfl
    · refine (List.nodup_range.filter _).imp fun {down down'} differ => ?_
      intro t first second
      obtain ⟨across, -, rfl⟩ := List.mem_map.mp first
      obtain ⟨across', -, same⟩ := List.mem_map.mp second
      cases same
      exact differ rfl
  refine nodup_flatMap_range Meeting.sample (fun sample => ?_) fun sample t member => ?_
  · refine nodup_flatMap_range Meeting.row (fun row => ?_) fun row t member => ?_
    · refine nodup_flatMap_range Meeting.column (windows sample row) fun column t member => ?_
      exact (mem_windowMeetings.mp member).1.2.2
    · obtain ⟨column, -, member⟩ := List.mem_flatMap.mp member
      exact (mem_windowMeetings.mp member).1.2.1
  · obtain ⟨row, -, member⟩ := List.mem_flatMap.mp member
    obtain ⟨column, -, member⟩ := List.mem_flatMap.mp member
    exact (mem_windowMeetings.mp member).1.1

theorem inside_eq (window stride padding kernel extent : Nat) :
    inside window stride padding kernel extent
      = ((List.range kernel).filter fun k => Covers padding extent (window * stride + k)).map
        fun k => (k, window * stride + k - padding) := by
  unfold inside
  rw [← List.filterMap_eq_map, List.filterMap_filter]
  refine List.filterMap_congr fun k _ => ?_
  have same : Covers padding extent (window * stride + k)
      ↔ ¬(window * stride + k < padding ∨ extent ≤ window * stride + k - padding) := by
    unfold Covers
    omega
  by_cases covers : Covers padding extent (window * stride + k)
  · rw [if_pos (decide_eq_true covers)]
    exact if_neg (same.mp covers)
  · rw [if_neg (fun covered => covers (of_decide_eq_true covered))]
    exact if_pos (Classical.not_not.mp (mt same.mpr covers))

/-- The taps are where the meetings begin, in order. -/
theorem taps_eq : g.taps = g.meetings.map g.tapOf := by
  unfold taps meetings
  rw [List.map_flatMap]
  refine List.flatMap_congr fun sample _ => ?_
  rw [List.map_flatMap]
  refine List.flatMap_congr fun row _ => ?_
  rw [List.map_flatMap]
  refine List.flatMap_congr fun column _ => ?_
  unfold windowTaps windowMeetings
  dsimp only
  rw [inside_eq, inside_eq, List.flatMap_map, List.map_flatMap]
  refine List.flatMap_congr fun down _ => ?_
  rw [List.map_map, List.map_map]
  refine List.map_congr_left fun across _ => ?_
  simp only [Function.comp_apply, tapOf, term, imageShape, kernelShape, resultShape,
    Shape.index_four, Nat.add_zero]
  rfl

/-! ## Terms -/

/-- The terms of a meeting are counted from where it begins. -/
theorem term_eq (t : Meeting) (channel filter : Nat) : g.term t channel filter
    = ⟨(g.tapOf t).pixel + channel, (g.tapOf t).weight + channel * g.filters + filter,
      (g.tapOf t).result + filter⟩ := by
  simp only [tapOf, term, imageShape, kernelShape, resultShape, Shape.index_four, Nat.add_zero,
    Nat.add_mul]

theorem mem_terms {t : Term} : t ∈ g.terms ↔ ∃ meeting, g.Meets meeting
    ∧ ∃ channel < g.channels, ∃ filter < g.filters, t = g.term meeting channel filter := by
  simp only [terms, termsOf, List.mem_flatMap, mem_meetings, List.mem_range, List.mem_map, eq_comm]

section Axes

variable {t : Meeting} (meets : g.Meets t) {channel filter : Nat} (among : channel < g.channels)
  (kept : filter < g.filters)
include meets

theorem pixel_onAxes (among : channel < g.channels) : List.Forall₂ (· < ·) [t.sample,
    g.downAt t.row t.down - g.windowing.padding.1, g.acrossAt t.column t.across - g.windowing.padding.2,
    channel] g.imageShape := by
  obtain ⟨sample, -, -, -, -, ⟨down, below⟩, across, beside⟩ := meets
  exact .cons sample (.cons (by omega) (.cons (by omega) (.cons among .nil)))

theorem weight_onAxes (among : channel < g.channels) (kept : filter < g.filters) :
    List.Forall₂ (· < ·) [t.down, t.across, channel, filter] g.kernelShape :=
  .cons meets.down (.cons meets.across (.cons among (.cons kept .nil)))

theorem result_onAxes (kept : filter < g.filters) :
    List.Forall₂ (· < ·) [t.sample, t.row, t.column, filter] g.resultShape :=
  .cons meets.sample (.cons meets.row (.cons meets.column (.cons kept .nil)))

end Axes

/-- Every term is of a pixel, a weight and a result that are there. -/
theorem term_lt {t : Term} (member : t ∈ g.terms) : t.pixel < g.imageShape.prod
    ∧ t.weight < g.kernelShape.prod ∧ t.result < g.resultShape.prod := by
  obtain ⟨meeting, meets, channel, among, filter, kept, rfl⟩ := mem_terms.mp member
  exact ⟨Shape.index_lt (pixel_onAxes meets among), Shape.index_lt (weight_onAxes meets among kept),
    Shape.index_lt (result_onAxes meets kept)⟩

/-- Weight and result tell at which meeting, and for which channel and filter, a term is. -/
theorem term_inj {t t' : Meeting} (meets : g.Meets t) (meets' : g.Meets t')
    {channel channel' filter filter' : Nat} (among : channel < g.channels)
    (among' : channel' < g.channels) (kept : filter < g.filters) (kept' : filter' < g.filters)
    (same : g.term t channel filter = g.term t' channel' filter') :
    t = t' ∧ channel = channel' ∧ filter = filter' := by
  have weights := (Shape.index_inj (weight_onAxes meets among kept)
    (weight_onAxes meets' among' kept')).mp (congrArg Term.weight same)
  have results := (Shape.index_inj (result_onAxes meets kept) (result_onAxes meets' kept')).mp
    (congrArg Term.result same)
  simp only [List.cons.injEq, and_true] at weights results
  obtain ⟨down, across, rfl, rfl⟩ := weights
  obtain ⟨sample, row, column, -⟩ := results
  refine ⟨?_, rfl, rfl⟩
  cases t
  cases t'
  simp_all

/-- No term is listed twice. -/
theorem nodup_terms : g.terms.Nodup := by
  refine List.nodup_flatMap.mpr ⟨fun t member => ?_, ?_⟩
  · have meets := mem_meetings.mp member
    refine List.nodup_flatMap.mpr ⟨fun channel among => ?_, ?_⟩
    · rw [List.mem_range] at among
      refine List.Nodup.map_on (fun filter kept filter' kept' same => ?_) List.nodup_range
      rw [List.mem_range] at kept kept'
      exact (term_inj meets meets among among kept kept' same).2.2
    · refine List.nodup_range.imp_of_mem fun {channel channel'} among among' differ term first => ?_
      intro second
      rw [List.mem_range] at among among'
      obtain ⟨filter, kept, rfl⟩ := List.mem_map.mp first
      obtain ⟨filter', kept', same⟩ := List.mem_map.mp second
      rw [List.mem_range] at kept kept'
      exact differ (term_inj meets meets among' among kept' kept same).2.1.symm
  · refine nodup_meetings.imp_of_mem fun {t t'} member member' differ term first second => ?_
    have meets := mem_meetings.mp member
    have meets' := mem_meetings.mp member'
    simp only [termsOf, List.mem_flatMap, List.mem_range, List.mem_map] at first second
    obtain ⟨channel, among, filter, kept, rfl⟩ := first
    obtain ⟨channel', among', filter', kept', same⟩ := second
    exact differ (term_inj meets' meets among' among kept' kept same).1.symm

/-- A term for a result is one of the result's window. -/
theorem window_of_mem {s r c : Nat} (sample : s < g.batch) (row : r < g.rows) (column : c < g.columns)
    {t : Term} (member : t ∈ (g.windowMeetings s r c).flatMap g.termsOf) {s' r' c' filter : Nat}
    (onAxes : List.Forall₂ (· < ·) [s', r', c', filter] g.resultShape)
    (result : t.result = g.resultShape.index [s', r', c', filter]) : s = s' ∧ r = r' ∧ c = c' := by
  simp only [List.mem_flatMap, termsOf, List.mem_range, List.mem_map] at member
  obtain ⟨meeting, among, channel, -, filter', kept, rfl⟩ := member
  obtain ⟨⟨rfl, rfl, rfl⟩, -⟩ := mem_windowMeetings.mp among
  have same := (Shape.index_inj (.cons sample (.cons row (.cons column (.cons kept .nil))))
    onAxes).mp result
  simp only [List.cons.injEq] at same
  exact ⟨same.1, same.2.1, same.2.2.1⟩

/-- The terms for one result are those of its window and its filter, by kernel row, kernel column
and channel. -/
theorem filter_result {sample row column filter : Nat} (batch : sample < g.batch) (rows : row < g.rows)
    (columns : column < g.columns) (kept : filter < g.filters) :
    g.terms.filter (·.result = g.resultShape.index [sample, row, column, filter])
      = (g.downs row).flatMap fun down => (g.acrosses column).flatMap fun across =>
        (List.range g.channels).map fun channel =>
          g.term ⟨sample, row, column, down, across⟩ channel filter := by
  have onAxes : List.Forall₂ (· < ·) [sample, row, column, filter] g.resultShape :=
    .cons batch (.cons rows (.cons columns (.cons kept .nil)))
  have nested : g.terms = (List.range g.batch).flatMap fun s => (List.range g.rows).flatMap fun r =>
      (List.range g.columns).flatMap fun c => (g.windowMeetings s r c).flatMap g.termsOf := by
    simp only [terms, meetings, List.flatMap_assoc]
  rw [nested, filter_flatMap_range batch fun s small t member result => ?_,
    filter_flatMap_range rows fun r small t member result => ?_,
    filter_flatMap_range columns fun c small t member result => ?_]
  · rw [windowMeetings, List.flatMap_assoc, List.filter_flatMap]
    refine List.flatMap_congr fun down below => ?_
    rw [List.flatMap_map, List.filter_flatMap]
    refine List.flatMap_congr fun across beside => ?_
    rw [termsOf, List.filter_flatMap]
    rw [← List.flatMap_singleton' (List.map _ (List.range g.channels)), List.flatMap_map]
    refine List.flatMap_congr fun channel _ => ?_
    rw [List.filter_map, filter_eq_singleton List.nodup_range (List.mem_range.mpr kept)]
    · rfl
    · intro filter' kept'
      rw [List.mem_range] at kept'
      have onAxes' : List.Forall₂ (· < ·) [sample, row, column, filter'] g.resultShape :=
        .cons batch (.cons rows (.cons columns (.cons kept' .nil)))
      have same := Shape.index_inj onAxes' onAxes
      simp only [List.cons.injEq, true_and, and_true] at same
      exact decide_eq_true_iff.trans same
  · exact (window_of_mem batch rows small member onAxes (of_decide_eq_true result)).2.2
  · obtain ⟨c, small', member⟩ := List.mem_flatMap.mp member
    rw [List.mem_range] at small'
    exact (window_of_mem batch small small' member onAxes (of_decide_eq_true result)).2.1
  · obtain ⟨r, small', member⟩ := List.mem_flatMap.mp member
    obtain ⟨c, small'', member⟩ := List.mem_flatMap.mp member
    rw [List.mem_range] at small' small''
    exact (window_of_mem small small' small'' member onAxes (of_decide_eq_true result)).1

/-! ## Sums -/

variable (g) in
/-- What is multiplied at a meeting for each channel, with the pixel that it is for. -/
def pixelBundles : List (Nat × List Term) :=
  g.meetings.flatMap fun t => (List.range g.channels).map fun channel =>
    ((g.tapOf t).pixel + channel, (List.range g.filters).map (g.term t channel))

theorem flatMap_pixelBundles : g.pixelBundles.flatMap Prod.snd = g.terms := by
  simp only [pixelBundles, List.flatMap_assoc, List.flatMap_map]
  rfl

theorem pixel_of_mem_pixelBundles {bundle : Nat × List Term} (member : bundle ∈ g.pixelBundles) :
    ∀ t ∈ bundle.2, t.pixel = bundle.1 := by
  simp only [pixelBundles, List.mem_flatMap, List.mem_map] at member
  obtain ⟨meeting, -, channel, -, rfl⟩ := member
  intro t among
  obtain ⟨filter, -, rfl⟩ := List.mem_map.mp among
  rw [term_eq]

/-- The bundles for one pixel have the terms of the pixel. -/
theorem flatMap_filter_pixelBundles (p : Nat) :
    (g.pixelBundles.filter (·.1 = p)).flatMap Prod.snd = g.terms.filter (·.pixel = p) := by
  rw [← flatMap_pixelBundles, List.filter_flatMap]
  have each (bundles : List (Nat × List Term))
      (pixels : ∀ bundle ∈ bundles, ∀ t ∈ bundle.2, t.pixel = bundle.1) :
      (bundles.filter (·.1 = p)).flatMap Prod.snd
        = bundles.flatMap fun bundle => bundle.2.filter (·.pixel = p) := by
    induction bundles with
    | nil => rfl
    | cons bundle bundles ih =>
      obtain ⟨first, rest⟩ := List.forall_mem_cons.mp pixels
      rw [List.flatMap_cons, ← ih rest]
      by_cases here : bundle.1 = p
      · have all : bundle.2.filter (·.pixel = p) = bundle.2 :=
          List.filter_eq_self.mpr fun t among => decide_eq_true ((first t among).trans here)
        simp [here, all]
      · have none : bundle.2.filter (·.pixel = p) = [] := by
          refine List.filter_eq_nil_iff.mpr fun t among => ?_
          simpa [first t among] using here
        simp [here, none]
  exact each _ fun bundle member => pixel_of_mem_pixelBundles member

theorem flatMap_taps {α : Type} (f : Term → α) :
    (g.taps.flatMap fun t => (List.range g.channels).flatMap fun channel =>
      (List.range g.filters).map fun filter =>
        f ⟨t.pixel + channel, t.weight + channel * g.filters + filter, t.result + filter⟩)
      = g.terms.map f := by
  rw [taps_eq, List.flatMap_map, terms, List.map_flatMap]
  refine List.flatMap_congr fun t _ => ?_
  rw [termsOf, List.map_flatMap]
  refine List.flatMap_congr fun channel _ => ?_
  rw [List.map_map]
  refine List.map_congr_left fun filter _ => ?_
  rw [Function.comp_apply, term_eq]

variable (x w gradient start : Buffer)

/-- Forward each term adds a product to its result. -/
theorem addTaps_forwardTerms : g.addTaps (g.forwardTerms x w) start = start.addAll
    (g.terms.map fun t => (t.result, x.element t.pixel * w.element t.weight)) := by
  rw [addTaps_eq, ← flatMap_taps]
  rfl

/-- Backward each term adds a product to its weight. -/
theorem addTaps_weightTerms : g.addTaps (g.weightTerms x gradient) start = start.addAll
    (g.terms.map fun t => (t.weight, x.element t.pixel * gradient.element t.result)) := by
  rw [addTaps_eq, ← flatMap_taps]
  rfl

/-- Backward each bundle of terms adds the sum of its products to its pixel. -/
theorem addTaps_pixelTerms : g.addTaps (g.pixelTerms w gradient) start = start.addAll
    (g.pixelBundles.map fun bundle => (bundle.1, Buffer.tally (bundle.2.map fun t =>
      gradient.element t.result * w.element t.weight))) := by
  rw [addTaps_eq, taps_eq, List.flatMap_map, pixelBundles, List.map_flatMap]
  refine congrArg _ (List.flatMap_congr fun t _ => ?_)
  rw [pixelTerms, List.map_map]
  refine List.map_congr_left fun channel _ => ?_
  rw [Function.comp_apply, List.map_map]
  simp only [term_eq, Function.comp_def]

end Convolution

/-- Additions that are told with what they are made of: those for one position add up, in order. -/
theorem Buffer.element_addAll_map {α : Type} {b : Buffer} {i : Nat} (inside : i < b.size) (xs : List α)
    (key : α → Nat) (value : α → Float32) :
    (b.addAll (xs.map fun x => (key x, value x))).element i
      = ((xs.filter (key · = i)).map value).foldl (· + ·) (b.element i) := by
  rw [element_addAll inside, List.filter_map, List.map_map]
  rfl

namespace Convolution

variable (g : Convolution)

/-- The gradient of the images. -/
def pixelGradient (w gradient : Buffer) : Buffer :=
  g.addTaps (g.pixelTerms w gradient) (Buffer.zeros g.imageShape.prod)

/-- The gradient of the kernel. -/
def weightGradient (x gradient : Buffer) : Buffer :=
  g.addTaps (g.weightTerms x gradient) (Buffer.zeros g.kernelShape.prod)

/-- What holds of a convolution and its gradients. -/
structure Laws : Prop where
  /-- The taps are where the meetings begin, and every meeting is there once. -/
  taps : ∃ meetings : List Meeting, meetings.Nodup ∧ (∀ t, t ∈ meetings ↔ g.Meets t)
    ∧ g.taps = meetings.map g.tapOf
  /-- From a tap on there are pixels for all channels, weights for all channels and filters, and
  results for all filters. -/
  offsets : ∀ t ∈ g.taps, t.pixel + g.channels ≤ g.imageShape.prod
    ∧ t.weight + g.channels * g.filters ≤ g.kernelShape.prod
    ∧ t.result + g.filters ≤ g.resultShape.prod
  /-- A result is the bias of its filter, with the products of pixel and weight added by kernel row,
  kernel column and channel. -/
  results : ∀ x w bias : Buffer, ∀ sample < g.batch, ∀ row < g.rows, ∀ column < g.columns,
    ∀ filter < g.filters,
      (g.forward x w bias).element (g.resultShape.index [sample, row, column, filter])
        = ((g.downs row).flatMap fun down => (g.acrosses column).flatMap fun across =>
          (List.range g.channels).map fun channel =>
            x.element (g.imageShape.index [sample, g.downAt row down - g.windowing.padding.1,
              g.acrossAt column across - g.windowing.padding.2, channel])
            * w.element (g.kernelShape.index [down, across, channel, filter])).foldl (· + ·)
          (bias.element filter)
  /-- There is a term for each meeting, channel and filter. -/
  terms : ∀ t, t ∈ g.terms ↔ ∃ meeting, g.Meets meeting
    ∧ ∃ channel < g.channels, ∃ filter < g.filters, t = g.term meeting channel filter
  /-- Every term is of a pixel, a weight and a result that are there. -/
  inside : ∀ t ∈ g.terms, t.pixel < g.imageShape.prod ∧ t.weight < g.kernelShape.prod
    ∧ t.result < g.resultShape.prod
  /-- No two terms are the same. -/
  distinct : g.terms.Nodup
  /-- Forward the terms for a result multiply pixel and weight. -/
  forward : ∀ x w bias : Buffer, ∀ r < g.resultShape.prod, (g.forward x w bias).element r
    = ((g.terms.filter (·.result = r)).map fun t =>
      x.element t.pixel * w.element t.weight).foldl (· + ·) (bias.element (r % g.filters))
  /-- Backward the terms for a weight multiply pixel and gradient. -/
  weights : ∀ x gradient : Buffer, ∀ q < g.kernelShape.prod, (g.weightGradient x gradient).element q
    = Buffer.tally ((g.terms.filter (·.weight = q)).map fun t =>
      x.element t.pixel * gradient.element t.result)
  /-- Backward the terms for a pixel multiply gradient and weight; those of one meeting and channel
  are summed first. -/
  pixels : ∀ w gradient : Buffer, ∀ p < g.imageShape.prod, ∃ bundles : List (List Term),
    bundles.flatten = g.terms.filter (·.pixel = p)
      ∧ (∀ bundle ∈ bundles, ∃ t channel, bundle = (List.range g.filters).map (g.term t channel))
      ∧ (g.pixelGradient w gradient).element p = Buffer.tally (bundles.map fun bundle =>
        Buffer.tally (bundle.map fun t => gradient.element t.result * w.element t.weight))
  /-- The gradient of the bias sums the gradient over all windows of all images. -/
  bias : ∀ gradient : Buffer, ∀ filter < g.filters, (g.biasGradient gradient).element filter
    = Buffer.tally ((List.range g.batch).flatMap fun sample =>
      (List.range g.rows).flatMap fun row => (List.range g.columns).map fun column =>
        gradient.element (g.resultShape.index [sample, row, column, filter]))

variable {g}

theorem prod_resultShape : g.resultShape.prod = g.batch * g.rows * g.columns * g.filters := by
  simp only [resultShape, List.prod_cons, List.prod_nil]
  ring

/-- The offsets of a tap leave room for the channels and filters behind it. -/
theorem tapOf_le {t : Meeting} (meets : g.Meets t) :
    (g.tapOf t).pixel + g.channels ≤ g.imageShape.prod
      ∧ (g.tapOf t).weight + g.channels * g.filters ≤ g.kernelShape.prod
      ∧ (g.tapOf t).result + g.filters ≤ g.resultShape.prod := by
  obtain ⟨sample, row, column, down, across, ⟨low, below⟩, low', beside⟩ := meets
  have room {k m n : Nat} (small : k < m) : k * n + n ≤ m * n := by
    rw [← Nat.succ_mul]
    exact Nat.mul_le_mul_right n small
  have inHeight : g.downAt t.row t.down - g.windowing.padding.1 < g.height := by omega
  have inWidth : g.acrossAt t.column t.across - g.windowing.padding.2 < g.width := by omega
  simp only [tapOf, term, imageShape, kernelShape, resultShape, Shape.index_four, Nat.add_zero,
    List.prod_cons, List.prod_nil, Nat.mul_one, ← Nat.mul_assoc]
  refine ⟨room (mul_add_lt (mul_add_lt sample inHeight) inWidth), ?_,
    room (mul_add_lt (mul_add_lt sample row) column)⟩
  simpa only [Nat.mul_assoc] using room (n := g.channels * g.filters) (mul_add_lt down across)

theorem element_forward_eq (x w bias : Buffer) {r : Nat} (small : r < g.resultShape.prod) :
    (g.forward x w bias).element r = ((g.terms.filter (·.result = r)).map fun t =>
      x.element t.pixel * w.element t.weight).foldl (· + ·) (bias.element (r % g.filters)) := by
  rw [prod_resultShape] at small
  unfold forward
  dsimp only
  rw [addTaps_forwardTerms, Buffer.element_addAll_map (by rwa [Buffer.size_tabulate]),
    Buffer.element_tabulate _ small]

/-- The windows of all images, in order. -/
theorem map_windows {α : Type} (f : Nat → α) : (List.range (g.batch * g.rows * g.columns)).map f
    = (List.range g.batch).flatMap fun sample => (List.range g.rows).flatMap fun row =>
      (List.range g.columns).map fun column => f ((sample * g.rows + row) * g.columns + column) := by
  rw [range_mul, range_mul]
  simp only [List.flatMap_assoc, List.flatMap_map, List.map_flatMap, List.map_map, Function.comp_def]

/-- A convolution and its gradients go through the same terms, forward and backward. -/
theorem laws (g : Convolution) : g.Laws where
  taps := ⟨g.meetings, nodup_meetings, fun _ => mem_meetings, taps_eq⟩
  offsets t member := by
    obtain ⟨meeting, among, rfl⟩ := List.mem_map.mp (taps_eq ▸ member)
    exact tapOf_le (mem_meetings.mp among)
  results x w bias sample batch row rows column columns filter kept := by
    have onAxes : List.Forall₂ (· < ·) [sample, row, column, filter] g.resultShape :=
      .cons batch (.cons rows (.cons columns (.cons kept .nil)))
    have filters : g.resultShape.index [sample, row, column, filter] % g.filters = filter := by
      rw [resultShape, Shape.index_four, Nat.mul_add_mod', Nat.mod_eq_of_lt kept]
    rw [element_forward_eq x w bias (Shape.index_lt onAxes), filters,
      filter_result batch rows columns kept]
    simp only [List.map_flatMap, List.map_map]
    rfl
  terms _ := mem_terms
  inside _ := term_lt
  distinct := nodup_terms
  forward x w bias r small := element_forward_eq x w bias small
  weights x gradient q small := by
    rw [weightGradient, addTaps_weightTerms,
      Buffer.element_addAll_map (by rwa [Buffer.size_zeros]), Buffer.element_zeros]
    rfl
  pixels w gradient p small := by
    refine ⟨(g.pixelBundles.filter (·.1 = p)).map Prod.snd, ?_, fun bundle member => ?_, ?_⟩
    · rw [← flatMap_filter_pixelBundles, List.flatMap_def]
    · obtain ⟨bundle, among, rfl⟩ := List.mem_map.mp member
      simp only [pixelBundles, List.mem_filter, List.mem_flatMap, List.mem_map] at among
      obtain ⟨⟨t, -, channel, -, rfl⟩, -⟩ := among
      exact ⟨t, channel, rfl⟩
    · rw [pixelGradient, addTaps_pixelTerms,
        Buffer.element_addAll_map (by rwa [Buffer.size_zeros]), Buffer.element_zeros, List.map_map]
      rfl
  bias gradient filter kept := by
    rw [biasGradient, Buffer.element_tabulate _ kept, map_windows]
    simp only [resultShape, Shape.index_four]

end Convolution

/-- Where a convolution of contents succeeds, the extents are those of the shapes and of the windows
that fit. -/
theorem Content.conv2d_eq {x kernel bias : Content} {windowing : Windowing} {computed : Computed}
    (success : x.conv2d kernel bias windowing = .ok computed) : ∃ g : Convolution,
      g.windowing = windowing ∧ x.shape = g.imageShape ∧ kernel.shape = g.kernelShape
        ∧ bias.shape = [g.filters]
        ∧ (windowing.extents g.height g.width g.kernelHeight g.kernelWidth
          : Checked (Option (Nat × Nat))) = .ok (some (g.rows, g.columns))
        ∧ x.conv2d kernel bias windowing = (Computed.single · g.rule)
          <$> make (g.forward x.values kernel.values bias.values) g.resultShape := by
  have given := success
  unfold conv2d at success
  split at success
  next batch height width channels kernelHeight kernelWidth channels' filters shaped kernels =>
    split at success
    · cases success
    next agree =>
      split at success
      · cases success
      next biases =>
        obtain ⟨extents, windows, success⟩ := Outcome.bind_eq_ok_iff.mp success
        split at success
        · cases success
        next rows columns =>
          obtain ⟨count, elements, success⟩ := Outcome.bind_eq_ok_iff.mp success
          split at success
          · cases success
          · obtain ⟨output, made, success⟩ := Outcome.bind_eq_ok_iff.mp success
            cases success
            obtain rfl := Classical.not_not.mp agree
            refine ⟨⟨batch, height, width, channels, kernelHeight, kernelWidth, filters, rows,
              columns, windowing⟩, rfl, shaped, kernels, Classical.not_not.mp biases, windows, ?_⟩
            refine given.trans (Eq.symm ?_)
            exact except_map_eq_ok_iff.mpr ⟨output, made, rfl⟩
  · cases success

end LayerNet
