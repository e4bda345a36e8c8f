import LayerNet.Proofs.Architecture.Inlining
import LayerNet.Proofs.Component.Frames
import Mathlib.Data.List.Nodup

/-!
# Scopes — the bindings around an inlined definition

Of two statement lists, one has a definition where the other has its value inlined. Scope by scope
their frames bind the same names alike, but for the name itself, which only one of them binds, and
but for the definition that uses it, if one does: its values differ (`Frame.Loaded`). When this is
begun the name is to be used, and then it is used no more. So a scope goes through stages
(`Stage.Relates`), and any other name resolves in the same scope at every stage
(`Stage.RelatesAll.resolve?`).
-/

namespace LayerNet

open Assembling

/-! ## Stages -/

section

variable (name : String) (value : List Segment)

/-- Two bindings are at the same stage: values that are the same part by part, or the same ends. -/
inductive Binding.Inlined : Binding → Binding → Prop
  | fresh {xs ys : List Segment} : List.Forall₂ (Segment.Inlined name value) xs ys →
    Inlined (.fresh xs) (.fresh ys)
  | pending : Inlined .pending .pending
  | done (ends : Ends) : Inlined (.done ends) (.done ends)

/-- Two frames bind the same names alike, of those that satisfy a condition. -/
def Frame.InlinedOn (kept : String → Prop) (f g : Frame) : Prop :=
  ∀ n, kept n → Option.Rel (Binding.Inlined name value) (f.find? n) (g.find? n)

/-- Two frames bind all names alike but the one and another, whose value uses it. In the second
frame it has the value inlined. -/
structure Frame.Loaded (other : String) (before after : List Segment) (f g : Frame) : Prop where
  apart : other ≠ name
  ready : f.find? name = some (.fresh value)
  used : f.find? other = some (.fresh (before ++ .token name :: after))
  inlined : g.find? other = some (.fresh (before ++ (value ++ after)))
  unused : name ∉ Segment.tokensAll before ∧ name ∉ Segment.tokensAll after
  alike : Frame.InlinedOn name value (fun n => n ≠ name ∧ n ≠ other) f g

/-- What is known of a scope: the name may be used by a definition that is not begun, or it is to
be used by what is being instantiated, or it is not used any more. -/
inductive Stage where
  | idle
  | ready
  | spent

/-- Two frames of one scope at a stage. -/
def Stage.Relates : Stage → Frame → Frame → Prop
  | .idle, f, g => Frame.InlinedOn name value (· ≠ name) f g
    ∨ ∃ other before after, Frame.Loaded name value other before after f g
  | .ready, f, g =>
    Frame.InlinedOn name value (· ≠ name) f g ∧ f.find? name = some (.fresh value)
  | .spent, f, g => Frame.InlinedOn name value (· ≠ name) f g

/-- The frames in scope, each at its stage. -/
inductive Stage.RelatesAll : List Stage → List Frame → List Frame → Prop
  | nil : RelatesAll [] [] []
  | cons {stage : Stage} {f g : Frame} {stages : List Stage} {fs gs : List Frame} :
    stage.Relates name value f g → RelatesAll stages fs gs →
    RelatesAll (stage :: stages) (f :: fs) (g :: gs)

end

section

variable {name : String} {value : List Segment} {stages : List Stage}

/-! ## New bindings -/

/-- A name that is bound alike anew, where it was bound in both frames or in none. -/
theorem Frame.InlinedOn.put {kept kept' : String → Prop} {f g : Frame} {n : String}
    {b b' : Binding} (alike : Frame.InlinedOn name value kept f g)
    (others : ∀ m, kept' m → m ≠ n → kept m) (same : Binding.Inlined name value b b')
    (bound : (f.find? n).isSome = (g.find? n).isSome) :
    Frame.InlinedOn name value kept' (f.put n b) (g.put n b') := by
  intro m wanted
  rw [Frame.find?_put, Frame.find?_put]
  split
  next here =>
    generalize f.find? n = x, g.find? n = y at bound
    cases x <;> cases y
    · exact .none
    · cases bound
    · cases bound
    · exact .some same
  next apart => exact alike m (others m wanted apart)

theorem isSome_eq_of_rel {α β : Type} {R : α → β → Prop} {x : Option α} {y : Option β}
    (related : Option.Rel R x y) : x.isSome = y.isSome := by
  cases related <;> rfl

/-- When the definition that uses the name is begun, the name is to be used. -/
theorem Frame.Loaded.put {other : String} {before after : List Segment} {f g : Frame}
    (loaded : Frame.Loaded name value other before after f g) {b : Binding}
    (same : Binding.Inlined name value b b) :
    Stage.ready.Relates name value (f.put other b) (g.put other b) := by
  have bound : (f.find? other).isSome = (g.find? other).isSome := by
    rw [loaded.used, loaded.inlined]
    rfl
  refine ⟨loaded.alike.put (fun m apart differs => ⟨apart, differs⟩) same bound, ?_⟩
  rw [Frame.find?_put, if_neg loaded.apart.symm]
  exact loaded.ready

/-- Another name may be bound anew at any stage. -/
theorem Stage.Relates.put {stage : Stage} {f g : Frame} (related : stage.Relates name value f g)
    {n : String} (other : n ≠ name) {b : Binding} (same : Binding.Inlined name value b b) :
    stage.Relates name value (f.put n b) (g.put n b) := by
  have plain (alike : Frame.InlinedOn name value (· ≠ name) f g) :
      Frame.InlinedOn name value (· ≠ name) (f.put n b) (g.put n b) :=
    alike.put (fun _ wanted _ => wanted) same (isSome_eq_of_rel (alike n other))
  cases stage with
  | spent => exact plain related
  | ready =>
    refine ⟨plain related.1, ?_⟩
    rw [Frame.find?_put, if_neg other.symm]
    exact related.2
  | idle =>
    obtain alike | ⟨user, before, after, loaded⟩ := related
    · exact .inl (plain alike)
    · by_cases uses : n = user
      · subst uses
        exact .inl (loaded.put same).1
      · refine .inr ⟨user, before, after, loaded.apart, ?_, ?_, ?_, loaded.unused, ?_⟩
        · rw [Frame.find?_put, if_neg other.symm]
          exact loaded.ready
        · rw [Frame.find?_put, if_neg (Ne.symm uses)]
          exact loaded.used
        · rw [Frame.find?_put, if_neg (Ne.symm uses)]
          exact loaded.inlined
        · exact loaded.alike.put (fun _ wanted _ => wanted) same
            (isSome_eq_of_rel (loaded.alike n ⟨other, uses⟩))

/-- The name itself may be bound anew on one side when it is used. -/
theorem Stage.Relates.put_name {stage : Stage} (used : stage = .ready ∨ stage = .spent)
    {f g : Frame} (related : stage.Relates name value f g) (b : Binding) :
    Stage.spent.Relates name value (f.put name b) g := by
  have alike : Frame.InlinedOn name value (· ≠ name) f g := by
    rcases used with rfl | rfl
    · exact related.1
    · exact related
  intro m apart
  rw [Frame.find?_put, if_neg apart]
  exact alike m apart

namespace Stage

theorem RelatesAll.drop {fs gs : List Frame} (all : RelatesAll name value stages fs gs) (n : Nat) :
    RelatesAll name value (stages.drop n) (fs.drop n) (gs.drop n) := by
  induction n generalizing stages fs gs with
  | zero => exact all
  | succ n ih =>
    cases all with
    | nil => exact .nil
    | cons _ others => exact ih others

/-- Frames that were set aside and are put back. -/
theorem RelatesAll.restore {fs gs fs' gs' : List Frame} (all : RelatesAll name value stages fs gs)
    {n : Nat} (later : RelatesAll name value (stages.drop n) fs' gs') :
    RelatesAll name value stages (fs.take n ++ fs') (gs.take n ++ gs') := by
  induction n generalizing stages fs gs with
  | zero => exact later
  | succ n ih =>
    cases all with
    | nil => exact later
    | cons first others => exact .cons first (ih others later)

/-- A name other than the one is bound in both frames or in none, alike or because its value uses
the one. -/
theorem Relates.find? {stage : Stage} {f g : Frame} (related : stage.Relates name value f g)
    {text : String} (other : text ≠ name) : (f.find? text = none ∧ g.find? text = none)
      ∨ ∃ b b', f.find? text = some b ∧ g.find? text = some b' ∧ (Binding.Inlined name value b b'
        ∨ stage = .idle ∧ ∃ before after, Frame.Loaded name value text before after f g) := by
  have alike (same : Option.Rel (Binding.Inlined name value) (f.find? text) (g.find? text)) :
      (f.find? text = none ∧ g.find? text = none)
        ∨ ∃ b b', f.find? text = some b ∧ g.find? text = some b'
          ∧ (Binding.Inlined name value b b' ∨ stage = .idle
            ∧ ∃ before after, Frame.Loaded name value text before after f g) := by
    generalize found : f.find? text = x, found' : g.find? text = y at same
    cases same with
    | none => exact .inl ⟨rfl, rfl⟩
    | some same => exact .inr ⟨_, _, rfl, rfl, .inl same⟩
  cases stage with
  | ready => exact alike (related.1 text other)
  | spent => exact alike (related text other)
  | idle =>
    obtain plain | ⟨user, before, after, loaded⟩ := related
    · exact alike (plain text other)
    · by_cases uses : text = user
      · subst uses
        exact .inr ⟨_, _, loaded.used, loaded.inlined, .inr ⟨rfl, before, after, loaded⟩⟩
      · exact alike (loaded.alike text ⟨other, uses⟩)

/-- Such a name resolves in the same scope. -/
theorem RelatesAll.resolve? {fs gs : List Frame} (all : RelatesAll name value stages fs gs)
    {text : String} (other : text ≠ name) : (resolve? text fs = none ∧ resolve? text gs = none)
      ∨ ∃ outer b b', resolve? text fs = some (outer, b) ∧ resolve? text gs = some (outer, b')
        ∧ ∃ stage f g stages' fs' gs', stages.drop outer = stage :: stages'
          ∧ fs.drop outer = f :: fs' ∧ gs.drop outer = g :: gs' ∧ (Binding.Inlined name value b b'
            ∨ stage = .idle ∧ ∃ before after, Frame.Loaded name value text before after f g
              ∧ b = .fresh (before ++ .token name :: after)
              ∧ b' = .fresh (before ++ (value ++ after))) := by
  induction all with
  | nil => exact .inl ⟨rfl, rfl⟩
  | @cons stage f g stages fs gs first _ ih =>
    unfold Assembling.resolve?
    obtain ⟨unbound, unbound'⟩ | ⟨b, b', bound, bound', same⟩ := first.find? other
    · rw [unbound, unbound']
      dsimp only
      obtain ⟨none, none'⟩ | ⟨outer, b, b', found, found', place⟩ := ih
      · rw [none, none']
        exact .inl ⟨rfl, rfl⟩
      · rw [found, found']
        exact .inr ⟨outer + 1, b, b', rfl, rfl, place⟩
    · rw [bound, bound']
      refine .inr ⟨0, b, b', rfl, rfl, stage, f, g, stages, fs, gs, rfl, rfl, rfl, ?_⟩
      refine same.imp_right fun ⟨first, before, after, loaded⟩ => ⟨first, before, after, loaded, ?_⟩
      exact ⟨Option.some.inj (bound.symm.trans loaded.used),
        Option.some.inj (bound'.symm.trans loaded.inlined)⟩

end Stage

/-! ## The frames of statement lists -/

theorem lookup_insert {α : Type} {n key : String} (apart : n ≠ key) (a : α)
    (first last : List (String × α)) :
    (first ++ (key, a) :: last).lookup n = (first ++ last).lookup n := by
  rw [List.lookup_append, List.lookup_append, List.lookup_cons, beq_false_of_ne apart]

theorem lookup_inserted {α : Type} {key : String} (a : α) {first : List (String × α)}
    (new : key ∉ first.map Prod.fst) (last : List (String × α)) :
    (first ++ (key, a) :: last).lookup key = some a := by
  have none : first.lookup key = none := by
    rw [List.lookup_eq_none_iff]
    intro d member
    exact bne_iff_ne.mpr fun same => new (List.mem_map.mpr ⟨d, member, same.symm⟩)
  rw [List.lookup_append, none, List.lookup_cons_self]
  rfl

/-- Names that are defined alike, in order, have values that are alike. -/
theorem lookup_rel {α β : Type} {R : α → β → Prop} {ds : List (String × α)}
    {ds' : List (String × β)} (same : List.Forall₂ (fun d d' => d.1 = d'.1 ∧ R d.2 d'.2) ds ds')
    (n : String) : Option.Rel R (ds.lookup n) (ds'.lookup n) := by
  induction same with
  | nil => exact .none
  | @cons d d' _ _ first _ ih =>
    obtain ⟨key, a⟩ := d
    obtain ⟨key', b⟩ := d'
    obtain ⟨rfl, related⟩ := first
    rw [List.lookup_cons, List.lookup_cons]
    by_cases here : n = key
    · rw [here, beq_self_eq_true]
      exact .some related
    · rw [beq_false_of_ne here]
      exact ih

namespace Inlines

/-- Inlining does not change whether a list defines a name twice. -/
theorem Parts.nodup_iff {a b : List Statement} (parts : Parts name value a b) :
    (names a).Nodup ↔ (names b).Nodup := by
  have inserted {first last : List (String × List Segment)}
      (new : name ∉ (first ++ last).map Prod.fst) :
      ((first ++ (name, value) :: last).map Prod.fst).Nodup
        ↔ ((first ++ last).map Prod.fst).Nodup := by
    rw [List.map_append, List.map_cons, List.nodup_middle, ← List.map_append, List.nodup_cons]
    exact and_iff_right new
  unfold names
  cases parts with
  | deeper _ same =>
    generalize definitions a = ds, definitions b = ds' at same
    have names : ds.map Prod.fst = ds'.map Prod.fst := by
      induction same with
      | nil => rfl
      | cons first _ ih => rw [List.map_cons, List.map_cons, first.1, ih]
    rw [names]
  | inChain _ _ _ left right new _ =>
    rw [left, right]
    exact inserted new
  | @inValue _ _ _ first last _ _ _ _ _ _ left split right new _ =>
    have names : (definitions b).map Prod.fst = (first ++ last).map Prod.fst := by
      rw [right, split, List.map_append, List.map_append]
      rfl
    rw [left, names]
    exact inserted new

/-- Nor whether it has a chain. -/
theorem Parts.isEmpty_eq {a b : List Statement} (parts : Parts name value a b) :
    (chains a).isEmpty = (chains b).isEmpty := by
  cases parts with
  | deeper same _ =>
    rw [Bool.eq_iff_iff, List.isEmpty_iff_length_eq_zero, List.isEmpty_iff_length_eq_zero,
      same.length_eq]
  | inChain left right =>
    rw [left, right, Bool.eq_iff_iff]
    simp
  | inValue same => rw [same]

/-- Definitions that are the same, without the name, are bound alike. -/
theorem alike_of_unused {ds : List (String × List Segment)} (n : String)
    (unused : ∀ d ∈ ds, name ∉ Segment.tokensAll d.2) :
    Option.Rel (Binding.Inlined name value) ((ds.lookup n).map .fresh)
      ((ds.lookup n).map .fresh) := by
  cases found : ds.lookup n with
  | none => exact .none
  | some own =>
    obtain ⟨before, after, split, -⟩ := List.lookup_eq_some_iff.mp found
    have member : (n, own) ∈ ds := split ▸ List.mem_append_right _ List.mem_cons_self
    exact .some (.fresh (Segment.inlined_same (unused _ member)))

/-- Beside a definition that is to be used, the others are bound alike. -/
theorem ready_of_fresh {first last : List (String × List Segment)}
    (new : name ∉ (first ++ last).map Prod.fst)
    (unused : ∀ d ∈ first ++ last, name ∉ Segment.tokensAll d.2) :
    Stage.ready.Relates name value
      ((first ++ (name, value) :: last).map fun d => (d.1, .fresh d.2))
      ((first ++ last).map fun d => (d.1, .fresh d.2)) := by
  have newFirst : name ∉ first.map Prod.fst := by
    rw [List.map_append] at new
    exact fun member => new (List.mem_append_left _ member)
  constructor
  · intro n apart
    rw [Frame.find?_fresh, Frame.find?_fresh, lookup_insert apart]
    exact alike_of_unused n unused
  · rw [Frame.find?_fresh, lookup_inserted _ newFirst]
    rfl

/-- Beside a definition and another one that uses it, the others are bound alike. -/
theorem loaded_of_fresh {other : String} {before after : List Segment}
    {first last first' last' : List (String × List Segment)}
    (nodup : ((first ++ (name, value) :: last).map Prod.fst).Nodup)
    (split : first ++ last = first' ++ (other, before ++ .token name :: after) :: last')
    (clean : name ∉ Segment.tokensAll before ∧ name ∉ Segment.tokensAll after)
    (unused : ∀ d ∈ first' ++ last', name ∉ Segment.tokensAll d.2) :
    Frame.Loaded name value other before after
      ((first ++ (name, value) :: last).map fun d => (d.1, .fresh d.2))
      ((first' ++ (other, before ++ (value ++ after)) :: last').map fun d => (d.1, .fresh d.2)) := by
  rw [List.map_append, List.map_cons, List.nodup_middle, ← List.map_append,
    List.nodup_cons] at nodup
  obtain ⟨new, nodup⟩ := nodup
  have newFirst : name ∉ first.map Prod.fst := by
    rw [List.map_append] at new
    exact fun member => new (List.mem_append_left _ member)
  rw [split, List.map_append, List.map_cons] at new nodup
  have apart : other ≠ name := by
    rintro rfl
    exact new (List.mem_append_right _ List.mem_cons_self)
  have otherFirst : other ∉ first'.map Prod.fst := by
    rw [List.nodup_middle, List.nodup_cons] at nodup
    exact fun member => nodup.1 (List.mem_append_left _ member)
  refine ⟨apart, ?_, ?_, ?_, clean, ?_⟩
  · rw [Frame.find?_fresh, lookup_inserted _ newFirst]
    rfl
  · rw [Frame.find?_fresh, lookup_insert apart, split, lookup_inserted _ otherFirst]
    rfl
  · rw [Frame.find?_fresh, lookup_inserted _ otherFirst]
    rfl
  · rintro n ⟨kept, differs⟩
    rw [Frame.find?_fresh, Frame.find?_fresh, lookup_insert kept, split, lookup_insert differs,
      lookup_insert differs]
    exact alike_of_unused n unused

/-- The frames of two lists of which one has a definition inlined, and their chains. The name is to
be used in a chain, or it is used by a definition if at all. -/
theorem Parts.scopes {a b : List Statement} (parts : Parts name value a b)
    (nodup : (names a).Nodup) :
    (Stage.idle.Relates name value ((definitions a).map fun d => (d.1, .fresh d.2))
        ((definitions b).map fun d => (d.1, .fresh d.2))
      ∧ List.Forall₂ (List.Forall₂ (Segment.Inlined name value)) (chains a) (chains b))
    ∨ (Stage.ready.Relates name value ((definitions a).map fun d => (d.1, .fresh d.2))
        ((definitions b).map fun d => (d.1, .fresh d.2))
      ∧ ∃ earlier later before after,
        chains a = earlier ++ (before ++ .token name :: after) :: later
        ∧ chains b = earlier ++ (before ++ (value ++ after)) :: later
        ∧ ∀ segments ∈ before :: after :: (earlier ++ later),
          name ∉ Segment.tokensAll segments) := by
  cases parts with
  | deeper sameChains same =>
    refine .inl ⟨.inl fun n _ => ?_, sameChains⟩
    rw [Frame.find?_fresh, Frame.find?_fresh]
    have values := lookup_rel same n
    generalize (definitions a).lookup n = x, (definitions b).lookup n = y at values
    cases values with
    | none => exact .none
    | some same => exact .some (.fresh same)
  | inChain left right unused left' right' new unused' =>
    rw [left', right']
    exact .inr ⟨ready_of_fresh new unused', _, _, _, _, left, right, unused⟩
  | inValue same unused unusedBefore unusedAfter left split right new unused' =>
    rw [names, left] at nodup
    rw [left, right, same]
    exact .inl ⟨.inr ⟨_, _, _, loaded_of_fresh nodup split ⟨unusedBefore, unusedAfter⟩ unused'⟩,
      List.forall₂_same.mpr fun segments member => Segment.inlined_same (unused _ member)⟩

end Inlines

end

end LayerNet
