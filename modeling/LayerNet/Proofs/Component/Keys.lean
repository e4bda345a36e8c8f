import LayerNet.Component.Normal
import LayerNet.Proofs.Architecture.Reading
import LayerNet.Proofs.Component.Invariance
import LayerNet.Proofs.Digraph.Degree
import LayerNet.Proofs.Digraph.Rewiring

/-!
# Keys of components — no two components share one

A key is a definition's name, or it is numbered: a name or a title, a `#`, and the number of its
component. Digits have no `#` in them, so what stands behind the last `#` of a numbered key is the
number (`numbered_inj`). Names have none, either, and a name is taken as it is only where no
component has it. So the keys of components, in order, are `Keyed`: no two are the same, and those
with a `#` are numbered by where they stand. The next key keeps that, be it a new name or the next
number (`Keyed.concat`).

Assembly keeps it as long as the names that are bound are names (`Assembling.naming`), which they
are in what is read; and normalization adds numbered keys only (`AddsNumbered`).
-/

namespace LayerNet

/-! ## Numbered keys -/

/-- A title and a number. -/
def numbered (title : String) (v : Nat) : String := title ++ "#" ++ toString v

theorem toList_numbered (title : String) (v : Nat) :
    (numbered title v).toList = title.toList ++ '#' :: (Nat.repr v).toList := by
  rw [numbered, String.toList_append, String.toList_append, List.append_assoc]
  rfl

theorem mark_mem_numbered (title : String) (v : Nat) : '#' ∈ (numbered title v).toList := by
  rw [toList_numbered]
  exact List.mem_append_right _ List.mem_cons_self

theorem mark_not_mem_repr (v : Nat) : '#' ∉ (Nat.repr v).toList := by
  intro member
  have digits : '#' ∈ Nat.toDigits 10 v := Nat.toList_repr ▸ member
  exact absurd (Nat.isDigit_of_mem_toDigits (by decide) (by decide) digits) (by decide)

/-- What stands behind the last occurrence of a character. -/
theorem eq_of_append_cons_eq {c : Char} {before before' rest rest' : List Char}
    (same : before ++ c :: rest = before' ++ c :: rest') (last : c ∉ rest) (last' : c ∉ rest') :
    rest = rest' := by
  have shorter {as ys zs : List Char} (split : c :: ys = as ++ c :: zs) (none : c ∉ ys) :
      ys = zs := by
    cases as with
    | nil => exact (List.cons.inj split).2
    | cons a as =>
      refine absurd ?_ none
      rw [(List.cons.inj split).2]
      exact List.mem_append_right _ List.mem_cons_self
  rcases List.append_eq_append_iff.mp same with ⟨as, -, split⟩ | ⟨as, -, split⟩
  · exact shorter split last
  · exact (shorter split last').symm

/-- Numbered keys tell their numbers. -/
theorem numbered_inj {title title' : String} {u v : Nat}
    (same : numbered title u = numbered title' v) : u = v := by
  have texts := congrArg String.toList same
  rw [toList_numbered, toList_numbered] at texts
  have digits := eq_of_append_cons_eq texts (mark_not_mem_repr u) (mark_not_mem_repr v)
  rw [Nat.toList_repr, Nat.toList_repr] at digits
  have read := congrArg (fun ds => Nat.ofDigitChars 10 ds 0) digits
  simpa only [Nat.ofDigitChars_ten_toDigits] using read

/-! ## Keys in order -/

/-- No two keys are the same, and the keys with a `#` are numbered by where they stand. -/
structure Keyed (keys : List String) : Prop where
  nodup : keys.Nodup
  marked : ∀ v key, keys[v]? = some key → '#' ∈ key.toList → ∃ title, key = numbered title v

namespace Keyed

theorem nil : Keyed [] := ⟨List.nodup_nil, fun _ _ none => nomatch none⟩

variable {keys : List String} (keyed : Keyed keys)
include keyed

/-- One key more, which is new and, if it has a `#`, numbered. -/
theorem concat {key : String} (new : key ∉ keys)
    (fits : '#' ∈ key.toList → ∃ title, key = numbered title keys.length) :
    Keyed (keys ++ [key]) where
  nodup := by
    rw [← List.concat_eq_append]
    exact keyed.nodup.concat new
  marked v key' there mark := by
    rcases Nat.lt_or_ge v keys.length with before | after
    · rw [List.getElem?_append_left before] at there
      exact keyed.marked v key' there mark
    · rw [List.getElem?_append_right after] at there
      obtain ⟨last, rfl⟩ := List.getElem?_eq_some_iff.mp there
      have here : v = keys.length := by
        rw [List.length_singleton] at last
        omega
      subst here
      simp only [Nat.sub_self, List.getElem_cons_zero] at mark ⊢
      exact fits mark

/-- A numbered key of the next number is new, since no key before it has its number. -/
theorem concat_numbered (title : String) : Keyed (keys ++ [numbered title keys.length]) := by
  refine keyed.concat (fun member => ?_) fun _ => ⟨title, rfl⟩
  obtain ⟨v, there⟩ := List.mem_iff_getElem?.mp member
  obtain ⟨title', same⟩ := keyed.marked v _ there (mark_mem_numbered title keys.length)
  have inside : v < keys.length := (List.getElem?_eq_some_iff.mp there).1
  exact absurd (numbered_inj same) (Nat.ne_of_gt inside)

theorem concat_name {name : String} (plain : '#' ∉ name.toList) (new : name ∉ keys) :
    Keyed (keys ++ [name]) :=
  keyed.concat new fun mark => absurd mark plain

end Keyed

/-- No key was added, or a numbered one of the next number. -/
def AddsNumbered (keys keys' : List String) : Prop :=
  keys' = keys ∨ ∃ title, keys' = keys ++ [numbered title keys.length]

theorem AddsNumbered.keyed {keys keys' : List String} (adds : AddsNumbered keys keys')
    (keyed : Keyed keys) : Keyed keys' := by
  rcases adds with rfl | ⟨title, rfl⟩
  · exact keyed
  · exact keyed.concat_numbered title

/-- Steps that add numbered keys only keep the keys of what they change apart. -/
theorem keyed_foldl {α β : Type} (keys : α → List String) {step : α → β → α}
    (adds : ∀ a x, AddsNumbered (keys a) (keys (step a x))) (xs : List β) {a : α}
    (keyed : Keyed (keys a)) : Keyed (keys (xs.foldl step a)) := by
  induction xs generalizing a with
  | nil => exact keyed
  | cons x xs ih => exact ih ((adds a x).keyed keyed)

/-! ## Assembly -/

/-- The keys of the components, in order. -/
def ComponentGraph.keys (c : ComponentGraph) : List String :=
  c.graph.vertices.toList.map Component.key

namespace ComponentGraph

theorem length_keys (c : ComponentGraph) : c.keys.length = c.size := by
  rw [keys, List.length_map, Array.length_toList]
  rfl

theorem keys_of_push {c c' : ComponentGraph} {component : Component}
    (pushed : c'.graph.vertices = c.graph.vertices.push component) :
    c'.keys = c.keys ++ [component.key] := by
  rw [keys, pushed, Array.toList_push, List.map_append]
  rfl

/-- A component under a name, or under none, keeps the keys apart. -/
theorem keyed_add {c : ComponentGraph} (keyed : Keyed c.keys) {name : Option String}
    (plain : ∀ x ∈ name, '#' ∉ x.toList) (blueprint : Blueprint) :
    Keyed (c.add name blueprint).keys := by
  have pushed : (c.add name blueprint).graph.vertices
      = c.graph.vertices.push ⟨c.freshKey name blueprint, blueprint⟩ := rfl
  have next (title : String) : Keyed (c.keys ++ [numbered title c.size]) :=
    c.length_keys ▸ keyed.concat_numbered title
  rw [keys_of_push pushed]
  dsimp only
  cases name with
  | none => exact next blueprint.title
  | some name =>
    rw [freshKey]
    split
    · exact next name
    next free =>
      refine keyed.concat_name (plain name rfl) fun member => free ?_
      obtain ⟨component, there, same⟩ := List.mem_map.mp member
      exact Array.any_eq_true'.mpr ⟨component, Array.mem_toList_iff.mp there, beq_iff_eq.mpr same⟩

end ComponentGraph

/-- A name has no `#` in it. -/
theorem IsIdentifier.mark_not_mem {cs : List Char} (named : IsIdentifier cs) : '#' ∉ cs := by
  intro member
  have word := named.all_word '#' member
  revert word
  decide

namespace Assembling

/-- The keys so far are apart, names are names, and what is to be instantiated is well formed. -/
def naming : Invariant where
  graph c := Keyed c.keys
  name x := IsIdentifier x.toList
  segment := Segment.WellFormed
  ends _ _ := True
  mono _ _ := trivial

theorem admits_naming {statements : List Statement}
    (formed : Statement.AllWellFormed statements) : naming.Admits statements where
  chains chain member := by
    obtain ⟨statement, among, is⟩ := List.mem_filterMap.mp member
    have formed := Statement.allWellFormed_iff.mp formed statement among
    cases statement with
    | chain segments =>
      cases is
      exact Segment.allWellFormed_iff.mp formed.2
    | define => exact nomatch is
  definitions name value member := by
    obtain ⟨statement, among, is⟩ := List.mem_filterMap.mp member
    have formed := Statement.allWellFormed_iff.mp formed statement among
    cases statement with
    | chain => exact nomatch is
    | define =>
      cases is
      exact ⟨formed.1, Segment.allWellFormed_iff.mp formed.2.2⟩

theorem closed_naming : naming.Closed where
  add keyed _ named := ComponentGraph.keyed_add keyed (fun x is => (named x is).mark_not_mem) _
  leaf _ := trivial
  link keyed _ _ _ _ linked := by
    unfold ComponentGraph.link at linked
    split at linked
    · exact nomatch linked
    · cases linked
      exact keyed
  chain _ _ := trivial
  module _ _ _ := trivial
  exits keyed _ _ := keyed
  body formed := admits_naming formed.2

end Assembling

namespace ComponentGraph

theorem keyed_of_assemble {statements : List Statement} (formed : IsWellFormed statements)
    {assembled : Assembled} (success : assemble statements = .ok assembled) :
    Keyed assembled.components.keys :=
  (Assembling.closed_naming.of_assemble Keyed.nil (Assembling.admits_naming formed.2) success).1

/-! ## Normalization -/

/-- A component without a name has its blueprint's title and its number. -/
theorem addsNumbered_of_push {c c' : ComponentGraph} {blueprint : Blueprint}
    (pushed : c'.graph.vertices = c.graph.vertices.push (c.fresh blueprint)) :
    AddsNumbered c.keys c'.keys := by
  refine .inr ⟨blueprint.title, ?_⟩
  rw [length_keys]
  exact keys_of_push pushed

theorem addsNumbered_closeModule (c : ComponentGraph) (exits : List Nat) :
    AddsNumbered c.keys (c.closeModule exits).keys := by
  unfold closeModule
  dsimp only
  split
  · exact .inl rfl
  · exact addsNumbered_of_push (Digraph.vertices_addEdges (c.add none .concat).graph _)

theorem addsNumbered_joinRoots (c : ComponentGraph) : AddsNumbered c.keys c.joinRoots.keys := by
  unfold joinRoots
  dsimp only
  split
  · exact .inl rfl
  · exact addsNumbered_of_push (Digraph.vertices_addEdges (c.add none .split).graph _)

theorem addsNumbered_splitFanOut (c : ComponentGraph) (v : Nat) :
    AddsNumbered c.keys (c.splitFanOut v).keys := by
  unfold splitFanOut
  split
  · exact addsNumbered_of_push (Digraph.vertices_insertAfter c.graph v _)
  · exact .inl rfl

theorem addsNumbered_joinFanIn (c : ComponentGraph) (v : Nat) :
    AddsNumbered c.keys (c.joinFanIn v).keys := by
  unfold joinFanIn
  split
  · exact addsNumbered_of_push (Digraph.vertices_insertBefore c.graph v _)
  · exact .inl rfl

theorem keyed_of_normalize {c normal : ComponentGraph} (keyed : Keyed c.keys)
    (success : c.normalize = .ok normal) : Keyed normal.keys := by
  unfold normalize at success
  split at success
  · exact nomatch success
  · cases success
    have closed : Keyed c.closeModules.keys :=
      keyed_foldl keys addsNumbered_closeModule c.exits keyed
    have rooted := (addsNumbered_joinRoots c.closeModules).keyed closed
    exact keyed_foldl keys addsNumbered_joinFanIn _
      (keyed_foldl keys addsNumbered_splitFanOut _ rooted)

end ComponentGraph

end LayerNet
