import LayerNet.Component.Assembly

/-!
# Frames — the bindings of one statement list

Putting a binding changes what the name stands for and nothing else (`Frame.find?_put`). A statement
list has a frame if it defines no name twice, and the frame binds every name to its value
(`Assembling.frameOf_eq_ok_iff`).
-/

namespace LayerNet

namespace Frame

theorem find?_put (f : Frame) (name other : String) (binding : Binding) :
    (f.put name binding).find? other
      = if other = name then (f.find? name).map fun _ => binding else f.find? other := by
  induction f with
  | nil => split <;> rfl
  | cons entry f ih =>
    obtain ⟨key, old⟩ := entry
    show List.lookup other
        ((if key = name then (key, binding) else (key, old)) :: Frame.put f name binding)
      = if other = name then (List.lookup name ((key, old) :: f)).map _
        else List.lookup other ((key, old) :: f)
    have ih : List.lookup other (Frame.put f name binding)
      = if other = name then (List.lookup name f).map fun _ => binding
        else List.lookup other f := ih
    by_cases here : key = name
    · subst here
      rw [if_pos rfl, List.lookup_cons, List.lookup_cons, List.lookup_cons, ih]
      by_cases same : other = key
      · subst same
        simp
      · rw [if_neg same, if_neg same, beq_false_of_ne same]
    · rw [if_neg here, List.lookup_cons, List.lookup_cons, List.lookup_cons, ih,
        beq_false_of_ne (Ne.symm here)]
      by_cases same : other = name
      · subst same
        rw [if_pos rfl, if_pos rfl, beq_false_of_ne (Ne.symm here)]
      · rw [if_neg same, if_neg same]

/-- In the frame of definitions a name is bound to its value. -/
theorem find?_fresh (ds : List (String × List Segment)) (name : String) :
    find? (ds.map fun d => (d.1, .fresh d.2)) name = (ds.lookup name).map .fresh := by
  induction ds with
  | nil => rfl
  | cons d ds ih =>
    rw [find?] at ih ⊢
    rw [List.map_cons, List.lookup_cons, List.lookup_cons, ih]
    split <;> rfl

theorem isSome_find?_iff {f : Frame} {name : String} :
    (f.find? name).isSome ↔ name ∈ f.map Prod.fst := by
  rw [find?, List.lookup_isSome_iff, List.mem_map]
  exact exists_congr fun entry => and_congr_right fun _ => beq_iff_eq.trans eq_comm

end Frame

namespace Assembling

/-- The frame of a statement list binds the defined names to their values, and there is one if no
name is defined twice. -/
theorem frameOf_eq_ok_iff {statements : List Statement} {s s' : Assembly} {f : Frame} :
    (frameOf statements).run s = .ok (f, s') ↔ ((definitions statements).map Prod.fst).Nodup
      ∧ f = ((definitions statements).map fun d => (d.1, .fresh d.2)) ∧ s' = s := by
  suffices all : ∀ (ds : List (String × List Segment)) (g : Frame), (g.map Prod.fst).Nodup →
      ((ds.foldlM (fun (f : Frame) d => if (f.find? d.1).isSome then fail (.duplicateVertex d.1)
        else return f ++ [(d.1, .fresh d.2)]) g : Assembling Frame).run s = .ok (f, s')
        ↔ (g.map Prod.fst ++ ds.map Prod.fst).Nodup
          ∧ f = g ++ (ds.map fun d => (d.1, .fresh d.2)) ∧ s' = s) from
    all (definitions statements) [] .nil
  intro ds
  induction ds with
  | nil =>
    intro g nodup
    rw [List.map_nil, List.append_nil, List.map_nil, List.append_nil]
    constructor
    · rintro ⟨⟩
      exact ⟨nodup, rfl, rfl⟩
    · rintro ⟨-, rfl, rfl⟩
      rfl
  | cons d ds ih =>
    intro g nodup
    rw [List.foldlM_cons, List.map_cons, List.map_cons]
    by_cases bound : (g.find? d.1).isSome
    · rw [if_pos bound]
      refine ⟨nofun, fun ⟨apart, _⟩ => ?_⟩
      have member := Frame.isSome_find?_iff.mp bound
      exact absurd rfl ((List.nodup_append.mp apart).2.2 d.1 member d.1 List.mem_cons_self)
    · rw [if_neg bound, pure_bind]
      have new : d.1 ∉ g.map Prod.fst := bound ∘ Frame.isSome_find?_iff.mpr
      rw [ih]
      · simp [List.append_assoc]
      · rw [List.map_append, List.nodup_append]
        refine ⟨nodup, by simp, fun a old b last same => new ?_⟩
        rw [List.map_cons, List.map_nil, List.mem_singleton] at last
        exact last ▸ same ▸ old

/-- Without a name that is defined twice, there is a frame whatever the state. -/
theorem frameOf_eq {statements : List Statement}
    (nodup : ((definitions statements).map Prod.fst).Nodup) :
    frameOf statements = pure ((definitions statements).map fun d => (d.1, .fresh d.2)) :=
  funext fun _ => frameOf_eq_ok_iff.mpr ⟨nodup, rfl, rfl⟩

end Assembling

end LayerNet
