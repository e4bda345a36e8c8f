import LayerNet.Proofs.Session.Recording

/-!
# Additions — what deltas do to the tensors of a store

Adding to a gradient changes nothing else, and it allocates the gradient that it adds to. So the
amounts that reach a tensor, one after the other, and an allocation in between come to the same as
the amounts first and the allocation last (`Tensor.settled_settled`). `Store.Settles` says of two
stores that the second has the tensors of the first, each settled with amounts that fit it. It holds
after one entry is replayed (`Session.replay_spec`), and it composes.
-/

namespace LayerNet

namespace Tensor

variable {t : Tensor}

/-- The tensor with an amount added to its gradient. -/
def plus (t : Tensor) (d : Delta) : Tensor :=
  { t with gradient := some (match d with
    | .whole amounts => Buffer.combine (· + ·) t.gradientOrZeros amounts
    | .sparse amounts => t.gradientOrZeros.addAll amounts) }

/-- The tensor with amounts added to its gradient, which is allocated at last if it has to be. -/
def settled (allocates : Bool) (amounts : List Delta) (t : Tensor) : Tensor :=
  if allocates then (amounts.foldl plus t).allocate else amounts.foldl plus t

theorem add_eq_ok {d : Delta} (fits : d.Fits t.toContent) : t.add d = .ok (t.plus d) := by
  cases d with
  | whole amounts => exact if_neg (Classical.not_not.mpr fits)
  | sparse amounts =>
    refine if_pos (List.all_eq_true.mpr fun amount member => ?_)
    exact decide_eq_true (fits amount member)

theorem allocate_allocate : t.allocate.allocate = t.allocate := rfl

theorem plus_allocate (d : Delta) : t.allocate.plus d = t.plus d := rfl

theorem allocate_plus (d : Delta) : (t.plus d).allocate = t.plus d := rfl

/-- It makes no difference when a gradient is allocated. -/
theorem foldl_plus_allocate (amounts : List Delta) :
    amounts.foldl plus t.allocate = (amounts.foldl plus t).allocate := by
  induction amounts generalizing t with
  | nil => rfl
  | cons d amounts ih => rw [List.foldl_cons, List.foldl_cons, plus_allocate, ← ih, allocate_plus]

theorem settled_settled (first second : Bool) (amounts more : List Delta) :
    settled second more (settled first amounts t)
      = settled (first || second) (amounts ++ more) t := by
  cases first <;> cases second <;>
    simp only [settled, Bool.or_true, Bool.or_false, Bool.or_self, if_true, if_false,
      Bool.false_eq_true, List.foldl_append, foldl_plus_allocate, allocate_allocate]

theorem toContent_foldl_plus (amounts : List Delta) :
    (amounts.foldl plus t).toContent = t.toContent := by
  induction amounts generalizing t with
  | nil => rfl
  | cons d amounts ih => exact ih

@[simp] theorem toContent_settled (allocates : Bool) (amounts : List Delta) :
    (settled allocates amounts t).toContent = t.toContent := by
  cases allocates <;> exact toContent_foldl_plus amounts

theorem size_gradientOrZeros (sized : ∀ g : Buffer, t.gradient = some g → g.size = t.count) :
    t.gradientOrZeros.size = t.count := by
  unfold gradientOrZeros
  cases gradient : t.gradient with
  | none => exact Buffer.size_zeros _
  | some g => exact sized g gradient

/-- Amounts that fit keep the size of a gradient. -/
theorem size_foldl_plus {amounts : List Delta} (fits : ∀ d ∈ amounts, d.Fits t.toContent)
    (sized : t.gradientOrZeros.size = t.count) :
    (amounts.foldl plus t).gradientOrZeros.size = t.count := by
  induction amounts generalizing t with
  | nil => exact sized
  | cons d amounts ih =>
    obtain ⟨first, fits⟩ := List.forall_mem_cons.mp fits
    refine ih fits ?_
    cases d with
    | whole amounts =>
      have size : amounts.size = t.count := first
      show (Buffer.combine (· + ·) t.gradientOrZeros amounts).size = t.count
      rw [Buffer.size_combine, sized, size, Nat.min_self]
    | sparse amounts => exact (Buffer.size_addAll _ _).trans sized

end Tensor

/-- The amounts for one tensor, in order. -/
def amountsTo (id : TensorId) (amounts : List (TensorId × Delta)) : List Delta :=
  (amounts.filter fun amount => amount.1 = id).map Prod.snd

theorem amountsTo_append (id : TensorId) (xs ys : List (TensorId × Delta)) :
    amountsTo id (xs ++ ys) = amountsTo id xs ++ amountsTo id ys := by
  rw [amountsTo, List.filter_append, List.map_append]
  rfl

theorem amountsTo_cons (id other : TensorId) (d : Delta) (xs : List (TensorId × Delta)) :
    amountsTo id ((other, d) :: xs)
      = if other = id then d :: amountsTo id xs else amountsTo id xs := by
  unfold amountsTo
  split
  next same => rw [List.filter_cons_of_pos (by simpa using same), List.map_cons]
  next different => rw [List.filter_cons_of_neg (by simpa using different)]

theorem mem_amountsTo {id : TensorId} {amounts : List (TensorId × Delta)} {d : Delta} :
    d ∈ amountsTo id amounts ↔ (id, d) ∈ amounts := by
  simp [amountsTo]

theorem amountsTo_eq_nil {id : TensorId} {amounts : List (TensorId × Delta)}
    (other : ∀ amount ∈ amounts, amount.1 ≠ id) : amountsTo id amounts = [] := by
  refine List.eq_nil_iff_forall_not_mem.mpr fun d member => ?_
  exact other _ (mem_amountsTo.mp member) rfl

/-- The second store has the tensors of the first, settled with amounts that fit them. -/
structure Store.Settles (before after : Store) (allocates : TensorId → Bool)
    (amounts : List (TensorId × Delta)) : Prop where
  size : after.tensors.size = before.tensors.size
  tensors : ∀ id, after.get? id
    = (before.get? id).map (Tensor.settled (allocates id) (amountsTo id amounts))
  fits : ∀ id t, before.get? id = some t → ∀ d ∈ amountsTo id amounts, d.Fits t.toContent

namespace Store.Settles

variable {s s' s'' : Store} {allocates allocates' : TensorId → Bool}
  {amounts amounts' : List (TensorId × Delta)}

theorem refl (s : Store) : s.Settles s (fun _ => false) [] where
  size := rfl
  tensors id := by cases s.get? id <;> rfl
  fits _ _ _ _ member := absurd member List.not_mem_nil

theorem content?_eq (settles : s.Settles s' allocates amounts) (id : TensorId) :
    s'.content? id = s.content? id := by
  rw [content?, content?, settles.tensors, Option.map_map]
  cases s.get? id with
  | none => rfl
  | some t => exact congrArg some (Tensor.toContent_settled _ _)

theorem keeps (settles : s.Settles s' allocates amounts) : s.Keeps s' :=
  fun id _ there => (settles.content?_eq id).trans there

theorem trans (first : s.Settles s' allocates amounts)
    (second : s'.Settles s'' allocates' amounts') : s.Settles s'' (fun id => allocates id || allocates' id) (amounts ++ amounts') where
  size := second.size.trans first.size
  tensors id := by
    rw [second.tensors, first.tensors, Option.map_map, amountsTo_append]
    cases s.get? id with
    | none => rfl
    | some t => exact congrArg some (Tensor.settled_settled _ _ _ _)
  fits id t there d member := by
    rw [amountsTo_append, List.mem_append] at member
    rcases member with member | member
    · exact first.fits id t there d member
    · have there' : s'.get? id = some _ := (first.tensors id).trans (congrArg _ there)
      have fits := second.fits id _ there' d member
      rwa [Tensor.toContent_settled] at fits

theorem wellFormed (settles : s.Settles s' allocates amounts) (wf : s.WellFormed) :
    s'.WellFormed where
  contents id t there := by
    rw [settles.tensors] at there
    obtain ⟨old, tensor, rfl⟩ := Option.map_eq_some_iff.mp there
    rw [Tensor.toContent_settled]
    exact wf.contents id old tensor
  gradients id t there g gradient := by
    rw [settles.tensors] at there
    obtain ⟨old, tensor, rfl⟩ := Option.map_eq_some_iff.mp there
    have size := Tensor.size_foldl_plus (settles.fits id old tensor)
      (Tensor.size_gradientOrZeros (wf.gradients id old tensor))
    have same : g = (Tensor.settled (allocates id) (amountsTo id amounts) old).gradientOrZeros := by
      rw [Tensor.gradientOrZeros, gradient, Option.getD_some]
    have content := congrArg Content.count (Tensor.toContent_settled (t := old) (allocates id)
      (amountsTo id amounts))
    rw [content, same]
    cases allocates id <;> exact size

end Store.Settles

end LayerNet
