import LayerNet.Operation.Product
import LayerNet.Proofs.Coordinates
import LayerNet.Proofs.Operation.Returns
import LayerNet.Proofs.Operation.SampleWindows

/-!
# Products — one loop for every layout of the operands

The gradients of a matrix product are products again, with an operand transposed. No transpose is
made: one loop over rows, inner axis and columns reads an operand that is stored with rows and
columns exchanged at the places where its entries are (`Matrix.accumulate`). An access outside of a
buffer would end the run. For operands of matching size there is none, and the loop makes a list of
additions (`Matrix.accumulate_eq`), which is the one for operands with rows and columns exchanged
beforehand (`Matrix.additions_copied`).

Those that reach one element are the products along the inner axis, in order and without those whose
left factor is zero (`Matrix.filter_additions`). So the product that is tabulated element by element
is what the loop makes of zeros (`Matrix.product_eq`).
-/

namespace LayerNet

namespace Matrix

/-- Where an entry of a matrix stands that is stored as it is, or with rows and columns exchanged. -/
def position (exchanged : Bool) (rows columns i j : Nat) : Nat :=
  if exchanged then j * rows + i else i * columns + j

/-- The matrix of a buffer in which it is stored as it is, or with rows and columns exchanged. -/
def stored (exchanged : Bool) (rows columns : Nat) (b : Buffer) : Entries :=
  if exchanged then transpose (entries b rows) else entries b columns

/-- The buffer, or a copy in which rows and columns are exchanged back. -/
def copied (exchanged : Bool) (rows columns : Nat) (b : Buffer) : Buffer :=
  if exchanged then Buffer.tabulate (rows * columns) fun k => b.element (k % columns * rows + k / columns)
  else b

/-- Adds a product to a buffer, in place and loop by loop. Rows of the left operand whose factor is
zero are passed over. -/
def accumulate (left right : Bool) (rows inner columns : Nat) (a b out : Buffer) : Checked Buffer :=
  (List.range rows).foldlM (fun out i =>
    (List.range inner).foldlM (fun out p => do
      let factor ← Outcome.get a[position left rows inner i p]?
      if factor == 0 then return out
      else
        (List.range columns).foldlM (fun out j => do
          let entry ← Outcome.get b[position right inner columns p j]?
          let sum ← Outcome.get out[i * columns + j]?
          return out.setIfInBounds (i * columns + j) (sum + factor * entry)) out) out) out

/-- The products of a row's factor with a row, and where each is added. -/
def additionsOf (a b : Entries) (columns i p : Nat) : List (Nat × Float32) :=
  if a i p == 0 then [] else (List.range columns).map fun j => (i * columns + j, a i p * b p j)

/-- The additions that make a product, in order. -/
def additions (a b : Entries) (rows inner columns : Nat) : List (Nat × Float32) :=
  (List.range rows).flatMap fun i => (List.range inner).flatMap (additionsOf a b columns i)

/-! ## Layouts -/

section Layout

variable {exchanged : Bool} {rows columns i j : Nat}

theorem position_lt (row : i < rows) (column : j < columns) :
    position exchanged rows columns i j < rows * columns := by
  cases exchanged with
  | false => exact mul_add_lt row column
  | true => exact Nat.mul_comm rows columns ▸ mul_add_lt column row

theorem stored_apply (b : Buffer) :
    stored exchanged rows columns b i j = b.element (position exchanged rows columns i j) := by
  cases exchanged <;> rfl

/-- The copy has the matrix as it is. -/
theorem entries_copied (b : Buffer) (row : i < rows) (column : j < columns) :
    entries (copied exchanged rows columns b) columns i j = stored exchanged rows columns b i j := by
  cases exchanged with
  | false => rfl
  | true =>
    show (Buffer.tabulate _ _).element (i * columns + j) = b.element (j * rows + i)
    rw [Buffer.element_tabulate _ (mul_add_lt row column), mul_add_div column, mul_add_mod column]

theorem size_copied {b : Buffer} (size : b.size = rows * columns) :
    (copied exchanged rows columns b).size = rows * columns := by
  cases exchanged with
  | false => exact size
  | true => exact Buffer.size_tabulate _ _

end Layout

section Additions

variable {rows inner columns : Nat} {a a' b b' : Entries}

theorem additions_congr (left : ∀ i < rows, ∀ p < inner, a i p = a' i p)
    (right : ∀ p < inner, ∀ j < columns, b p j = b' p j) :
    additions a b rows inner columns = additions a' b' rows inner columns := by
  refine List.flatMap_congr fun i row => List.flatMap_congr fun p within => ?_
  rw [List.mem_range] at row within
  unfold additionsOf
  rw [left i row p within]
  split
  · rfl
  · refine List.map_congr_left fun j column => ?_
    rw [right p within j (List.mem_range.mp column)]

/-- An operand that is stored with rows and columns exchanged is added as its copy is. -/
theorem additions_copied (left right : Bool) (a b : Buffer) :
    additions (stored left rows inner a) (stored right inner columns b) rows inner columns
      = additions (entries (copied left rows inner a) inner)
        (entries (copied right inner columns b) columns) rows inner columns :=
  additions_congr (fun _ row _ within => (entries_copied a row within).symm)
    fun _ within _ column => (entries_copied b within column).symm

/-- The additions to one element are the products along the inner axis, in order, but for those
whose left factor is zero. -/
theorem filter_additions {i j : Nat} (row : i < rows) (column : j < columns) :
    ((additions a b rows inner columns).filter (·.1 = i * columns + j)).map Prod.snd
      = ((List.range inner).filter fun p => !(a i p == 0)).map fun p => a i p * b p j := by
  have own (p : Nat) : (additionsOf a b columns i p).filter (·.1 = i * columns + j)
      = if a i p == 0 then [] else [(i * columns + j, a i p * b p j)] := by
    unfold additionsOf
    split
    · rfl
    · rw [List.filter_map, filter_eq_singleton List.nodup_range (List.mem_range.mpr column)]
      · rfl
      · intro j' column'
        simp
  have others (i' : Nat) (other : i' ≠ i) :
      ((List.range inner).flatMap (additionsOf a b columns i')).filter (·.1 = i * columns + j)
        = [] := by
    refine List.filter_eq_nil_iff.mpr fun addition member => ?_
    obtain ⟨p, -, member⟩ := List.mem_flatMap.mp member
    unfold additionsOf at member
    split at member
    · cases member
    · obtain ⟨j', column', rfl⟩ := List.mem_map.mp member
      rw [List.mem_range] at column'
      simp [mul_add_inj column' column, other]
  rw [additions, List.filter_flatMap, flatMap_range_of_single row others, List.filter_flatMap]
  induction List.range inner with
  | nil => rfl
  | cons p rest ih =>
    rw [List.flatMap_cons, List.map_append, ih, own, List.filter_cons]
    cases a i p == 0 <;> rfl

theorem dot_eq (i j : Nat) : dot a b inner i j = Buffer.tally
    (((List.range inner).filter fun p => !(a i p == 0)).map fun p => a i p * b p j) := by
  rw [Buffer.tally, List.foldl_map, List.foldl_filter]
  refine List.foldl_ext _ _ _ fun sum p _ => ?_
  cases a i p == 0 <;> rfl

/-- What the additions make of one element of a buffer. -/
theorem element_additions {out : Buffer} (size : out.size = rows * columns) {i j : Nat}
    (row : i < rows) (column : j < columns) :
    (out.addAll (additions a b rows inner columns)).element (i * columns + j)
      = (((List.range inner).filter fun p => !(a i p == 0)).map fun p => a i p * b p j).foldl (· + ·)
        (out.element (i * columns + j)) := by
  rw [Buffer.element_addAll (size ▸ mul_add_lt row column), filter_additions row column]

theorem element_product {i j : Nat} (row : i < rows) (column : j < columns) :
    (product a b rows inner columns).element (i * columns + j) = dot a b inner i j := by
  rw [product, Buffer.element_tabulate _ (mul_add_lt row column), mul_add_div column,
    mul_add_mod column]

/-- A product is what its additions make of zeros. -/
theorem product_eq (a b : Entries) (rows inner columns : Nat) : product a b rows inner columns
    = (Buffer.zeros (rows * columns)).addAll (additions a b rows inner columns) := by
  refine Array.ext ?_ fun k small small' => ?_
  · rw [product, Buffer.size_tabulate, Buffer.size_addAll, Buffer.size_zeros]
  · rw [← Buffer.element_of_lt small, ← Buffer.element_of_lt small']
    rw [product, Buffer.size_tabulate] at small
    have row : k / columns < rows := Nat.div_lt_of_lt_mul (Nat.mul_comm rows columns ▸ small)
    have column : k % columns < columns :=
      Nat.mod_lt k (Nat.pos_of_mul_pos_left (Nat.zero_lt_of_lt small))
    rw [← Nat.div_add_mod' k columns, element_product row column,
      element_additions (Buffer.size_zeros _) row column, Buffer.element_zeros]
    exact dot_eq _ _

end Additions

/-! ## The loop -/

theorem element_eq_get {b : Buffer} {i : Nat} (inside : i < b.size) :
    (Outcome.get b[i]? : Checked Float32) = .ok (b.element i) := by
  rw [Buffer.element_of_lt inside, Array.getElem?_eq_getElem inside]
  rfl

theorem setIfInBounds_eq_addAt {b : Buffer} {i : Nat} (inside : i < b.size) (value : Float32) :
    b.setIfInBounds i (b.element i + value) = b.addAt i value := by
  refine Array.ext (by simp) fun k small small' => ?_
  rw [Array.size_setIfInBounds] at small
  rw [Array.getElem_setIfInBounds small, Buffer.element_of_lt inside]
  simp only [Buffer.addAt, Array.getElem_modify]
  split
  next here => simp only [here]
  · rfl

/-- Steps that each make additions in a buffer of one size make them one after the other. -/
theorem foldlM_addAll {α : Type} {size : Nat} {f : Buffer → α → Checked Buffer}
    {g : α → List (Nat × Float32)} {xs : List α}
    (each : ∀ x ∈ xs, ∀ out : Buffer, out.size = size → f out x = .ok (out.addAll (g x)))
    {out : Buffer} (sized : out.size = size) :
    xs.foldlM f out = .ok (out.addAll (xs.flatMap g)) := by
  induction xs generalizing out with
  | nil => rfl
  | cons x xs ih =>
    obtain ⟨first, rest⟩ := List.forall_mem_cons.mp each
    rw [List.foldlM_cons, first out sized]
    refine (ih rest (by rwa [Buffer.size_addAll])).trans ?_
    rw [List.flatMap_cons, Buffer.addAll, Buffer.addAll, Buffer.addAll, List.foldl_append]

/-- On operands of matching size the loop makes no access outside of a buffer, and makes the
additions of the product. -/
theorem accumulate_eq (left right : Bool) {rows inner columns : Nat} {a b out : Buffer}
    (sizeA : a.size = rows * inner) (sizeB : b.size = inner * columns)
    (sizeOut : out.size = rows * columns) :
    accumulate left right rows inner columns a b out = .ok (out.addAll
      (additions (stored left rows inner a) (stored right inner columns b) rows inner columns)) := by
  refine foldlM_addAll (fun i row out size => ?_) sizeOut
  refine foldlM_addAll (fun p within out size => ?_) size
  rw [List.mem_range] at row within
  rw [element_eq_get (sizeA ▸ position_lt row within)]
  dsimp only [bind, Except.bind]
  unfold additionsOf
  rw [stored_apply]
  split
  · rfl
  · rw [← List.flatMap_singleton' (List.map _ _), List.flatMap_map]
    refine foldlM_addAll (fun j column out size => ?_) size
    rw [List.mem_range] at column
    have inside : i * columns + j < out.size := size ▸ mul_add_lt row column
    rw [element_eq_get (sizeB ▸ position_lt within column), element_eq_get inside]
    dsimp only
    rw [stored_apply]
    exact congrArg Except.ok (setIfInBounds_eq_addAt inside _)

end Matrix

end LayerNet
