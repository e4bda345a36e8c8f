import LayerNet.Operation.Rule

/-!
# Matrix products — sums over the inner axis, in order

An element of a product is summed over the inner axis from the left; where the left factor is zero
the term is left out, so an infinite right factor does no harm there. Either operand can be read
transposed, which is how the gradients are taken: of the left operand `g · bᵀ`, of the right one
`aᵀ · g`.
-/

namespace LayerNet

/-- A matrix as a function of row and column. -/
abbrev Matrix.Entries := Nat → Nat → Float32

namespace Matrix

/-- The matrix in a row-major buffer of the given width. -/
def entries (b : Buffer) (width : Nat) : Entries := fun i j => b.element (i * width + j)

/-- Rows and columns exchanged. -/
def transpose (m : Entries) : Entries := fun i j => m j i

/-- One element of a product: terms with a zero on the left are left out. -/
def dot (a b : Entries) (inner i j : Nat) : Float32 :=
  (List.range inner).foldl (fun sum p => if a i p == 0 then sum else sum + a i p * b p j) 0

/-- The product in a row-major buffer. -/
def product (a b : Entries) (rows inner columns : Nat) : Buffer :=
  Buffer.tabulate (rows * columns) fun k => dot a b inner (k / columns) (k % columns)

end Matrix

/-- The product of two matrices. -/
def Content.matmul (a b : Content) : Checked Computed := do
  match a.shape, b.shape with
  | [m, k], [k', n] =>
    if k ≠ k' then Outcome.fail (.shapeMismatch [k, n] b.shape "matmul")
    else
      let product := Matrix.product (Matrix.entries a.values k) (Matrix.entries b.values n) m k n
      let output ← Content.make product [m, n]
      return Computed.single output fun seen =>
        let gradient := Matrix.entries (seen.gradient 0) n
        let left := Matrix.entries (seen.input 0).values k
        let right := Matrix.entries (seen.input 1).values n
        .ok [.whole (Matrix.product gradient (Matrix.transpose right) m n k),
          .whole (Matrix.product (Matrix.transpose left) gradient k m n)]
  | _, _ => Outcome.fail (.unsupported (.operands a.shape b.shape))

end LayerNet
