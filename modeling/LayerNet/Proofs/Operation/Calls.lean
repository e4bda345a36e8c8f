import LayerNet.Initial
import LayerNet.Operation.Call
import LayerNet.Proofs.Operation.Places
import LayerNet.Proofs.Operation.Values

/-!
# Calls — every operation is sound, and alike calls carry what ties their operands

Every operation is sound: one case for each, by the lemma of the content function that the call
stands for (`Operation.compute_sound`).

Two runs of a layer call the same operations, on operands that some relation ties. Which calls these
are is told by `Operation.Alike`: where batches are concerned, an operation works behind the first
axis, and what is not a batch is a parameter that both calls share. A relation that alike calls
carry from operands to results is respected (`Content.Respected`). Being the same content is one
(`Content.respected_same`).
-/

namespace LayerNet

/-- Whatever operation succeeds on well-formed operands gives well-formed results and leaves a rule
that answers for all its operands. -/
theorem Operation.compute_sound {op : Operation Content} (wf : ∀ x ∈ op.operands, x.WellFormed)
    {c : Computed} (success : op.compute = .ok c) : c.Sound op.operands := by
  cases op with
  | copy x => exact Routing.compute_sound success
  | concat xs axis => exact Content.concat_sound success
  | split x axis partition => exact Content.split_sound success
  | stack xs axis => exact Content.stack_sound success
  | unstack x axis => exact Content.unstack_sound success
  | tile x axis count => exact Content.tile_sound (wf x List.mem_cons_self) success
  | untile x axis count => exact Content.untile_sound (wf x List.mem_cons_self) success
  | maxReduce x axis count => exact Content.maxReduce_sound (wf x List.mem_cons_self) success
  | meanReduce x axis count => exact Content.meanReduce_sound (wf x List.mem_cons_self) success
  | squeeze x axis => exact Content.squeeze_sound success
  | expand x axis => exact Content.expand_sound success
  | reshape x shape => exact Content.reshaped_sound success
  | slice x offsets sizes => exact Content.slice_sound (wf x List.mem_cons_self) success
  | add a b =>
    exact Content.add_sound (wf a List.mem_cons_self)
      (wf b (List.mem_cons_of_mem a List.mem_cons_self)) success
  | addBias x bias => exact Content.addBias_sound success
  | mul a b =>
    exact Content.mul_sound (wf a List.mem_cons_self)
      (wf b (List.mem_cons_of_mem a List.mem_cons_self)) success
  | scale x factor => exact Content.scale_sound success
  | matmul a b =>
    exact Content.matmul_sound (wf a List.mem_cons_self)
      (wf b (List.mem_cons_of_mem a List.mem_cons_self)) success
  | relu x => exact Content.pointwise_sound success
  | sigmoid x => exact Content.pointwise_sound success
  | tanh x => exact Content.pointwise_sound success
  | softmax x => exact Content.softmax_sound (wf x List.mem_cons_self) success
  | conv2d x kernel bias windowing =>
    exact Content.conv2d_sound (wf bias (List.mem_cons_of_mem x
      (List.mem_cons_of_mem kernel List.mem_cons_self))) success
  | normalize x settings => exact Content.normalize_sound (wf x List.mem_cons_self) success
  | dropout x keep samples => exact Content.dropout_sound success

/-! ## Alike calls -/

/-- The same well-formed content. -/
def Content.Same (x y : Content) : Prop := x = y ∧ x.WellFormed

/-- The same call on operands tied by a relation. The axis is never the first one, and a parameter
is the same on both sides. -/
inductive Operation.Alike (R : Content → Content → Prop) :
    Operation Content → Operation Content → Prop where
  | copy {x y : Content} : R x y → Alike R (.copy x) (.copy y)
  | concat {xs ys : List Content} {axis : Nat} : axis ≠ 0 → List.Forall₂ R xs ys →
    Alike R (.concat xs axis) (.concat ys axis)
  | stack {xs ys : List Content} : List.Forall₂ R xs ys → Alike R (.stack xs 1) (.stack ys 1)
  /-- A member keeps an axis behind the first one. -/
  | unstack {x y : Content} : 2 < x.shape.rank → R x y → Alike R (.unstack x 1) (.unstack y 1)
  | maxReduce {x y : Content} {axis : Nat} (members : Nat) : axis ≠ 0 → R x y →
    Alike R (.maxReduce x axis members) (.maxReduce y axis members)
  | meanReduce {x y : Content} {axis : Nat} (members : Nat) : axis ≠ 0 → R x y →
    Alike R (.meanReduce x axis members) (.meanReduce y axis members)
  /-- The first axis stays. -/
  | reshape {x y : Content} {n n' : Nat} {shape : Shape} : n = x.shape.extent 0 →
    n' = y.shape.extent 0 → shape ≠ [] → R x y →
    Alike R (.reshape x (n :: shape)) (.reshape y (n' :: shape))
  | add {a b c d : Content} : R a c → R b d → Alike R (.add a b) (.add c d)
  | addBias {x y bias bias' : Content} : R x y → bias.Same bias' →
    Alike R (.addBias x bias) (.addBias y bias')
  | scale {x y : Content} (factor : Float32) : R x y → Alike R (.scale x factor) (.scale y factor)
  | matmul {x y weight weight' : Content} : R x y → weight.Same weight' →
    Alike R (.matmul x weight) (.matmul y weight')
  | relu {x y : Content} : R x y → Alike R (.relu x) (.relu y)
  | sigmoid {x y : Content} : R x y → Alike R (.sigmoid x) (.sigmoid y)
  | tanh {x y : Content} : R x y → Alike R (.tanh x) (.tanh y)
  | softmax {x y : Content} : R x y → Alike R (.softmax x) (.softmax y)
  | conv2d {x y kernel kernel' bias bias' : Content} (windowing : Windowing) : R x y →
    kernel.Same kernel' → bias.Same bias' →
    Alike R (.conv2d x kernel bias windowing) (.conv2d y kernel' bias' windowing)
  | normalize {x y : Content} (settings : Normalization) : R x y →
    Alike R (.normalize x settings) (.normalize y settings)

namespace Content

/-- Whatever layers do with tied contents gives tied contents again, and does so on the second side
where it does on the first. -/
structure Respected (R : Content → Content → Prop) : Prop where
  samples : ∀ x y, R x y → x.shape ≠ [] ∧ y.shape ≠ [] ∧ x.shape.tail = y.shape.tail
  computes : ∀ op op' c, Operation.Alike R op op' → op.compute = .ok c →
    ∃ d, op'.compute = .ok d ∧ List.Forall₂ R c.outputs d.outputs
  zeros : ∀ x y units c, R x y → zeros [x.shape.extent 0, units] = .ok c →
    ∃ d, zeros [y.shape.extent 0, units] = .ok d ∧ R c d
  remade : ∀ x y c, R x y → make x.values x.shape = .ok c →
    ∃ d, make y.values y.shape = .ok d ∧ R c d

theorem forall₂_same {xs ys : List Content} :
    List.Forall₂ Same xs ys ↔ xs = ys ∧ ∀ x ∈ xs, x.WellFormed := by
  constructor
  · intro same
    induction same with
    | nil => exact ⟨rfl, fun x member => absurd member List.not_mem_nil⟩
    | cons first _ ih =>
      obtain ⟨rfl, wf⟩ := first
      obtain ⟨rfl, wfs⟩ := ih
      exact ⟨rfl, List.forall_mem_cons.mpr ⟨wf, wfs⟩⟩
  · rintro ⟨rfl, wf⟩
    exact List.forall₂_same.mpr fun x member => ⟨rfl, wf x member⟩

end Content

open Content in
/-- Calls that are alike on the same operands are the same. -/
theorem Operation.Alike.eq {op op' : Operation Content} (alike : Alike Same op op') :
    op = op' ∧ ∀ x ∈ op.operands, x.WellFormed := by
  have one {x y : Content} (same : Same x y) : ∀ z ∈ [x], z.WellFormed := by
    intro z member
    rw [List.mem_singleton.mp member]
    exact same.2
  cases alike with
  | concat _ same | stack same =>
    obtain ⟨rfl, wf⟩ := forall₂_same.mp same
    exact ⟨rfl, wf⟩
  | add left right | addBias left right | matmul left right =>
    obtain ⟨rfl, wf⟩ := left
    obtain ⟨rfl, wf'⟩ := right
    exact ⟨rfl, List.forall_mem_cons.mpr ⟨wf, one ⟨rfl, wf'⟩⟩⟩
  | conv2d _ image kernel bias =>
    obtain ⟨rfl, wf⟩ := image
    obtain ⟨rfl, wf'⟩ := kernel
    obtain ⟨rfl, wf''⟩ := bias
    exact ⟨rfl, List.forall_mem_cons.mpr ⟨wf, List.forall_mem_cons.mpr ⟨wf', one ⟨rfl, wf''⟩⟩⟩⟩
  | reshape first second _ same =>
    obtain ⟨rfl, wf⟩ := same
    subst first second
    exact ⟨rfl, one ⟨rfl, wf⟩⟩
  | copy same | unstack _ same | maxReduce _ _ same | meanReduce _ _ same
  | scale _ same | relu same | sigmoid same | tanh same | softmax same | normalize _ same =>
    obtain ⟨rfl, wf⟩ := same
    exact ⟨rfl, one ⟨rfl, wf⟩⟩

namespace Content

theorem respected_same : Respected Same where
  samples x y same := by
    obtain ⟨rfl, wf⟩ := same
    exact ⟨wf.valid.1, wf.valid.1, rfl⟩
  computes op op' c alike success := by
    obtain ⟨rfl, wf⟩ := alike.eq
    exact ⟨c, success, forall₂_same.mpr ⟨rfl, (Operation.compute_sound wf success).outputs⟩⟩
  zeros x y units c same success := by
    obtain ⟨rfl, -⟩ := same
    obtain ⟨_, -, made⟩ := Outcome.bind_eq_ok_iff.mp success
    obtain ⟨count, -, made⟩ := Outcome.bind_eq_ok_iff.mp made
    exact ⟨c, success, rfl, wellFormed_of_make made⟩
  remade x y c same made := by
    obtain ⟨rfl, -⟩ := same
    exact ⟨c, made, rfl, wellFormed_of_make made⟩

/-- The softmax that a loss layer takes. -/
theorem Respected.softened {R : Content → Content → Prop} (respected : Respected R) {x y c : Content}
    (tied : R x y) (made : make (x.values.softmax x.shape.width) x.shape = .ok c) :
    ∃ d, make (y.values.softmax y.shape.width) y.shape = .ok d ∧ R c d := by
  obtain ⟨rule, success⟩ : ∃ rule, x.softmax = .ok (Computed.single c rule) := by
    unfold Content.softmax
    dsimp only
    rw [made]
    exact ⟨_, rfl⟩
  obtain ⟨computed, softened, tied⟩ := respected.computes _ _ _ (.softmax tied) success
  obtain ⟨d, made, rest⟩ := Outcome.bind_eq_ok_iff.mp softened
  cases rest
  rcases tied with _ | ⟨tied, -⟩
  exact ⟨d, made, tied⟩

end Content

end LayerNet
