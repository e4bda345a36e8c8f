import LayerNet.Proofs.Component.Frames
import LayerNet.Proofs.Component.Invariance

/-!
# Progress — what assembling leaves in place

Whatever is assembled, and from whatever state: no component is removed, edges and module exits are
only put in front of those that are there, and the frames in scope bind the names that they bound
(`Assembly.Grows`). There is one lemma for each way to combine computations; for segments it is an
induction on the depth.
-/

namespace LayerNet

/-- The names that a frame binds. -/
def Frame.names (f : Frame) : List String := f.map Prod.fst

@[simp] theorem Frame.names_put (f : Frame) (name : String) (binding : Binding) :
    (f.put name binding).names = f.names := by
  unfold Frame.put Frame.names
  rw [List.map_map]
  refine List.map_congr_left fun entry _ => ?_
  show (if entry.1 = name then (entry.1, binding) else (entry.1, entry.2)).1 = entry.1
  split <;> rfl

/-- Every component, edge and module exit of a state is there later, in its place from the end, and
the frames bind the same names. -/
structure Assembly.Grows (s s' : Assembly) : Prop where
  size : s.components.size ≤ s'.components.size
  edges : s.components.graph.edges <:+ s'.components.graph.edges
  exits : s.components.exits <:+ s'.components.exits
  scopes : s'.frames.map Frame.names = s.frames.map Frame.names

namespace Assembly.Grows

theorem refl (s : Assembly) : s.Grows s :=
  ⟨Nat.le_refl _, List.suffix_refl _, List.suffix_refl _, rfl⟩

theorem trans {s s' s'' : Assembly} (first : s.Grows s') (second : s'.Grows s'') : s.Grows s'' where
  size := Nat.le_trans first.size second.size
  edges := first.edges.trans second.edges
  exits := first.exits.trans second.exits
  scopes := second.scopes.trans first.scopes

/-- Between states with the same graph only the names count. -/
theorem of_frames {s s' : Assembly} (same : s'.components = s.components)
    (scopes : s'.frames.map Frame.names = s.frames.map Frame.names) : s.Grows s' := by
  obtain ⟨c, frames, unused⟩ := s
  obtain ⟨c', frames', unused'⟩ := s'
  obtain rfl : c' = c := same
  exact ⟨Nat.le_refl _, List.suffix_refl _, List.suffix_refl _, scopes⟩

end Assembly.Grows

namespace Assembling

variable {α β : Type}

/-- What a computation finds it leaves in place. -/
def Advances (x : Assembling α) : Prop := ∀ s a s', x.run s = .ok (a, s') → s.Grows s'

/-! ## Combining computations -/

namespace Advances

theorem pure (a : α) : Advances (Pure.pure a) := by
  intro s _ _ run
  cases run
  exact .refl s

theorem fail (cause : CompileError) : Advances (fail cause : Assembling α) :=
  fun _ _ _ run => nomatch run

theorem bind {x : Assembling α} {f : α → Assembling β} (first : Advances x)
    (second : ∀ a, Advances (f a)) : Advances (x >>= f) := by
  intro s b s' run
  obtain ⟨a, s₁, ran, run⟩ := Outcome.run_bind_eq_ok.mp run
  exact (first s a s₁ ran).trans (second a s₁ b s' run)

theorem get_bind {f : Assembly → Assembling β} (next : ∀ s, Advances (f s)) :
    Advances (get >>= f) := fun s => next s s

theorem foldlM {f : β → α → Assembling β} (xs : List α)
    (step : ∀ b, ∀ x ∈ xs, Advances (f b x)) (b : β) : Advances (xs.foldlM f b) := by
  induction xs generalizing b with
  | nil => exact .pure b
  | cons x xs ih =>
    refine (step b x List.mem_cons_self).bind fun b' => ih ?_ b'
    intro b'' y member
    exact step b'' y (List.mem_cons_of_mem x member)

theorem mapM {f : α → Assembling β} (xs : List α) (step : ∀ x ∈ xs, Advances (f x)) :
    Advances (xs.mapM f) := by
  induction xs with
  | nil =>
    rw [List.mapM_nil]
    exact .pure []
  | cons x xs ih =>
    rw [List.mapM_cons]
    refine (step x List.mem_cons_self).bind fun _ => (ih ?_).bind fun _ => .pure _
    intro y member
    exact step y (List.mem_cons_of_mem x member)

theorem forM {f : α → Assembling Unit} (xs : List α) (step : ∀ x, Advances (f x)) :
    Advances (xs.forM f) := by
  induction xs with
  | nil => exact .pure ()
  | cons x xs ih => exact (step x).bind fun _ => ih

/-- A change of the graph that keeps what is there. -/
theorem modifyGraph {f : ComponentGraph → Except CompileError ComponentGraph}
    (change : ∀ c c', f c = .ok c' →
      c.size ≤ c'.size ∧ c.graph.edges <:+ c'.graph.edges ∧ c.exits <:+ c'.exits) :
    Advances (modifyGraph f) := by
  intro s _ s' run
  obtain ⟨_, _, looked, run⟩ := Outcome.run_bind_eq_ok.mp run
  cases looked
  split at run
  next components changed =>
    cases run
    obtain ⟨size, edges, exits⟩ := change _ _ changed
    exact ⟨size, edges, exits, rfl⟩
  next => cases run

/-- A new binding of a name that the frame binds. -/
theorem bindName (name : String) (binding : Binding) :
    Advances (Assembling.bind name binding) := by
  rintro ⟨c, frames, unused⟩ _ s' run
  cases run
  cases frames with
  | nil => exact .refl _
  | cons f rest => exact .of_frames rfl (by simp)

theorem inOuter {x : Assembling α} (depth : Nat) (advances : Advances x) :
    Advances (inOuter depth x) := by
  intro s a s' run
  obtain ⟨s₁, ran, rfl⟩ := run_inOuter run
  obtain ⟨size, edges, exits, scopes⟩ := advances _ _ _ ran
  refine ⟨size, edges, exits, ?_⟩
  rw [List.map_append, scopes, ← List.map_append, List.take_append_drop]

theorem inFrame {x : Assembling α} (f : Frame) (advances : Advances x) :
    Advances (inFrame f x) := by
  intro s a s' run
  obtain ⟨s₁, ran, components, frames⟩ := run_inFrame run
  obtain ⟨size, edges, exits, scopes⟩ := advances _ _ _ ran
  rw [← components] at size edges exits
  refine ⟨size, edges, exits, ?_⟩
  rw [frames, List.map_tail, scopes, List.map_cons, List.tail_cons]

/-- Where a sequence leads when it is known where its first part does. -/
theorem run_rest {x : Assembling α} {f : α → Assembling β} {s s₁ s' : Assembly} {a : α} {b : β}
    (run : (x >>= f).run s = .ok (b, s')) (first : x.run s = .ok (a, s₁)) :
    (f a).run s₁ = .ok (b, s') := by
  rw [StateT.run_bind, first] at run
  exact run

/-- What follows a computation needs to do the same only where the computation can lead. -/
theorem run_bind_congr {x : Assembling α} {f g : α → Assembling β} (advances : Advances x)
    {s : Assembly} (same : ∀ a s', s.Grows s' → (f a).run s' = (g a).run s') :
    (x >>= f).run s = (x >>= g).run s := by
  rw [StateT.run_bind, StateT.run_bind]
  cases ran : x.run s with
  | error failure => rfl
  | ok p => exact same p.1 p.2 (advances s p.1 p.2 ran)

end Advances

/-! ## The computations of an assembly -/

theorem advances_frameOf (statements : List Statement) : Advances (frameOf statements) := by
  intro s f s' run
  obtain ⟨-, -, rfl⟩ := frameOf_eq_ok_iff.mp run
  exact .refl s'

theorem advances_leaf (token : String) (name : Option String) : Advances (leaf token name) := by
  unfold leaf
  split
  · exact .fail _
  next blueprint _ =>
    refine .get_bind fun s => (Advances.modifyGraph ?_).bind fun _ => .pure _
    rintro c _ ⟨⟩
    have size : (c.add name blueprint).size = c.size + 1 := Digraph.size_addVertex _ _
    exact ⟨by omega, List.suffix_refl _, List.suffix_refl _⟩

/-- A link between two components. -/
theorem advances_link (source target : Nat) :
    Advances (modifyGraph fun c => c.link source target) := by
  refine .modifyGraph fun c c' linked => ?_
  unfold ComponentGraph.link at linked
  split at linked
  · cases linked
  · cases linked
    exact ⟨Nat.le_refl _, List.suffix_cons _ _, List.suffix_refl _⟩

theorem advances_connect (a b : Ends) : Advances (connect a b) :=
  .forM _ fun e => advances_link e.1 e.2

theorem advances_closeModule (first : Nat) (chains : List Ends) :
    Advances (closeModule first chains) := by
  refine .get_bind fun s => ?_
  dsimp only
  split
  · refine (Advances.modifyGraph ?_).bind fun _ => .pure _
    rintro c _ ⟨⟩
    exact ⟨Nat.le_refl _, List.suffix_refl _, List.suffix_cons _ _⟩
  · exact .pure _

theorem advances_isBound (name : String) : Advances (isBound name) := .get_bind fun _ => .pure _

theorem advances_beginsBound (segments : List Segment) : Advances (beginsBound segments) := by
  unfold beginsBound
  split
  · exact advances_isBound _
  · exact .pure false

section

variable {f : Segment → Assembling Ends} (each : ∀ x, Advances (f x))
include each

theorem advances_chainWith (segments : List Segment) (previous : Option Ends) :
    Advances (chainWith f segments previous) := by
  refine (Advances.foldlM _ (fun p x _ => (each x).bind fun ends => ?_) _).bind fun p => ?_
  · obtain ⟨head, last⟩ := p
    cases last with
    | none => exact .pure _
    | some last => exact (advances_connect last ends).bind fun _ => .pure _
  · obtain ⟨head, last⟩ := p
    cases head with
    | none => exact .fail _
    | some head =>
      cases last with
      | none => exact .fail _
      | some last => exact .pure _

theorem advances_define (name : String) (value : List Segment) :
    Advances (define f name value) := by
  have chain := advances_chainWith each value none
  have finish (ends : Ends) :
      Advances (do Assembling.bind name (.done ends); Pure.pure ends) :=
    (Advances.bindName name (.done ends)).bind fun _ => .pure _
  refine (Advances.bindName name .pending).bind fun _ => ?_
  dsimp only
  split
  · refine (advances_isBound _).bind fun bound => ?_
    split
    · exact chain.bind finish
    · exact (advances_leaf _ _).bind finish
  · exact chain.bind finish

theorem advances_moduleWith (body : List Statement) : Advances (moduleWith f body) := by
  refine (advances_frameOf body).bind fun frame => .get_bind fun s => ?_
  dsimp only
  split
  · exact .fail _
  · refine Advances.bind (.inFrame frame (.mapM _ fun chain _ => ?_)) fun ends => ?_
    · exact advances_chainWith each chain none
    · exact advances_closeModule _ ends

end

/-- Instantiating a segment leaves in place what is there, by induction on the depth. -/
theorem advances_segment (depth : Nat) (x : Segment) : Advances (segment depth x) := by
  induction depth generalizing x with
  | zero => exact fun _ _ _ run => nomatch run
  | succ depth ih =>
    cases x with
    | module body => exact advances_moduleWith ih body
    | token text =>
      refine .get_bind fun s => ?_
      split
      · exact advances_leaf text none
      · exact .pure _
      · exact .fail _
      next outer value _ => exact .inOuter outer (advances_define ih text value)

end Assembling

end LayerNet
