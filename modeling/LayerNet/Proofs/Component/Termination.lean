import LayerNet.Component.Assembly
import LayerNet.Proofs.Addressing
import Mathlib.Data.List.Forall2

/-!
# Termination — names cannot be followed forever

Instantiating a segment descends into modules, and from a name it jumps to the value of a definition
in whatever scope has one, so the recursion does not follow the syntax. The bound on its depth that
`segment` takes is never reached: the recursion without a bound is a total function, `assemble`
computes it, and it ends with a value or an error (`assemble_terminates`).

What decreases is the syntax that is left: the segment at hand, and the values of all definitions in
scope that were never referred to (`Assembly.weight`). A reference takes its definition out of the
second part before it goes on with the value; a module of its own frame adds to the second part only
what it takes from the first. The frames in between, which a jump to an outer scope leaves aside,
are the same when the jump returns, and every frame that was in scope has become lighter
(`Assembly.Lighter`).

`Settles` says of two computations that they do the same from a state, that this is not the fatal
end, and that no frame is heavier afterwards. There is one lemma for each way to combine
computations; instantiation with two bounds that are both large enough settles by induction
(`settles_segment`).
-/

namespace LayerNet

/-! ## The syntax that is left -/

/-- The syntax of all frames in scope that is still to be instantiated. -/
def Assembly.weight (s : Assembly) : Nat := Size.total (s.frames.map Frame.weight)

/-- Frame by frame, no more is left to instantiate than in another state. -/
def Assembly.Lighter (s' s : Assembly) : Prop :=
  List.Forall₂ (fun f' f : Frame => f'.weight ≤ f.weight) s'.frames s.frames

namespace Assembly.Lighter

theorem refl (s : Assembly) : s.Lighter s := List.forall₂_refl s.frames

theorem trans {s s' s'' : Assembly} (later : s''.Lighter s') (first : s'.Lighter s) :
    s''.Lighter s := by
  unfold Lighter at later first ⊢
  generalize s.frames = frames at first ⊢
  generalize s'.frames = frames', s''.frames = frames'' at later first ⊢
  induction later generalizing frames with
  | nil => exact first
  | cons head _ ih =>
    obtain ⟨f, rest, head', others, rfl⟩ := List.forall₂_cons_left_iff.mp first
    exact .cons (Nat.le_trans head head') (ih rest others)

/-- Whatever happens to the rest of the state, the same frames are as light. -/
theorem of_frames {s s' : Assembly} (same : s'.frames = s.frames) : s'.Lighter s := by
  rw [Lighter, same]
  exact List.forall₂_refl s.frames

end Assembly.Lighter

theorem Size.total_append (ms ns : List Nat) : total (ms ++ ns) = total ms + total ns := by
  induction ms with
  | nil => exact (Nat.zero_add _).symm
  | cons m ms ih => rw [List.cons_append, total, ih, total, Nat.add_assoc]

theorem Size.total_le_of_forall₂ {ms ns : List Nat} (le : List.Forall₂ (· ≤ ·) ms ns) :
    total ms ≤ total ns := by
  induction le with
  | nil => exact Nat.le_refl _
  | cons first _ ih => exact Nat.add_le_add first ih

theorem Assembly.Lighter.weight_le {s s' : Assembly} (lighter : s'.Lighter s) :
    s'.weight ≤ s.weight := by
  refine Size.total_le_of_forall₂ ?_
  rw [List.forall₂_map_left_iff, List.forall₂_map_right_iff]
  exact lighter

theorem Frame.weight_cons (entry : String × Binding) (f : Frame) :
    weight (entry :: f) = entry.2.weight + f.weight := rfl

theorem Segment.size_pos (x : Segment) : 0 < x.size := by
  cases x with
  | token text => exact Nat.one_pos
  | module body =>
    rw [size]
    omega

theorem Segment.size_le_of_mem {x : Segment} {segments : List Segment} (member : x ∈ segments) :
    x.size ≤ sizeAll segments := by
  induction segments with
  | nil => cases member
  | cons y segments ih =>
    rw [sizeAll]
    rcases List.mem_cons.mp member with rfl | member
    · exact Nat.le_add_right _ _
    · exact Nat.le_trans (ih member) (Nat.le_add_left _ _)

/-- The syntax of a statement list is that of its definitions and that of its chains. -/
theorem Statement.sizeAll_eq (statements : List Statement) :
    sizeAll statements
      = Size.total ((definitions statements).map fun d => 1 + Segment.sizeAll d.2)
        + Size.total ((chains statements).map fun segments => 1 + Segment.sizeAll segments) := by
  induction statements with
  | nil => rfl
  | cons statement rest ih =>
    rw [sizeAll, ih]
    cases statement with
    | define name value =>
      rw [
        show definitions (.define name value :: rest) = (name, value) :: definitions rest from rfl,
        show chains (.define name value :: rest) = chains rest from rfl, List.map_cons, Size.total,
        size]
      dsimp only
      omega
    | chain segments =>
      rw [show definitions (.chain segments :: rest) = definitions rest from rfl,
        show chains (.chain segments :: rest) = segments :: chains rest from rfl, List.map_cons,
        Size.total, size]
      omega

/-- The definitions of a statement list and a segment of one of its chains are less than all of
it. -/
theorem Statement.size_lt_sizeAll {statements : List Statement} {segments : List Segment}
    (chain : segments ∈ chains statements) {x : Segment} (member : x ∈ segments) :
    Size.total ((definitions statements).map fun d => 1 + Segment.sizeAll d.2) + x.size
      < sizeAll statements := by
  have whole := sizeAll_eq statements
  have part := Size.le_total_of_mem
    (List.mem_map_of_mem (f := fun segments => 1 + Segment.sizeAll segments) chain)
  have small := Segment.size_le_of_mem member
  omega

/-- A bound name with nothing left to instantiate makes no frame heavier, and a frame in which it
stood for a value loses that value. -/
theorem Frame.weight_put {name : String} {binding : Binding} (spent : binding.weight = 0)
    (f : Frame) :
    (f.put name binding).weight ≤ f.weight
      ∧ ∀ old, f.find? name = some old → (f.put name binding).weight + old.weight ≤ f.weight := by
  induction f with
  | nil => exact ⟨Nat.le_refl _, fun old found => nomatch found⟩
  | cons entry f ih =>
    obtain ⟨other, b⟩ := entry
    obtain ⟨lighter, loses⟩ := ih
    have step : put ((other, b) :: f) name binding =
        (if other = name then (other, binding) else (other, b)) :: put f name binding := rfl
    rw [step, weight_cons, weight_cons]
    by_cases same : other = name
    · subst same
      rw [if_pos rfl]
      dsimp only
      refine ⟨by omega, fun old found => ?_⟩
      rw [find?, List.lookup_cons_self] at found
      obtain rfl := Option.some.inj found
      omega
    · rw [if_neg same]
      dsimp only
      refine ⟨by omega, fun old found => ?_⟩
      rw [find?, List.lookup_cons, beq_eq_false_iff_ne.mpr (Ne.symm same)] at found
      have := loses old found
      omega

/-- A name that resolves to a binding takes up its share of the frames from its own on. -/
theorem Assembling.resolve?_spec {name : String} {frames : List Frame} {depth : Nat}
    {binding : Binding} (found : resolve? name frames = some (depth, binding)) :
    ∃ f rest, frames.drop depth = f :: rest ∧ f.find? name = some binding := by
  induction frames generalizing depth with
  | nil => exact nomatch found
  | cons f frames ih =>
    unfold resolve? at found
    split at found
    next here =>
      cases found
      exact ⟨f, frames, rfl, here⟩
    next =>
      obtain ⟨⟨depth', binding'⟩, deeper, same⟩ := Option.map_eq_some_iff.mp found
      obtain ⟨rfl, rfl⟩ := Prod.mk.inj same
      exact ih deeper

namespace Assembling

variable {α β : Type}

/-! ## Two computations that do the same and end -/

/-- From a state, two computations do the same; this is not the fatal end, and no frame is heavier
afterwards. -/
def Settles (s : Assembly) (x y : Assembling α) : Prop :=
  x.run s = y.run s ∧ (∀ reason, x.run s ≠ .error (@Failure.fatal _ reason))
    ∧ ∀ a s', x.run s = .ok (a, s') → s'.Lighter s

namespace Settles

variable {s : Assembly}

theorem pure (a : α) : Settles s (Pure.pure a) (Pure.pure a) := by
  refine ⟨rfl, fun _ ends => (nomatch ends), fun _ _ run => ?_⟩
  cases run
  exact .refl s

theorem fail (cause : CompileError) : Settles s (fail cause : Assembling α) (fail cause) :=
  ⟨rfl, fun _ ends => (nomatch ends), fun _ _ run => (nomatch run)⟩

theorem bind {x y : Assembling α} {f g : α → Assembling β} (first : Settles s x y)
    (second : ∀ a s', x.run s = .ok (a, s') → s'.Lighter s → Settles s' (f a) (g a)) :
    Settles s (x >>= f) (y >>= g) := by
  obtain ⟨same, ends, lighter⟩ := first
  unfold Settles
  rw [StateT.run_bind, StateT.run_bind, ← same]
  cases run : x.run s with
  | error failure =>
    refine ⟨rfl, fun reason fatal => ?_, fun _ _ ok => nomatch ok⟩
    cases fatal
    exact ends reason run
  | ok result =>
    obtain ⟨a, s₁⟩ := result
    obtain ⟨same', ends', lighter'⟩ := second a s₁ run (lighter a s₁ run)
    exact ⟨same', ends', fun b s' ok => (lighter' b s' ok).trans (lighter a s₁ run)⟩

theorem get_bind {f g : Assembly → Assembling β} (next : Settles s (f s) (g s)) :
    Settles s (get >>= f) (get >>= g) := next

theorem foldlM {f g : β → α → Assembling β} (xs : List α)
    (step : ∀ b s', s'.Lighter s → ∀ x ∈ xs, Settles s' (f b x) (g b x)) (b : β) :
    Settles s (xs.foldlM f b) (xs.foldlM g b) := by
  induction xs generalizing s b with
  | nil => exact .pure b
  | cons x xs ih =>
    refine (step b s (.refl s) x List.mem_cons_self).bind fun b' s' _ lighter => ih ?_ b'
    exact fun b'' s'' lighter' y member =>
      step b'' s'' (lighter'.trans lighter) y (List.mem_cons_of_mem x member)

theorem mapM {f g : α → Assembling β} (xs : List α)
    (step : ∀ s', s'.Lighter s → ∀ x ∈ xs, Settles s' (f x) (g x)) :
    Settles s (xs.mapM f) (xs.mapM g) := by
  induction xs generalizing s with
  | nil =>
    rw [List.mapM_nil, List.mapM_nil]
    exact .pure []
  | cons x xs ih =>
    rw [List.mapM_cons, List.mapM_cons]
    refine (step s (.refl s) x List.mem_cons_self).bind fun b s' _ lighter => ?_
    refine (ih fun s'' lighter' y member =>
      step s'' (lighter'.trans lighter) y (List.mem_cons_of_mem x member)).bind fun _ _ _ _ => ?_
    exact .pure _

theorem forM {f : α → Assembling Unit} (xs : List α) (step : ∀ x s', Settles s' (f x) (f x)) :
    Settles s (xs.forM f) (xs.forM f) := by
  induction xs generalizing s with
  | nil => exact .pure ()
  | cons x xs ih => exact (step x s).bind fun _ _ _ _ => ih

theorem modifyGraph (f : ComponentGraph → Except CompileError ComponentGraph) :
    Settles s (modifyGraph f) (modifyGraph f) := by
  refine .get_bind ?_
  split
  · refine ⟨rfl, fun _ ends => (nomatch ends), fun _ _ run => ?_⟩
    cases run
    exact .of_frames rfl
  · exact .fail _

/-- A name is bound anew, to what leaves nothing to instantiate. -/
theorem bindName (name : String) {binding : Binding} (spent : binding.weight = 0) :
    Settles s (Assembling.bind name binding) (Assembling.bind name binding) := by
  refine ⟨rfl, fun _ ends => (nomatch ends), fun _ s' run => ?_⟩
  cases frames : s.frames with
  | nil =>
    obtain rfl : s' = s := by
      cases run
      simp only [frames]
    exact .refl s'
  | cons f rest =>
    obtain rfl : s' = { s with frames := f.put name binding :: rest } := by
      cases run
      simp only [frames]
    rw [Assembly.Lighter, frames]
    exact .cons (Frame.weight_put spent f).1 (List.forall₂_refl rest)

/-- What settles in a scope of its own leaves the frames around it lighter. -/
theorem inFrame {x y : Assembling α} {f : Frame}
    (settles : Settles { s with frames := f :: s.frames } x y) :
    Settles s (inFrame f x) (inFrame f y) := by
  obtain ⟨same, ends, lighter⟩ := settles
  have unfolded (z : Assembling α) : (Assembling.inFrame f z).run s =
      z.run { s with frames := f :: s.frames } >>= fun (a, s₁) => .ok (a, { s₁ with
        frames := s₁.frames.tail
        unused := (s₁.frames.headD []).unused.reverse ++ s₁.unused }) := rfl
  rw [Settles, unfolded, unfolded, ← same]
  cases run : x.run { s with frames := f :: s.frames } with
  | error failure =>
    refine ⟨rfl, fun reason fatal => ?_, fun _ _ ok => nomatch ok⟩
    cases fatal
    exact ends reason run
  | ok result =>
    obtain ⟨a, s₁⟩ := result
    refine ⟨rfl, fun _ fatal => (nomatch fatal), fun b s' ok => ?_⟩
    cases ok
    obtain ⟨f', rest, -, others, frames⟩ := List.forall₂_cons_right_iff.mp (lighter a s₁ run)
    rw [Assembly.Lighter, frames]
    exact others

/-- What settles in the scope of an outer frame leaves the frames from there on lighter; those
before are put back. -/
theorem inOuter {x y : Assembling α} {depth : Nat}
    (settles : Settles { s with frames := s.frames.drop depth } x y) :
    Settles s (inOuter depth x) (inOuter depth y) := by
  obtain ⟨same, ends, lighter⟩ := settles
  have unfolded (z : Assembling α) : (Assembling.inOuter depth z).run s =
      z.run { s with frames := s.frames.drop depth } >>= fun (a, s₁) =>
        .ok (a, { s₁ with frames := s.frames.take depth ++ s₁.frames }) := rfl
  rw [Settles, unfolded, unfolded, ← same]
  cases run : x.run { s with frames := s.frames.drop depth } with
  | error failure =>
    refine ⟨rfl, fun reason fatal => ?_, fun _ _ ok => nomatch ok⟩
    cases fatal
    exact ends reason run
  | ok result =>
    obtain ⟨a, s₁⟩ := result
    refine ⟨rfl, fun _ fatal => (nomatch fatal), fun b s' ok => ?_⟩
    cases ok
    have outer := List.rel_append (List.forall₂_refl (s.frames.take depth)) (lighter a s₁ run)
    dsimp only at outer
    rwa [List.take_append_drop] at outer

end Settles

/-! ## The computations of an assembly -/

/-- The bindings of a statement list weigh what its definitions do. -/
theorem settles_frameOf (s : Assembly) (statements : List Statement) :
    Settles s (frameOf statements) (frameOf statements) := by
  refine .foldlM _ (fun f s' _ x _ => ?_) []
  dsimp only
  split
  · exact .fail _
  · exact .pure _

theorem weight_of_frameOf {statements : List Statement} {s s' : Assembly} {f : Frame}
    (run : (frameOf statements).run s = .ok (f, s')) :
    s'.frames = s.frames
      ∧ f.weight = Size.total ((definitions statements).map fun d => 1 + Segment.sizeAll d.2) := by
  suffices all : ∀ (ds : List (String × List Segment)) (g : Frame) (s : Assembly),
      (ds.foldlM (fun (f : Frame) d =>
        if (f.find? d.1).isSome then Assembling.fail (.duplicateVertex d.1)
        else return f ++ [(d.1, .fresh d.2)]) g : Assembling Frame).run s = .ok (f, s') →
      s'.frames = s.frames
        ∧ f.weight = g.weight + Size.total (ds.map fun d => 1 + Segment.sizeAll d.2) by
    simpa [Frame.weight, Size.total] using all (definitions statements) [] s run
  intro ds
  induction ds with
  | nil =>
    intro g s run
    cases run
    exact ⟨rfl, rfl⟩
  | cons d ds ih =>
    intro g s run
    rw [List.foldlM_cons, StateT.run_bind] at run
    obtain ⟨⟨g', s₁⟩, first, run⟩ := Outcome.bind_eq_ok_iff.mp run
    split at first
    · cases first
    · cases first
      obtain ⟨frames, weight⟩ := ih _ _ run
      refine ⟨frames, ?_⟩
      rw [weight, Frame.weight, List.map_append, Size.total_append]
      simp only [List.map_cons, List.map_nil, Size.total, Binding.weight, Frame.weight]
      omega

theorem settles_leaf (s : Assembly) (token : String) (name : Option String) :
    Settles s (leaf token name) (leaf token name) := by
  unfold leaf
  split
  · exact .fail _
  · exact .get_bind ((Settles.modifyGraph _).bind fun _ _ _ _ => .pure _)

theorem settles_connect (s : Assembly) (a b : Ends) : Settles s (connect a b) (connect a b) :=
  .forM _ fun _ _ => .modifyGraph _

theorem settles_closeModule (s : Assembly) (first : Nat) (chains : List Ends) :
    Settles s (closeModule first chains) (closeModule first chains) := by
  refine .get_bind ?_
  dsimp only
  split
  · exact (Settles.modifyGraph _).bind fun _ _ _ _ => .pure _
  · exact (Settles.pure ()).bind fun _ _ _ _ => .pure _

section

variable {s : Assembly} {f g : Segment → Assembling Ends}

/-- A chain settles when its segments do. -/
theorem settles_chainWith {segments : List Segment} (previous : Option Ends)
    (each : ∀ x ∈ segments, ∀ s', s'.Lighter s → Settles s' (f x) (g x)) :
    Settles s (chainWith f segments previous) (chainWith g segments previous) := by
  refine (Settles.foldlM _ (fun p s' lighter x member => ?_) _).bind fun p _ _ _ => ?_
  · refine (each x member s' lighter).bind fun ends s'' _ _ => ?_
    obtain ⟨head, last⟩ := p
    cases last with
    | none => exact .pure _
    | some last => exact (settles_connect s'' last ends).bind fun _ _ _ _ => .pure _
  · obtain ⟨head, last⟩ := p
    cases head with
    | none => exact .fail _
    | some head =>
      cases last with
      | none => exact .fail _
      | some last => exact .pure _

/-- A definition settles when the segments of its value do, where its name is pending. -/
theorem settles_define {name : String} {value : List Segment} {frame : Frame} {rest : List Frame}
    (frames : s.frames = frame :: rest) (found : frame.find? name = some (.fresh value))
    (each : ∀ x ∈ value, ∀ s', s'.weight + (1 + Segment.sizeAll value) ≤ s.weight →
      Settles s' (f x) (g x)) :
    Settles s (define f name value) (define g name value) := by
  refine (Settles.bindName name rfl).bind fun _ s₁ bound _ => ?_
  obtain rfl : s₁ = { s with frames := frame.put name .pending :: rest } := by
    cases bound
    simp only [frames]
  have taken := (Frame.weight_put (show Binding.pending.weight = 0 from rfl) frame).2 _ found
  have spent : Assembly.weight { s with frames := frame.put name .pending :: rest }
      + (1 + Segment.sizeAll value) ≤ s.weight := by
    rw [Assembly.weight, Assembly.weight, frames, List.map_cons, List.map_cons, Size.total,
      Size.total]
    rw [Binding.weight] at taken
    omega
  generalize { s with frames := frame.put name .pending :: rest } = s₂ at spent ⊢
  have chain : ∀ s₃ : Assembly, s₃.Lighter s₂ →
      Settles s₃ (chainWith f value none) (chainWith g value none) := by
    refine fun s₃ lighter => settles_chainWith none fun x member s₄ lighter' => each x member s₄ ?_
    have := (lighter'.trans lighter).weight_le
    omega
  have finish (s₃ : Assembly) (ends : Ends) : Settles s₃
      (do Assembling.bind name (.done ends); Pure.pure ends)
      (do Assembling.bind name (.done ends); Pure.pure ends) :=
    (Settles.bindName name rfl).bind fun _ _ _ _ => .pure _
  dsimp only
  split
  · refine Settles.get_bind ?_
    split
    · exact (chain s₂ (.refl s₂)).bind fun ends s₃ _ _ => finish s₃ ends
    · exact (settles_leaf s₂ _ _).bind fun ends s₃ _ _ => finish s₃ ends
  · exact (chain s₂ (.refl s₂)).bind fun ends s₃ _ _ => finish s₃ ends

/-- A module settles when all segments do that are no larger than what it adds. -/
theorem settles_moduleWith {body : List Statement}
    (each : ∀ x s', s'.weight + x.size < s.weight + Statement.sizeAll body →
      Settles s' (f x) (g x)) :
    Settles s (moduleWith f body) (moduleWith g body) := by
  refine (settles_frameOf s body).bind fun frame s₁ run _ => Settles.get_bind ?_
  obtain ⟨frames, weight⟩ := weight_of_frameOf run
  dsimp only
  split
  · exact .fail _
  · refine (Settles.inFrame (.mapM _ fun s₂ lighter segments chain => ?_)).bind
      fun ends s₂ _ _ => settles_closeModule s₂ _ ends
    refine settles_chainWith none fun x member s₃ lighter' => each x s₃ ?_
    have spent := (lighter'.trans lighter).weight_le
    have part := Statement.size_lt_sizeAll chain member
    have within : Assembly.weight { s₁ with frames := frame :: s₁.frames }
        = frame.weight + s.weight := by
      rw [Assembly.weight, Assembly.weight, frames]
      rfl
    omega

end

/-! ## Segments, with and without a bound -/

/-- The recursion of segments, told for its next step. -/
def step (f : Segment → Assembling Ends) : Segment → Assembling Ends
  | .module body => moduleWith f body
  | .token text => do
    match resolve? text (← get).frames with
    | none => leaf text none
    | some (_, .done ends) => return ends
    | some (_, .pending) => fail (.cyclic text)
    | some (outer, .fresh value) => inOuter outer (define f text value)

theorem segment_succ (depth : Nat) : segment (depth + 1) = step (segment depth) := by
  funext x
  cases x <;> rfl

/-- A segment settles when all segments do that leave less syntax. -/
theorem settles_step {s : Assembly} {f g : Segment → Assembling Ends} {x : Segment}
    (each : ∀ y s', s'.weight + y.size < s.weight + x.size → Settles s' (f y) (g y)) :
    Settles s (step f x) (step g x) := by
  cases x with
  | module body =>
    refine settles_moduleWith fun y s' less => each y s' ?_
    rw [Segment.size]
    omega
  | token text =>
    refine Settles.get_bind ?_
    split
    · exact settles_leaf s text none
    · exact .pure _
    · exact .fail _
    next outer value found =>
      obtain ⟨frame, rest, frames, bound⟩ := resolve?_spec found
      refine .inOuter (settles_define frames bound fun y member s' spent => each y s' ?_)
      have small := Segment.size_le_of_mem member
      have fewer : Assembly.weight { s with frames := s.frames.drop outer } ≤ s.weight := by
        have all : s.weight = Size.total ((s.frames.take outer ++ s.frames.drop outer).map
            Frame.weight) := by rw [List.take_append_drop]; rfl
        rw [all, List.map_append, Size.total_append]
        exact Nat.le_add_left _ _
      omega

/-- Two bounds that are large enough for the syntax that is left do the same. -/
theorem settles_segment {depth depth' : Nat} {x : Segment} {s : Assembly}
    (enough : s.weight + x.size ≤ depth) (enough' : s.weight + x.size ≤ depth') :
    Settles s (segment depth x) (segment depth' x) := by
  have some_syntax := x.size_pos
  induction depth generalizing depth' x s with
  | zero => omega
  | succ depth ih =>
    obtain ⟨depth', rfl⟩ : ∃ d, depth' = d + 1 := ⟨depth' - 1, by omega⟩
    rw [segment_succ, segment_succ]
    exact settles_step fun y s' less => ih (by omega) (by omega) y.size_pos

/-- Instantiates a segment, whatever the depth: as deep as the syntax goes that is left. -/
def instantiate (x : Segment) : Assembling Ends := fun s => segment (s.weight + x.size) x s

theorem settles_instantiate {depth : Nat} {x : Segment} {s : Assembly}
    (enough : s.weight + x.size ≤ depth) : Settles s (segment depth x) (instantiate x) :=
  settles_segment enough (Nat.le_refl _)

/-- Instantiation without a bound satisfies the recursion. -/
theorem instantiate_eq_step (x : Segment) : instantiate x = step instantiate x := by
  funext s
  have bounded := (settles_segment (Nat.le_refl (s.weight + x.size)) (Nat.le_succ _)).1
  rw [segment_succ] at bounded
  refine bounded.trans (settles_step fun y s' less => settles_instantiate ?_).1
  omega

/-- Instantiates the chains of the top level, with segments instantiated by a given computation. -/
def topLevelWith (f : Segment → Assembling Ends) (statements : List Statement) :
    Assembling Unit := do
  let _ ← (chains statements).foldlM (fun (tail : Option Ends) segments => do
    let previous := if ← beginsBound segments then none else tail
    return some (← chainWith f segments previous)) none

theorem settles_topLevelWith {s : Assembly} {f g : Segment → Assembling Ends}
    {statements : List Statement}
    (each : ∀ segments ∈ chains statements, ∀ x ∈ segments, ∀ s', s'.Lighter s →
      Settles s' (f x) (g x)) :
    Settles s (topLevelWith f statements) (topLevelWith g statements) := by
  refine (Settles.foldlM _ (fun tail s' lighter segments chain => ?_) none).bind
    fun _ _ _ _ => .pure ()
  have begins : Settles s' (beginsBound segments) (beginsBound segments) := by
    unfold beginsBound
    split
    · exact .get_bind (.pure _)
    · exact .pure _
  refine begins.bind fun bound s'' _ lighter' => ?_
  refine (settles_chainWith _ fun x member s₃ lighter₃ => each segments chain x member s₃ ?_).bind
    fun _ _ _ _ => .pure _
  exact lighter₃.trans (lighter'.trans lighter)

end Assembling

namespace ComponentGraph

/-- The component graph of an architecture, with segments instantiated by a given computation. -/
def assembleWith (f : Segment → Assembling Ends) (statements : List Statement) :
    Outcome CompileError Assembled := do
  let all : Assembling Unit := do
    let frame ← Assembling.frameOf statements
    Assembling.inFrame frame (Assembling.topLevelWith f statements)
  let ((), s) ← all.run ⟨.empty, [], []⟩
  if s.components.size = 0 then Outcome.fail .noLayers
  else return ⟨s.components, s.unused.reverse⟩

/-- Two computations for segments that settle on all that is in the statements assemble the same,
and this is not the fatal end. -/
theorem assembleWith_spec {f g : Segment → Assembling Ends} {statements : List Statement}
    (each : ∀ x s, s.weight + x.size < Statement.sizeAll statements →
      Assembling.Settles s (f x) (g x)) :
    assembleWith f statements = assembleWith g statements
      ∧ ((∃ assembled, assembleWith f statements = .ok assembled)
        ∨ ∃ cause, assembleWith f statements = Outcome.fail cause) := by
  let start : Assembly := ⟨.empty, [], []⟩
  have settles : Assembling.Settles start
      (Assembling.frameOf statements >>= fun frame =>
        Assembling.inFrame frame (Assembling.topLevelWith f statements))
      (Assembling.frameOf statements >>= fun frame =>
        Assembling.inFrame frame (Assembling.topLevelWith g statements)) := by
    refine (Assembling.settles_frameOf start statements).bind fun frame s run _ => .inFrame ?_
    obtain ⟨frames, weight⟩ := Assembling.weight_of_frameOf run
    refine Assembling.settles_topLevelWith fun segments chain x member s' lighter => each x s' ?_
    have spent := lighter.weight_le
    have part := Statement.size_lt_sizeAll chain member
    have within : Assembly.weight { s with frames := frame :: s.frames } = frame.weight := by
      rw [Assembly.weight, frames]
      rfl
    omega
  obtain ⟨same, ends, -⟩ := settles
  unfold assembleWith
  dsimp only
  rw [← same]
  refine ⟨rfl, ?_⟩
  cases run : StateT.run _ start with
  | error failure =>
    cases failure with
    | error cause => exact .inr ⟨cause, rfl⟩
    | fatal => exact absurd run (ends _)
  | ok result =>
    obtain ⟨⟨⟩, s⟩ := result
    by_cases empty : s.components.size = 0
    · exact .inr ⟨.noLayers, if_pos empty⟩
    · exact .inl ⟨_, if_neg empty⟩

/-- Any bound on the depth will do that is no less than the syntax. -/
theorem assemble_eq_assembleWith {statements : List Statement} {depth : Nat}
    (enough : Statement.sizeAll statements ≤ depth) :
    assemble statements = assembleWith (Assembling.segment depth) statements :=
  (assembleWith_spec (f := Assembling.segment (Statement.sizeAll statements + 1))
    fun x s less => Assembling.settles_segment (by omega) (by omega)).1

/-- Assembly ends with a component graph or with an error. -/
theorem assemble_ends (statements : List Statement) :
    (∃ assembled, assemble statements = .ok assembled)
      ∨ ∃ cause, assemble statements = Outcome.fail cause := by
  have bounded (x : Segment) (s : Assembly)
      (less : s.weight + x.size < Statement.sizeAll statements) :
      Assembling.Settles s (Assembling.segment (Statement.sizeAll statements + 1) x)
        (Assembling.segment (Statement.sizeAll statements + 1) x) :=
    Assembling.settles_segment (by omega) (by omega)
  exact (assembleWith_spec bounded).2

/-- Assembly does not reach its bound on the depth, nor would it with a larger one: it is what the
recursion without a bound computes, and it ends with a component graph or with an error. -/
theorem assemble_terminates : ∃ instantiate : Segment → Assembling Ends,
    (∀ x, instantiate x = Assembling.step instantiate x)
      ∧ ∀ statements, assemble statements = assembleWith instantiate statements
        ∧ (∀ more, assemble statements =
          assembleWith (Assembling.segment (Statement.sizeAll statements + 1 + more)) statements)
        ∧ ((∃ assembled, assemble statements = .ok assembled)
          ∨ ∃ cause, assemble statements = Outcome.fail cause) := by
  refine ⟨Assembling.instantiate, Assembling.instantiate_eq_step, fun statements => ?_⟩
  have bounded : assemble statements =
      assembleWith (Assembling.segment (Statement.sizeAll statements + 1)) statements := rfl
  have unbounded : assembleWith (Assembling.segment (Statement.sizeAll statements + 1)) statements
      = assembleWith Assembling.instantiate statements ∧ _ :=
    assembleWith_spec fun x s less => Assembling.settles_instantiate (by omega)
  have larger (more : Nat) :
      assembleWith (Assembling.segment (Statement.sizeAll statements + 1)) statements
        = assembleWith (Assembling.segment (Statement.sizeAll statements + 1 + more)) statements
      ∧ _ :=
    assembleWith_spec fun x s less => Assembling.settles_segment (by omega) (by omega)
  rw [bounded]
  exact ⟨unbounded.1, fun more => (larger more).1, unbounded.2⟩

end ComponentGraph

end LayerNet
