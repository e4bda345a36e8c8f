import LayerNet.Proofs.Component.Occurrences
import LayerNet.Proofs.Outcome
import Mathlib.Data.List.Nodup

/-!
# Accounting — what an assembly has done, and what it may still do

What an assembly may still do is a budget: the marks of the segment at hand, and of the definitions
in scope that were never referred to. Whatever is recorded is paid for with a mark. A first
reference takes the marks of its definition out of the frame (`Advance.put`); a module pays for its
own frame (`Accounts.inFrame`).

Besides that, a journal is sound (`Sound`): the components are those of the tokens that were made,
in order; what was done inside a definition was done after it was begun; and the ends that frames
hold, and those that references got, are what their definitions ended with. `Accounts` says of a
computation that it keeps this within a budget. There is one lemma for each way to combine
computations.
-/

namespace LayerNet

/-! ## Journals -/

namespace Event

/-- What is used up by an event. A reference to a definition that has ended uses nothing up. -/
def mark? : Event → Option Mark
  | made site text => some (.token site text)
  | opened site => some (.module site)
  | begun site name => some (.start site name)
  | ended site name _ => some (.finish site name)
  | shared .. => none

/-- The token that an event made a component for. -/
def made? : Event → Option (Site × String)
  | made site text => some (site, text)
  | _ => none

end Event

/-- What was used up, the last first. -/
def spent (journal : List Event) : List Mark := journal.filterMap Event.mark?

/-- The tokens that components were made for, the last first. -/
def madeFor (journal : List Event) : List (Site × String) := journal.filterMap Event.made?

/-- All definitions with given numbers have been begun. -/
def Reached (journal : List Event) (within : List Nat) : Prop :=
  ∀ n ∈ within, ∃ site name, site.number = n ∧ .begun site name ∈ journal

/-- A binding of a definition with a site: the definitions around it have been begun, and if it has
ends, they are in the journal. -/
structure Bound (journal : List Event) (entry : String × Binding) (definition : String × Site) :
    Prop where
  name : entry.1 = definition.1
  reached : Reached journal definition.2.within
  ended : ∀ ends, entry.2 = .done ends → .ended definition.2 definition.1 ends ∈ journal

/-- The journal tells how the components came about, and what the frames in scope hold. -/
structure Sound (scopes : List Scope) (s : Assembly) (journal : List Event) : Prop where
  frames : List.Forall₂ (List.Forall₂ (Bound journal)) s.frames scopes
  apart : ∀ c ∈ scopes, (c.map Prod.fst).Nodup
  made : List.Forall₂ (fun (token : Site × String) component =>
    Blueprint.read? token.2 = some component.blueprint)
    (madeFor journal).reverse s.components.graph.vertices.toList
  reached : ∀ mark ∈ spent journal, Reached journal mark.site.within
  shared : ∀ site name ends, .shared site name ends ∈ journal → .ended site name ends ∈ journal

section

variable {journal later : List Event}

theorem Reached.mono {within : List Nat} (reached : Reached journal within)
    (grows : journal <:+ later) : Reached later within := by
  intro n member
  obtain ⟨site, name, here, begun⟩ := reached n member
  exact ⟨site, name, here, grows.subset begun⟩

theorem Bound.mono {entry : String × Binding} {definition : String × Site}
    (bound : Bound journal entry definition) (grows : journal <:+ later) :
    Bound later entry definition :=
  ⟨bound.name, bound.reached.mono grows,
    fun ends done => grows.subset (bound.ended ends done)⟩

/-- A bound name has a site in the scope. -/
theorem exists_site {f : Frame} {c : Scope} (bound : List.Forall₂ (Bound journal) f c)
    {name : String} {binding : Binding} (found : f.find? name = some binding) :
    ∃ site, c.lookup name = some site ∧ Bound journal (name, binding) (name, site) := by
  induction bound with
  | nil => cases found
  | @cons entry definition f c first _ ih =>
    obtain ⟨key, old⟩ := entry
    obtain ⟨key', site⟩ := definition
    obtain rfl : key = key' := first.name
    rw [Frame.find?, List.lookup_cons] at found
    rw [List.lookup_cons]
    by_cases same : name = key
    · subst same
      rw [beq_self_eq_true] at found ⊢
      cases found
      exact ⟨site, rfl, first⟩
    · rw [beq_false_of_ne same] at found ⊢
      exact ih found

/-- Around a definition, a frame and its scope come apart in the same way, and putting a binding
changes nothing else. -/
theorem exists_split {f : Frame} {c : Scope} (bound : List.Forall₂ (Bound journal) f c)
    (apart : (c.map Prod.fst).Nodup) {name : String} {site : Site}
    (found : c.lookup name = some site) :
    ∃ binding f₁ f₂ c₁ c₂, c = c₁ ++ (name, site) :: c₂
      ∧ f = f₁ ++ (name, binding) :: f₂ ∧ f.find? name = some binding
      ∧ (∀ binding', f.put name binding' = f₁ ++ (name, binding') :: f₂)
      ∧ List.Forall₂ (Bound journal) f₁ c₁ ∧ Bound journal (name, binding) (name, site)
      ∧ List.Forall₂ (Bound journal) f₂ c₂ := by
  induction bound with
  | nil => cases found
  | @cons entry definition f c first others ih =>
    obtain ⟨key, old⟩ := entry
    obtain ⟨key', site'⟩ := definition
    obtain rfl : key = key' := first.name
    obtain ⟨absent, apart⟩ := List.nodup_cons.mp apart
    rw [List.lookup_cons] at found
    by_cases same : name = key
    · subst same
      rw [beq_self_eq_true] at found
      cases found
      refine ⟨old, [], f, [], c, rfl, rfl, List.lookup_cons_self, fun binding' => ?_, .nil, first,
        others⟩
      have unbound : ∀ entry ∈ f, entry.1 ≠ name := by
        rintro entry member rfl
        obtain ⟨definition, among, bound⟩ := exists_rel_of_mem others.flip member
        exact absent (List.mem_map.mpr ⟨definition, among, bound.name.symm⟩)
      show (if name = name then (name, binding') else (name, old)) :: Frame.put f name binding' = _
      rw [if_pos rfl, Frame.put,
        List.map_congr_left fun entry member => if_neg (unbound entry member), List.map_id']
      rfl
    · rw [beq_false_of_ne same] at found
      obtain ⟨binding, f₁, f₂, c₁, c₂, rfl, rfl, here, put, before, bound, after⟩ := ih apart found
      refine ⟨binding, (key, old) :: f₁, f₂, (key, site') :: c₁, c₂, rfl, rfl, ?_,
        fun binding' => ?_, .cons first before, bound, after⟩
      · rw [Frame.find?, List.lookup_cons, beq_false_of_ne same]
        exact here
      · show (if key = name then (key, binding') else (key, old)) :: Frame.put _ name binding' = _
        rw [if_neg (Ne.symm same), put]
        rfl

end

/-- A definition that ends once ends with some ends. -/
theorem ended_inj {journal : List Event} (once : (spent journal).Nodup) {site : Site}
    {name : String} {ends ends' : Ends} (first : .ended site name ends ∈ journal)
    (second : .ended site name ends' ∈ journal) : ends = ends' := by
  induction journal with
  | nil => cases first
  | cons event journal ih =>
    have used {ends : Ends} (member : .ended site name ends ∈ journal) :
        .finish site name ∈ spent journal := List.mem_filterMap.mpr ⟨_, member, rfl⟩
    have absent (ends : Ends) (same : event = .ended site name ends) :
        .finish site name ∉ spent journal := by
      rw [spent, List.filterMap_cons_some (by rw [same]; rfl)] at once
      exact (List.nodup_cons.mp once).1
    have once' : (spent journal).Nodup :=
      once.sublist ((List.sublist_cons_self event journal).filterMap Event.mark?)
    rcases List.mem_cons.mp first with here | first <;>
      rcases List.mem_cons.mp second with there | second
    · exact (Event.ended.inj (here.trans there.symm)).2.2
    · exact absurd (used second) (absent ends here.symm)
    · exact absurd (used first) (absent ends' there.symm)
    · exact ih once' first second

/-- There are as many tokens with a component as there are used marks of tokens. -/
theorem length_madeFor (journal : List Event) :
    (madeFor journal).length = (spent journal).countP Mark.isToken := by
  induction journal with
  | nil => rfl
  | cons event journal ih =>
    cases event with
    | made site text => exact (congrArg (· + 1) ih).trans (List.countP_cons_of_pos rfl).symm
    | opened => exact ih
    | begun => exact ih
    | ended => exact ih
    | shared => exact ih

/-! ## The budget -/

/-- The marks of all definitions in scope that were never referred to. -/
def leftIn : List Frame → List Scope → List Mark
  | f :: frames, c :: scopes => f.left c ++ leftIn frames scopes
  | _, _ => []

theorem Frame.left_append {f₁ f₂ : Frame} {c₁ c₂ : Scope} (same : f₁.length = c₁.length) :
    Frame.left (f₁ ++ f₂) (c₁ ++ c₂) = f₁.left c₁ ++ f₂.left c₂ := by
  induction f₁ generalizing c₁ with
  | nil =>
    obtain rfl := List.eq_nil_of_length_eq_zero same.symm
    rfl
  | cons entry f₁ ih =>
    cases c₁ with
    | nil => cases same
    | cons definition c₁ =>
      obtain ⟨name, binding⟩ := entry
      have rest := ih (Nat.succ.inj same)
      cases binding with
      | fresh value =>
        exact (congrArg (Statement.marks _ _ (.define definition.1 value) ++ ·) rest).trans
          (List.append_assoc _ _ _).symm
      | pending => exact rest
      | done ends => exact rest

theorem leftIn_append {fs gs : List Frame} {cs ds : List Scope} (same : fs.length = cs.length) :
    leftIn (fs ++ gs) (cs ++ ds) = leftIn fs cs ++ leftIn gs ds := by
  induction fs generalizing cs with
  | nil =>
    obtain rfl := List.eq_nil_of_length_eq_zero same.symm
    rfl
  | cons f fs ih =>
    cases cs with
    | nil => cases same
    | cons c cs =>
      show f.left c ++ leftIn (fs ++ gs) (cs ++ ds) = _
      rw [ih (Nat.succ.inj same), ← List.append_assoc]
      rfl

/-- How often a mark has been used up or may still be by definitions in scope. -/
def budget (scopes : List Scope) (p : Assembly × List Event) (mark : Mark) : Nat :=
  (spent p.2).count mark + (leftIn p.1.frames scopes).count mark

/-- From one state and journal to another, an assembly stays sound and uses up no more than the
given marks and what definitions in scope had left. -/
structure Advance (scopes : List Scope) (needs : List Mark) (p p' : Assembly × List Event) :
    Prop where
  sound : Sound scopes p'.1 p'.2
  grows : p.2 <:+ p'.2
  spends : ∀ mark, budget scopes p' mark ≤ budget scopes p mark + needs.count mark

theorem Advance.trans {scopes : List Scope} {needs needs' : List Mark}
    {p p' p'' : Assembly × List Event} (first : Advance scopes needs p p')
    (second : Advance scopes needs' p' p'') : Advance scopes (needs ++ needs') p p'' := by
  refine ⟨second.sound, first.grows.trans second.grows, fun mark => ?_⟩
  have := first.spends mark
  have := second.spends mark
  rw [List.count_append]
  omega

/-- From a sound state, after given definitions have been begun, a computation is an advance with
given needs. -/
def Accounts {α : Type} (scopes : List Scope) (within : List Nat) (needs : List Mark)
    (x : Journaling α) : Prop :=
  ∀ p a p', Sound scopes p.1 p.2 → Reached p.2 within → x.run p = .ok (a, p') →
    Advance scopes needs p p'

section

variable {α β : Type} {scopes : List Scope} {within : List Nat} {needs needs' : List Mark}
  {s s' : Assembly} {journal journal' : List Event}

/-! ## Advances -/

theorem Advance.refl (sound : Sound scopes s journal) :
    Advance scopes needs (s, journal) (s, journal) :=
  ⟨sound, List.suffix_refl journal, fun _ => Nat.le_add_right _ _⟩

theorem Advance.mono {p p' : Assembly × List Event} (step : Advance scopes needs p p')
    (more : ∀ mark, needs.count mark ≤ needs'.count mark) : Advance scopes needs' p p' :=
  ⟨step.sound, step.grows, fun mark =>
    Nat.le_trans (step.spends mark) (Nat.add_le_add_left (more mark) _)⟩

/-- A journal goes on with an event that makes no component, where its site is reached and, if it
answers a reference, the definition has ended. -/
theorem Advance.note (sound : Sound scopes s journal) (event : Event)
    (makes : event.made? = none)
    (reached : ∀ mark ∈ event.mark?, Reached journal mark.site.within)
    (shared : ∀ site name ends, event = .shared site name ends →
      .ended site name ends ∈ journal) :
    Advance scopes event.mark?.toList (s, journal) (s, event :: journal) := by
  have grows : journal <:+ event :: journal := List.suffix_cons event journal
  refine ⟨⟨?_, sound.apart, ?_, fun mark member => ?_, fun site name ends member => ?_⟩, grows,
    fun mark => ?_⟩
  · exact sound.frames.imp fun _ _ bound => bound.imp fun _ _ bound => bound.mono grows
  · rw [madeFor, List.filterMap_cons_none makes]
    exact sound.made
  · refine Reached.mono ?_ grows
    obtain ⟨event', among, used⟩ := List.mem_filterMap.mp member
    rcases List.mem_cons.mp among with rfl | among
    · exact reached mark used
    · exact sound.reached mark (List.mem_filterMap.mpr ⟨event', among, used⟩)
  · rcases List.mem_cons.mp member with same | member
    · exact List.mem_cons_of_mem _ (shared site name ends same.symm)
    · exact List.mem_cons_of_mem _ (sound.shared site name ends member)
  · unfold budget spent
    dsimp only
    cases used : event.mark? with
    | none =>
      rw [List.filterMap_cons_none used]
      exact Nat.le_refl _
    | some mark' =>
      rw [List.filterMap_cons_some used, Option.toList_some, List.count_cons, List.count_singleton]
      omega

/-- Edges and module exits are not accounted for. -/
theorem Advance.of_graph (sound : Sound scopes s journal) (frames : s'.frames = s.frames)
    (vertices : s'.components.graph.vertices = s.components.graph.vertices) :
    Advance scopes needs (s, journal) (s', journal) := by
  refine ⟨⟨?_, sound.apart, ?_, sound.reached, sound.shared⟩, List.suffix_refl journal,
    fun mark => ?_⟩
  · exact frames ▸ sound.frames
  · exact vertices ▸ sound.made
  · unfold budget
    dsimp only
    rw [frames]
    exact Nat.le_add_right _ _

/-- A component is added for a token. -/
theorem Advance.make (sound : Sound scopes s journal) {site : Site}
    (reached : Reached journal site.within) {text : String} {blueprint : Blueprint}
    (read : Blueprint.read? text = some blueprint) (name : Option String) :
    Advance scopes [.token site text] (s, journal)
      ({ s with components := s.components.add name blueprint }, .made site text :: journal) := by
  have grows : journal <:+ .made site text :: journal := List.suffix_cons _ journal
  refine ⟨⟨?_, sound.apart, ?_, fun mark member => ?_, fun site' name ends member => ?_⟩, grows,
    fun mark => ?_⟩
  · exact sound.frames.imp fun _ _ bound => bound.imp fun _ _ bound => bound.mono grows
  · show List.Forall₂ _ ((site, text) :: madeFor journal).reverse
      (s.components.graph.vertices.push ⟨s.components.freshKey name blueprint, blueprint⟩).toList
    rw [List.reverse_cons, Array.toList_push]
    exact List.rel_append sound.made (.cons read .nil)
  · refine Reached.mono ?_ grows
    rcases List.mem_cons.mp member with rfl | member
    · exact reached
    · exact sound.reached mark member
  · rcases List.mem_cons.mp member with same | member
    · cases same
    · exact List.mem_cons_of_mem _ (sound.shared site' name ends member)
  · show (Mark.token site text :: spent journal).count mark + (leftIn s.frames scopes).count mark
      ≤ (spent journal).count mark + (leftIn s.frames scopes).count mark + _
    rw [List.count_cons, List.count_singleton]
    omega

/-- A definition of the innermost frame is bound anew, to what has nothing left. What it had left
then is free. -/
theorem Advance.put {c : Scope} (sound : Sound (c :: scopes) s journal) {f : Frame}
    {rest : List Frame} (frames : s.frames = f :: rest) {name : String} {site : Site}
    (here : c.lookup name = some site) (binding : Binding) (empty : binding.isFresh = false)
    (fits : ∀ ends, binding = .done ends → .ended site name ends ∈ journal) :
    Advance (c :: scopes) [] (s, journal) ({ s with frames := f.put name binding :: rest }, journal)
      ∧ ∀ value, f.find? name = some (.fresh value) → ∀ mark,
        budget (c :: scopes) ({ s with frames := f.put name binding :: rest }, journal) mark
          + ((Statement.define name value).marks site.within site.number).count mark
          ≤ budget (c :: scopes) (s, journal) mark := by
  obtain ⟨bound, others⟩ := List.forall₂_cons.mp (frames ▸ sound.frames)
  obtain ⟨old, f₁, f₂, c₁, c₂, rfl, rfl, found, put, before, held, after⟩ :=
    exists_split bound (sound.apart c List.mem_cons_self) here
  have held' : Bound journal (name, binding) (name, site) := ⟨rfl, held.reached, fits⟩
  have now : Frame.left ((name, binding) :: f₂) ((name, site) :: c₂) = Frame.left f₂ c₂ := by
    cases binding with
    | fresh value => cases empty
    | pending => rfl
    | done ends => rfl
  have counts (binding : Binding) (mark : Mark) : budget ((c₁ ++ (name, site) :: c₂) :: scopes)
      ({ s with frames := (f₁ ++ (name, binding) :: f₂) :: rest }, journal) mark
        = (spent journal).count mark + ((Frame.left f₁ c₁).count mark
          + (Frame.left ((name, binding) :: f₂) ((name, site) :: c₂)).count mark
          + (leftIn rest scopes).count mark) := by
    show _ + (Frame.left _ _ ++ leftIn rest scopes).count mark = _
    rw [List.count_append, Frame.left_append before.length_eq, List.count_append]
  have before_put : { s with frames := (f₁ ++ (name, old) :: f₂) :: rest } = s := by rw [← frames]
  have start := counts old
  rw [before_put] at start
  rw [put]
  refine ⟨⟨⟨.cons (List.rel_append before (.cons held' after)) others, sound.apart, sound.made,
    sound.reached, sound.shared⟩, List.suffix_refl journal, fun mark => ?_⟩,
    fun value fresh mark => ?_⟩
  · rw [start, counts, now]
    have kept : (Frame.left f₂ c₂).count mark
        ≤ (Frame.left ((name, old) :: f₂) ((name, site) :: c₂)).count mark := by
      cases old with
      | fresh value =>
        show _ ≤ (Statement.marks _ _ _ ++ Frame.left f₂ c₂).count mark
        rw [List.count_append]
        exact Nat.le_add_left _ _
      | pending => exact Nat.le_refl _
      | done ends => exact Nat.le_refl _
    omega
  · rw [start, counts, now]
    obtain rfl : old = .fresh value := Option.some.inj (found.symm.trans fresh)
    have taken : (Frame.left ((name, .fresh value) :: f₂) ((name, site) :: c₂)).count mark
        = ((Statement.define name value).marks site.within site.number).count mark
          + (Frame.left f₂ c₂).count mark := List.count_append
    omega

/-! ## Computations -/

theorem plain_eq_ok {x : Assembling α} {p p' : Assembly × List Event} {a : α} :
    (Journaling.plain x).run p = .ok (a, p') ↔ ∃ s', x.run p.1 = .ok (a, s') ∧ p' = (s', p.2) := by
  refine (Outcome.bind_eq_ok_iff (x := x.run p.1)).trans ⟨?_, ?_⟩
  · rintro ⟨⟨b, s'⟩, ran, same⟩
    cases same
    exact ⟨s', ran, rfl⟩
  · rintro ⟨s', ran, rfl⟩
    exact ⟨(a, s'), ran, rfl⟩

namespace Accounts

theorem mono {x : Journaling α} (accounts : Accounts scopes within needs x)
    (more : ∀ mark, needs.count mark ≤ needs'.count mark) : Accounts scopes within needs' x :=
  fun p a p' sound reached run => (accounts p a p' sound reached run).mono more

theorem pure (needs : List Mark) (a : α) : Accounts scopes within needs (Pure.pure a) := by
  intro p _ _ sound _ run
  cases run
  exact .refl sound

theorem bind {x : Journaling α} {f : α → Journaling β} (first : Accounts scopes within needs x)
    (second : ∀ a, Accounts scopes within needs' (f a)) :
    Accounts scopes within (needs ++ needs') (x >>= f) := by
  intro p b p' sound reached run
  obtain ⟨a, p₁, run₁, run₂⟩ := Outcome.run_bind_eq_ok.mp run
  have step := first p a p₁ sound reached run₁
  exact step.trans (second a p₁ b p' step.sound (reached.mono step.grows) run₂)

/-- A computation that changes only edges and module exits needs nothing. -/
theorem plain {x : Assembling α} (keeps : ∀ s a s', x.run s = .ok (a, s') →
      s'.frames = s.frames ∧ s'.components.graph.vertices = s.components.graph.vertices) :
    Accounts scopes within [] (Journaling.plain x) := by
  intro p a p' sound _ run
  obtain ⟨s', ran, rfl⟩ := plain_eq_ok.mp run
  obtain ⟨frames, vertices⟩ := keeps p.1 a s' ran
  exact .of_graph sound frames vertices

theorem foldlM {f : β → α → Journaling β} {cost : α → List Mark} (xs : List α)
    (each : ∀ b, ∀ x ∈ xs, Accounts scopes within (cost x) (f b x)) (b : β) :
    Accounts scopes within (xs.flatMap cost) (xs.foldlM f b) := by
  induction xs generalizing b with
  | nil => exact .pure [] b
  | cons x xs ih =>
    exact (each b x List.mem_cons_self).bind fun b' =>
      ih (fun b y member => each b y (List.mem_cons_of_mem x member)) b'

theorem mapM {f : α → Journaling β} {cost : α → List Mark} (xs : List α)
    (each : ∀ x ∈ xs, Accounts scopes within (cost x) (f x)) :
    Accounts scopes within (xs.flatMap cost) (xs.mapM f) := by
  induction xs with
  | nil =>
    rw [List.mapM_nil]
    exact .pure [] []
  | cons x xs ih =>
    rw [List.mapM_cons, List.flatMap_cons, ← List.append_nil (xs.flatMap cost)]
    exact (each x List.mem_cons_self).bind fun _ =>
      (ih fun y member => each y (List.mem_cons_of_mem x member)).bind fun _ => .pure _ _

/-- A scope of its own pays for the definitions in it. -/
theorem inFrame {c : Scope} {f : Frame} {x : Journaling α}
    (bound : ∀ journal, Reached journal within → List.Forall₂ (Bound journal) f c)
    (apart : (c.map Prod.fst).Nodup) (inside : Accounts (c :: scopes) within needs x) :
    Accounts scopes within (f.left c ++ needs) (Journaling.inFrame f x) := by
  rintro ⟨s, journal⟩ a p' sound reached run
  obtain ⟨_, p₁, pushed, run₁⟩ := Outcome.run_bind_eq_ok.mp run
  obtain ⟨b, p₂, ran, run₂⟩ := Outcome.run_bind_eq_ok.mp run₁
  obtain ⟨_, p₃, popped, run₃⟩ := Outcome.run_bind_eq_ok.mp run₂
  cases pushed
  cases popped
  cases run₃
  have entered : Sound (c :: scopes) { s with frames := f :: s.frames } journal :=
    ⟨.cons (bound journal reached) sound.frames, List.forall_mem_cons.mpr ⟨apart, sound.apart⟩,
      sound.made, sound.reached, sound.shared⟩
  obtain ⟨sound', grows, spends⟩ :=
    inside ({ s with frames := f :: s.frames }, journal) _ p₂ entered reached ran
  obtain ⟨f', rest, bound', others, frames⟩ := List.forall₂_cons_right_iff.mp sound'.frames
  refine ⟨⟨?_, sound.apart, sound'.made, sound'.reached, sound'.shared⟩, grows, fun mark => ?_⟩
  · show List.Forall₂ _ p₂.1.frames.tail scopes
    rw [frames]
    exact others
  · have spends := spends mark
    unfold budget at spends ⊢
    dsimp only at spends ⊢
    rw [frames] at spends ⊢
    rw [leftIn, leftIn, List.count_append, List.count_append] at spends
    rw [List.count_append]
    dsimp only [List.tail_cons]
    omega

end Accounts

/-- In the scope of an outer frame, an advance is one of the frames from there on. -/
theorem advance_inOuter (needs : List Mark) {x : Journaling α} {depth : Nat}
    {p p' : Assembly × List Event} {a : α} (sound : Sound scopes p.1 p.2)
    (run : (Journaling.inOuter depth x).run p = .ok (a, p'))
    (inside : ∀ p₁, Sound (scopes.drop depth) { p.1 with frames := p.1.frames.drop depth } p.2 →
      x.run ({ p.1 with frames := p.1.frames.drop depth }, p.2) = .ok (a, p₁) →
      Advance (scopes.drop depth) needs ({ p.1 with frames := p.1.frames.drop depth }, p.2) p₁) :
    Advance scopes needs p p' := by
  obtain ⟨s, journal⟩ := p
  obtain ⟨inner, p₀, looked, run₀⟩ := Outcome.run_bind_eq_ok.mp run
  obtain ⟨_, p₁, dropped, run₁⟩ := Outcome.run_bind_eq_ok.mp run₀
  obtain ⟨b, p₂, ran, run₂⟩ := Outcome.run_bind_eq_ok.mp run₁
  obtain ⟨_, p₃, back, run₃⟩ := Outcome.run_bind_eq_ok.mp run₂
  cases looked
  cases dropped
  cases back
  cases run₃
  have outer : Sound (scopes.drop depth) { s with frames := s.frames.drop depth } journal :=
    ⟨List.forall₂_drop depth sound.frames,
      fun c member => sound.apart c (List.mem_of_mem_drop member), sound.made, sound.reached,
      sound.shared⟩
  obtain ⟨sound', grows, spends⟩ := inside p₂ outer ran
  have aside : List.Forall₂ (List.Forall₂ (Bound p₂.2)) (s.frames.take depth) (scopes.take depth) :=
    (List.forall₂_take depth sound.frames).imp fun _ _ bound => bound.imp fun _ _ bound =>
      bound.mono grows
  refine ⟨⟨?_, sound.apart, sound'.made, sound'.reached, sound'.shared⟩, grows, fun mark => ?_⟩
  · have all := List.rel_append aside sound'.frames
    dsimp only at all
    rw [List.take_append_drop] at all
    exact all
  · have spends := spends mark
    have split (frames : List Frame) :
        leftIn (s.frames.take depth ++ frames) scopes
          = leftIn (s.frames.take depth) (scopes.take depth)
            ++ leftIn frames (scopes.drop depth) := by
      rw [← leftIn_append aside.length_eq, List.take_append_drop]
    have start := split (s.frames.drop depth)
    rw [List.take_append_drop] at start
    unfold budget at spends ⊢
    dsimp only at spends ⊢
    rw [start, split, List.count_append, List.count_append]
    omega

end

end LayerNet
