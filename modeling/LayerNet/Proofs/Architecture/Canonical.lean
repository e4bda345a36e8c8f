import LayerNet.Blueprint.Instantiate
import LayerNet.Blueprint.Reader
import LayerNet.Proofs.Architecture.Reading
import LayerNet.Proofs.Session.Recording

/-!
# Canonical architectures — items, and how they are written

A canonical architecture defines no names. It is a list of items: tokens, each the token of the
layer that it builds, and modules of two branches or more. A branch is a list of items that begins
with a token, and modules are never next to each other (`Item.Canonical`).

It has one text (`Item.architecture`), without blanks, and that is read as its items
(`Item.readArchitecture_architecture`).
-/

namespace LayerNet

/-- A part of a canonical architecture: a token, or a module of branches. -/
inductive Item where
  | token (text : String)
  | module (branches : List (List Item))

namespace Item

/-! ## Texts -/

mutual

/-- The text of an item. -/
def text : Item → String
  | .token text => text
  | .module branches => "\x7b" ++ ",".intercalate (branchTexts branches) ++ "\x7d"

/-- The texts of items. -/
def texts : List Item → List String
  | [] => []
  | item :: rest => item.text :: texts rest

/-- The texts of branches. -/
def branchTexts : List (List Item) → List String
  | [] => []
  | branch :: rest => "~".intercalate (texts branch) :: branchTexts rest

end

/-- The text of a canonical architecture. -/
def architecture (items : List Item) : String := ",".intercalate (texts items)

/-! ## Statements -/

mutual

/-- The segment that an item stands for. -/
def segment : Item → Segment
  | .token text => .token text
  | .module branches => .module (branchChains branches)

/-- The segments that items stand for. -/
def segments : List Item → List Segment
  | [] => []
  | item :: rest => item.segment :: segments rest

/-- Each branch is a chain. -/
def branchChains : List (List Item) → List Statement
  | [] => []
  | branch :: rest => .chain (segments branch) :: branchChains rest

end

/-- Each item at the top level is a chain of its own. -/
def statements (items : List Item) : List Statement := (segments items).map fun s => .chain [s]

/-! ## Canonical items -/

/-- A token of a layer, but not of a split or a concatenation, that the layer writes as its own. -/
def IsLayerToken (text : String) : Prop :=
  IsToken text.toList ∧ ∃ blueprint placement supply layer supply',
    Blueprint.read? text = some blueprint
      ∧ blueprint.isSplit = false ∧ blueprint.isConcat = false
      ∧ supply.store.WellFormed
      ∧ (blueprint.instantiate placement).run supply = .ok (layer, supply')
      ∧ layer.token supply'.store = .ok text

/-- The item is a module. -/
def IsModule : Item → Prop
  | .token _ => False
  | .module _ => True

/-- The first item is a token. -/
def BeginsWithToken : List Item → Prop
  | [] => False
  | item :: _ => ¬ item.IsModule

mutual

/-- A token is a layer's own. A module has two branches or more. -/
def Canonical : Item → Prop
  | .token text => IsLayerToken text
  | .module branches => 2 ≤ branches.length ∧ CanonicalBranches branches

/-- The items are canonical, and no module is next to another. -/
def CanonicalItems : List Item → Prop
  | [] => True
  | item :: rest =>
    item.Canonical ∧ (item.IsModule → rest = [] ∨ BeginsWithToken rest) ∧ CanonicalItems rest

/-- The branches are canonical, and each begins with a token. -/
def CanonicalBranches : List (List Item) → Prop
  | [] => True
  | branch :: rest => BeginsWithToken branch ∧ CanonicalItems branch ∧ CanonicalBranches rest

end

/-! ## Reading -/

theorem toList_intercalate_comma (parts : List String) :
    (",".intercalate parts).toList = Reader.joined ',' (parts.map String.toList) :=
  String.toList_intercalate

theorem toList_intercalate_tilde (parts : List String) :
    ("~".intercalate parts).toList = Reader.joined '~' (parts.map String.toList) :=
  String.toList_intercalate

theorem BeginsWithToken.ne_nil {items : List Item} (begins : BeginsWithToken items) :
    items ≠ [] := by
  rintro rfl
  exact begins

theorem segments_ne_nil {items : List Item} (some : items ≠ []) : segments items ≠ [] := by
  cases items with
  | nil => exact absurd rfl some
  | cons item rest => exact List.cons_ne_nil _ _

mutual

/-- What a canonical item stands for is well formed, and its text is the item's. -/
theorem written_segment : ∀ item : Item, item.Canonical →
    item.segment.WellFormed ∧ item.segment.Written item.text.toList
  | .token _, own => ⟨own.1, rfl⟩
  | .module branches, ⟨several, each⟩ => by
    obtain ⟨formed, written⟩ := written_branchChains branches each
    refine ⟨⟨?_, formed⟩, _, written, ?_⟩
    · cases branches with
      | nil => simp at several
      | cons first rest => exact List.cons_ne_nil _ _
    · rw [text, String.toList_append, String.toList_append, toList_intercalate_comma]
      rfl

theorem written_segments : ∀ items : List Item, CanonicalItems items →
    Segment.AllWellFormed (segments items)
      ∧ Segment.AllWritten (segments items) ((texts items).map String.toList)
  | [], _ => ⟨trivial, rfl⟩
  | item :: rest, ⟨own, _, others⟩ =>
    have first := written_segment item own
    have tail := written_segments rest others
    ⟨⟨first.1, tail.1⟩, _, _, _, rfl, first.2, .refl _, tail.2⟩

theorem written_branchChains : ∀ branches : List (List Item), CanonicalBranches branches →
    Statement.AllWellFormed (branchChains branches)
      ∧ Statement.AllWritten (branchChains branches) ((branchTexts branches).map String.toList)
  | [], _ => ⟨trivial, rfl⟩
  | branch :: rest, ⟨begins, own, others⟩ =>
    have first := written_segments branch own
    have tail := written_branchChains rest others
    ⟨⟨⟨segments_ne_nil begins.ne_nil, first.1⟩, tail.1⟩, _, _, _, rfl,
      ⟨_, first.2, toList_intercalate_tilde (texts branch)⟩, .refl _, tail.2⟩

end

/-- A canonical architecture is read as its items. -/
theorem readArchitecture_architecture {items : List Item} (some : items ≠ [])
    (canonical : CanonicalItems items) :
    readArchitecture (architecture items) = .ok (statements items) := by
  obtain ⟨formed, written⟩ := written_segments items canonical
  have each (segments : List Segment) (parts : List (List Char))
      (formed : Segment.AllWellFormed segments) (written : Segment.AllWritten segments parts) :
      Statement.AllWellFormed (segments.map fun s => .chain [s])
        ∧ Statement.AllWritten (segments.map fun s => .chain [s]) parts := by
    induction segments generalizing parts with
    | nil => exact ⟨trivial, written⟩
    | cons segment rest ih =>
      obtain ⟨core, part, others, rfl, first, pads, tail⟩ := written
      obtain ⟨formed', written'⟩ := ih others formed.2 tail
      refine ⟨⟨⟨List.cons_ne_nil _ _, formed.1, trivial⟩, formed'⟩, part, part, others, rfl,
        ⟨[part], ⟨core, part, [], rfl, first, pads, rfl⟩, ?_⟩, .refl part, written'⟩
      exact (Reader.joined_singleton part).symm
  obtain ⟨formed', written'⟩ := each _ _ formed written
  refine readArchitecture_of_isPrinting ⟨?_, formed'⟩
    ⟨_, written', toList_intercalate_comma (texts items)⟩
  exact fun empty => segments_ne_nil some (List.map_eq_nil_iff.mp empty)

end Item

end LayerNet
