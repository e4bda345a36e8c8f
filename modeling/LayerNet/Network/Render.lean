import LayerNet.Network.Basic

/-!
# Rendering — the architecture that a network has

A network is written as the path from its root. Where the path branches at a split, the branches
become a module, and the path goes on behind the concatenation in which all of them meet. A
concatenation that not all of its incoming edges have reached ends the path, and is left to the
module around it; so neither splits nor the concatenations that close a module are written.
-/

namespace LayerNet

/-- A path as far as it goes alone: its tokens, and the concatenation that it ran into with the
number of edges by which it did. -/
structure Path where
  tokens : List String
  merge : Option (Nat × Nat)

namespace Path

/-- The path with tokens in front. -/
def after (tokens : List String) (p : Path) : Path := { p with tokens := tokens ++ p.tokens }

/-- The concatenation in which all branches meet, with the edges by which they reach it. -/
def meeting? : List Path → Option (Nat × Nat)
  | [] => none
  | [p] => p.merge
  | p :: rest =>
    match p.merge, meeting? rest with
    | some (v, m), some (w, n) => if v = w then some (v, m + n) else none
    | _, _ => none

/-- A module of branches. -/
def module (branches : List Path) : String :=
  "\x7b" ++ ",".intercalate (branches.map fun b => "~".intercalate b.tokens) ++ "\x7d"

end Path

namespace Network

/-- The path from a node, of at most a number of steps. -/
def pathFrom (n : Network) (store : Store) : Nat → Nat → Checked Path
  | 0, _ => Outcome.fatal
  | steps + 1, v => do
    let node ← Outcome.get (n.node? v)
    if node.layer.kind = .concat ∧ 1 < n.graph.inDegree v then return ⟨[], some (v, 1)⟩
    else
      let own ←
        if node.layer.kind = .split then pure []
        else (fun token => [token]) <$> node.layer.token store
      match n.graph.successorsInOrder v with
      | [] => return ⟨own, none⟩
      | [next] => return (← pathFrom n store steps next).after own
      | successors =>
        let branches ← successors.mapM (pathFrom n store steps)
        let tokens := own ++ [Path.module branches]
        match Path.meeting? branches with
        | none => return ⟨tokens, none⟩
        | some (concat, arrivals) =>
          if arrivals ≠ n.graph.inDegree concat then return ⟨tokens, some (concat, arrivals)⟩
          else
            match n.graph.successorsInOrder concat with
            | [] => return ⟨tokens, none⟩
            | next :: _ => return (← pathFrom n store steps next).after tokens

/-- The architecture of a network. -/
def architecture (n : Network) (store : Store) : Checked String := do
  match n.graph.roots with
  | [] => return ""
  | root :: _ => return ",".intercalate (← n.pathFrom store (n.nodeCount + 1) root).tokens

end Network

end LayerNet
