import LayerNet.Architecture.Reader
import LayerNet.Component.Assembly
import LayerNet.Component.Normal
import LayerNet.Network.Build

/-!
# Compilation — from text to network

An architecture is read, assembled, brought into normal form and built. All of it but the last needs
no tensor, so errors of the grammar and the wiring come before any about shapes.
-/

namespace LayerNet

/-- A result without the fatal end. -/
def Outcome.ofExcept {ε α : Type} : Except ε α → Outcome ε α
  | .ok a => .ok a
  | .error cause => Outcome.fail cause

/-- The normal component graph of an architecture. -/
def componentsOf (text : String) : Outcome CompileError ComponentGraph := do
  let statements ← Outcome.ofExcept (readArchitecture text)
  let assembled ← ComponentGraph.assemble statements
  Outcome.ofExcept assembled.components.normalize

/-- The network of an architecture, and the store with its parameters. -/
def compile (text : String) (options : Options) (store : Store) :
    Outcome CompileError (Network × Store) := do
  let components ← componentsOf text
  let (network, supply) ← (components.build options).run ⟨store, Generator.ofSeed options.seed⟩
  return (network, supply.store)

end LayerNet
