import Hotstuff.Node

/-! `import.rs`: the import of justifications, the second way into a node. -/
namespace Hotstuff

variable {B : BlockT}

/-- `sp_runtime::Justification`: the id of an engine and the encoded justification. -/
abbrev Justification (B : BlockT) := List B.Byte × List B.Byte

/-- `HotstuffBlockImport::import_justification`. Of its arguments only the hash is read, and an
error of `finalize_block` is printed and dropped. -/
def HotstuffBlockImport.importJustification (inner : Client B) (hash : B.Hash)
    (_number : B.Number) (_justification : Justification B) (_enactsChange _initialSync : Bool) :
    Client B × Except String Unit :=
  match inner.finalizeBlock hash with
  | .ok number => ({ inner with finalizedHash := hash, finalizedNumber := number }, .ok ())
  | .error _ => (inner, .ok ())

/-- The method of the trait `JustificationImport`. -/
def JustificationImport.importJustification (inner : Client B) (hash : B.Hash)
    (number : B.Number) (justification : Justification B) : Client B × Except String Unit :=
  HotstuffBlockImport.importJustification inner hash number justification false false

/-- What can happen to a node whose client also imports justifications. -/
inductive Input (B : BlockT) where
  | action (action : Action B)
  | justification (hash : B.Hash) (number : B.Number) (justification : Justification B)

/- The import runs in a task of its own and shares the client with the worker. -/
def Node.absorb (n : Node B) : Input B → Node B
  | .action a => n.step a
  | .justification hash number justification =>
    { n with worker := { n.worker with client :=
        (JustificationImport.importJustification n.worker.client hash number justification).1 } }

def Setup.absorb (g : Setup B) (inputs : List (Input B)) : Node B :=
  Runs.run Node.absorb g.start inputs

end Hotstuff
