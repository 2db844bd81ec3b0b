import Hotstuff.Lib.Runs
import Hotstuff.Worker

/-! A node: one worker, the call it is in the middle of, and what can happen to it. -/
namespace Hotstuff

variable {B : BlockT}

/-- What the rest of the node's process may change between two handler bodies: the client
and its notifications, faults of the backend, and the answers of the keystore. -/
structure Environment (B : BlockT) where
  client : Client B
  pendingFinalizeQueue : Option (List (BlockInfo B))
  getError : B.Hash → Option String
  setError : B.Hash → Option String
  signWith : B.AuthorityId → B.Hash → Except String (Option B.AuthoritySignature)

/-- The contents of the auxiliary store and the set of keys are not touched. -/
def ConsensusWorker.observe (w : ConsensusWorker B) (env : Environment B) :
    ConsensusWorker B :=
  { w with
    state := { w.state with keystore := { w.state.keystore with signWith := env.signWith } }
    client := env.client
    pendingFinalizeQueue := env.pendingFinalizeQueue
    synchronizer := { w.synchronizer with
      store := { w.synchronizer.store with getError := env.getError, setError := env.setError } } }

structure Node (B : BlockT) where
  worker : ConsensusWorker B
  pending : Option (Call B)

inductive Action (B : BlockT) where
  | timer
  | receive (message : ConsensusMessage B)
  | resume
  | environment (env : Environment B)

namespace Node

/-- The call an action enters. The worker is one task, so the timer and the messages wait
until the call in hand has come to its end. -/
def entered (n : Node B) : Action B → Option (Call B)
  | .timer => if n.pending.isNone then some .localTimer else none
  | .receive m => if n.pending.isNone then Call.ofMessage m else none
  | .resume => n.pending
  | .environment _ => none

/-- `run` only logs the error of a handler. -/
def enter (n : Node B) (c : Call B) : Node B :=
  let r := (n.worker.emit (.handled c)).handle c
  ⟨r.1, match r.2 with
    | .ok next => next
    | .error _ => none⟩

def step (n : Node B) (a : Action B) : Node B :=
  match a with
  | .environment env => { n with worker := n.worker.observe env }
  | a =>
    match n.entered a with
    | some c => n.enter c
    | none => n

end Node

structure Setup (B : BlockT) where
  keystore : Keystore B
  authorities : AuthorityList B
  nonempty : 0 < authorities.length
  client : Client B
  synchronizer : Synchronizer B
  queue : Option (List (BlockInfo B))

def Setup.start (g : Setup B) : Node B :=
  ⟨ConsensusWorker.new (ConsensusState.new g.keystore g.authorities g.nonempty) g.client
    g.synchronizer g.queue, none⟩

def Setup.run (g : Setup B) (actions : List (Action B)) : Node B :=
  Runs.run Node.step g.start actions

theorem Setup.run_snoc (g : Setup B) (actions : List (Action B)) (a : Action B) :
    g.run (actions ++ [a]) = (g.run actions).step a :=
  Runs.run_snoc Node.step g.start actions a

theorem ConsensusWorker.observe_same (w : ConsensusWorker B) : ∃ env, w.observe env = w :=
  ⟨⟨w.client, w.pendingFinalizeQueue, w.synchronizer.store.getError, w.synchronizer.store.setError,
    w.state.keystore.signWith⟩, rfl⟩

theorem Node.step_entered {n : Node B} {a : Action B} {c : Call B}
    (entered : n.entered a = some c) : n.step a = n.enter c := by
  cases a with
  | environment env => cases entered
  | timer | receive | resume => simp only [step, entered]

/-- A step that enters no call changes the surroundings, if only to what they were. -/
theorem Node.step_not_entered {n : Node B} {a : Action B} (idle : n.entered a = none) :
    ∃ env, n.step a = { n with worker := n.worker.observe env } := by
  cases a with
  | environment env => exact ⟨env, rfl⟩
  | timer | receive | resume =>
    obtain ⟨env, same⟩ := n.worker.observe_same
    refine ⟨env, ?_⟩
    rw [same]
    simp only [step, idle]

theorem Node.step_cases (n : Node B) (a : Action B) :
    (∃ env, n.step a = { n with worker := n.worker.observe env }) ∨
      ∃ c, n.entered a = some c ∧ n.step a = n.enter c := by
  cases entered : n.entered a with
  | none => exact .inl (step_not_entered entered)
  | some c => exact .inr ⟨c, rfl, step_entered entered⟩

end Hotstuff
