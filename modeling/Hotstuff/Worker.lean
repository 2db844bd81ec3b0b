import Hotstuff.State

/-! `ConsensusWorker` of `consensus.rs` with the synchronizer and the store it uses. Every
recursive call of a handler stands in tail position in the source (`self.h(..).await?`
followed by `Ok(())`), so a handler here returns the call it ends with and the run of a
node enters that call next. -/
namespace Hotstuff

variable {B : BlockT}

inductive BlockStatus where
  | inChain | unknown
  deriving DecidableEq

structure BlockInfo (B : BlockT) where
  hash : Option B.Hash
  number : B.Number
  deriving DecidableEq

/-- What the worker sees of the substrate client at one moment. `finalizeBlock` is the
answer the client would give: an error, or the number of the block it has finalized. -/
structure Client (B : BlockT) where
  status : B.Hash → Except String BlockStatus
  finalizedHash : B.Hash
  finalizedNumber : B.Number
  finalizeBlock : B.Hash → Except String B.Number

/-- `store.rs` over the auxiliary store of the client. `none` in the error fields means
that the backend serves the key. -/
structure Store (B : BlockT) where
  aux : B.Hash → Option (List B.Byte)
  getError : B.Hash → Option String
  setError : B.Hash → Option String

def Store.get (s : Store B) (key : B.Hash) : Except String (Option (List B.Byte)) :=
  match s.getError key with
  | some e => .error e
  | none => .ok (s.aux key)

def Store.set (s : Store B) (key : B.Hash) (value : List B.Byte) : Except String (Store B) :=
  match s.setError key with
  | some e => .error e
  | none => .ok { s with aux := Function.update s.aux key (some value) }

/-- `synchronizer.rs`, with the SCALE codec of `Proposal` as a parameter. -/
structure Synchronizer (B : BlockT) where
  encode : Proposal B → List B.Byte
  decode : List B.Byte → Except String (Proposal B)
  store : Store B

namespace Synchronizer

def saveProposal (s : Synchronizer B) (p : Proposal B) :
    Except (HotstuffError B) (Synchronizer B) :=
  match s.store.set p.digest (s.encode p) with
  | .error e => .error (.saveProposal e)
  | .ok store => .ok { s with store := store }

def getProposalParent (s : Synchronizer B) (p : Proposal B) :
    Except (HotstuffError B) (Proposal B) :=
  match s.store.get p.parentHash with
  | .error e => .error (.other e)
  | .ok none => .error .proposalNoParent
  | .ok (some data) =>
    match s.decode data with
    | .error e => .error (.other e)
    | .ok parent => .ok parent

def getProposalAncestors (s : Synchronizer B) (p : Proposal B) :
    Except (HotstuffError B) (Proposal B × Proposal B) :=
  match s.getProposalParent p with
  | .error e => .error e
  | .ok parent =>
    match s.getProposalParent parent with
    | .error e => .error e
    | .ok grandpa => .ok (parent, grandpa)

end Synchronizer

/-- The handlers a worker can be asked to run. -/
inductive Call (B : BlockT) where
  | localTimer
  | timeout (timeout : Timeout B)
  | proposal (proposal : Proposal B)
  | vote (vote : Vote B)
  | tc (tc : TC B)
  deriving DecidableEq

/-- The arms of the `select!` in `run`; other messages are dropped there. -/
def Call.ofMessage : ConsensusMessage B → Option (Call B)
  | .propose p => some (.proposal p)
  | .vote v => some (.vote v)
  | .timeout t => some (.timeout t)
  | .tc c => some (.tc c)
  | .syncRequest _ _ => none
  | .phantom => none

/-- The history of a worker. The first four are its effects on the outside; the others are
marks without a counterpart in the source, set where the source reaches that point. -/
inductive Event (B : BlockT) where
  | gossip (message : ConsensusMessage B)
  | setSyncForkRequest (hash : B.Hash) (number : B.Number)
  | finalizeBlock (hash : B.Hash)
  | resetTimer
  | handled (call : Call B)
  | localTimer
  | timedOut (timeout : Timeout B)
  | verified (proposal : Proposal B)
  | acceptQc (qc : QC B)
  | acceptTc (tc : TC B)
  | collected (qc : QC B)
  | voted (proposal : Proposal B) (vote : Vote B)
  | proposed (proposal : Proposal B)
  | canFinalize (proposal parent grandpa : Proposal B)
  deriving DecidableEq

/-- The state a worker is in when an event happens. -/
structure Moment (B : BlockT) where
  view : ViewNumber
  lastVotedView : ViewNumber
  highQc : QC B
  deriving DecidableEq

def ConsensusState.moment (s : ConsensusState B) : Moment B :=
  ⟨s.view, s.lastVotedView, s.highQc⟩

structure ConsensusWorker (B : BlockT) where
  state : ConsensusState B
  /-- The view of the gossip validator behind `network.set_view`. -/
  networkView : ViewNumber
  client : Client B
  synchronizer : Synchronizer B
  processingBlock : Option (BlockInfo B)
  /-- `none` is a poisoned lock. -/
  pendingFinalizeQueue : Option (List (BlockInfo B))
  proposalHashQueue : List B.Hash
  trace : List (Moment B × Event B)

/-- How a handler ends: with an error, or with the call in its tail position if it has one. -/
abbrev Outcome (B : BlockT) := ConsensusWorker B × Except (HotstuffError B) (Option (Call B))

namespace ConsensusWorker

def new (state : ConsensusState B) (client : Client B) (synchronizer : Synchronizer B)
    (queue : Option (List (BlockInfo B))) : ConsensusWorker B where
  state := state
  networkView := 0
  client := client
  synchronizer := synchronizer
  processingBlock := queue.bind List.head?
  pendingFinalizeQueue := queue
  proposalHashQueue := []
  trace := []

def emit (w : ConsensusWorker B) (e : Event B) : ConsensusWorker B :=
  { w with trace := w.trace ++ [(w.state.moment, e)] }

def done (w : ConsensusWorker B) : Outcome B := (w, .ok none)

def fail (w : ConsensusWorker B) (e : HotstuffError B) : Outcome B := (w, .error e)

def call (w : ConsensusWorker B) (c : Call B) : Outcome B := (w, .ok (some c))

def advanceView (w : ConsensusWorker B) (view : ViewNumber) : ConsensusWorker B :=
  let state := w.state.advanceViewFromTarget view
  { w with state := state, networkView := state.view }

def handleQc (w : ConsensusWorker B) (qc : QC B) : ConsensusWorker B :=
  let w := w.emit (.acceptQc qc)
  if w.state.view ≤ qc.view then
    let w := w.advanceView qc.view
    let w := { w with state := w.state.updateHighQc qc }
    w.emit .resetTimer
  else w

def getProposalPayload (w : ConsensusWorker B) : ConsensusWorker B × Option (Payload B) :=
  match w.pendingFinalizeQueue with
  | none => (w, none)
  | some queue =>
    match w.processingBlock with
    | some processing =>
      if w.client.finalizedNumber < processing.number then
        (w, some ⟨B.emptyPayloadHash, processing.number⟩)
      else
        match queue.find? fun elem => w.client.finalizedNumber < elem.number with
        | some found =>
          ({ w with processingBlock := some found },
            some ⟨found.hash.getD B.emptyPayloadHash, found.number⟩)
        | none => (w, some ⟨B.emptyPayloadHash, processing.number⟩)
    | none =>
      match queue.head? with
      | some info =>
        ({ w with processingBlock := some info },
          some ⟨info.hash.getD B.emptyPayloadHash, info.number⟩)
      | none => (w, none)

/-- Gossip a signed proposal and handle it oneself. -/
def propose (w : ConsensusWorker B) (p : Proposal B) : Outcome B :=
  ((w.emit (.proposed p)).emit (.gossip (.propose p))).call (.proposal p)

def generateProposal (w : ConsensusWorker B) (tc : Option (TC B)) : Outcome B :=
  match w.getProposalPayload with
  | (w, none) => w.done
  | (w, some payload) =>
    match w.state.makeProposal payload tc with
    | .error e => w.fail e
    | .ok p => w.propose p

def handleLocalTimer (w : ConsensusWorker B) : Outcome B :=
  let w := w.emit .resetTimer
  let w := { w with state := w.state.increaseLastVotedView }
  let w := w.emit .localTimer
  match w.state.makeTimeout with
  | .error e => w.fail e
  | .ok t => ((w.emit (.timedOut t)).emit (.gossip (.timeout t))).call (.timeout t)

/-- The end of `handle_timeout`: pass the certificate on, and propose on it as a leader. -/
def announceTc (w : ConsensusWorker B) (tc : TC B) : Outcome B :=
  let w := w.emit (.gossip (.tc tc))
  if w.state.isLeader then { w with processingBlock := none }.generateProposal (some tc)
  else w.done

/-- The part of `handle_timeout` after `add_timeout` has returned a certificate. -/
def handleFormedTc (w : ConsensusWorker B) (tc : TC B) : Outcome B :=
  let w := w.emit (.acceptTc tc)
  let w := if w.state.view ≤ tc.view then (w.advanceView tc.view).emit .resetTimer else w
  w.announceTc tc

def handleTimeout (w : ConsensusWorker B) (t : Timeout B) : Outcome B :=
  if t.view < w.state.view then w.done
  else
    match w.state.verifyTimeout t with
    | .error e => w.fail e
    | .ok _ =>
      let w := w.handleQc t.highQc
      let r := w.state.addTimeout t
      let w := { w with state := r.1 }
      match r.2 with
      | .error e => w.fail e
      | .ok none => w.done
      | .ok (some tc) => w.handleFormedTc tc

/-- `Ok(true)`: go on; `Ok(false)`: the payload is unknown and a sync was requested. -/
def checkPayload (w : ConsensusWorker B) (payload : Payload B) :
    Except (HotstuffError B) Bool :=
  if payload.blockHash = B.emptyPayloadHash then .ok true
  else
    match w.client.status payload.blockHash with
    | .ok .unknown => .ok false
    | .ok .inChain => .ok true
    | .error e => .error (.clientError e)

/-- The TC of a proposal is not verified by anyone; the guard asks for one ahead of the
view, which `advance_view` does not follow. -/
def handleProposalTc (w : ConsensusWorker B) : Option (TC B) → ConsensusWorker B
  | none => w
  | some tc =>
    if w.state.view < tc.view then (w.advanceView tc.view).emit .resetTimer else w

/-- The two-chain commit rule on the ancestors found in the store. -/
def tryFinalize (w : ConsensusWorker B) (p : Proposal B) : ConsensusWorker B :=
  match w.synchronizer.getProposalAncestors p with
  | .error _ => w
  | .ok (parent, grandpa) =>
    if parent.view = grandpa.view + 1 then
      let w := w.emit (.canFinalize p parent grandpa)
      let hash := grandpa.payload.blockHash
      if hash ≠ B.emptyPayloadHash ∧ hash ≠ w.client.finalizedHash then
        let w := w.emit (.finalizeBlock hash)
        match w.client.finalizeBlock hash with
        | .error _ => w
        | .ok number =>
          { w with client :=
              { w.client with finalizedHash := hash, finalizedNumber := number } }
      else w
    else w

/-- The part of `handle_proposal` from the view check on. -/
def voteFor (w : ConsensusWorker B) (p : Proposal B) : Outcome B :=
  if p.view ≠ w.state.view then w.done
  else
    match w.state.makeVote p with
    | (state, none) => { w with state := state }.done
    | (state, some vote) =>
      let w := { w with state := state }
      let w := w.emit (.voted p vote)
      let w := { w with
        proposalHashQueue := w.proposalHashQueue ++ [p.payload.blockHash]
        processingBlock := some ⟨some p.payload.blockHash, p.payload.blockNumber⟩ }
      let nextLeaderId := w.state.viewLeader (w.state.view + 1)
      if w.state.localAuthorityId = some nextLeaderId then w.call (.vote vote)
      else (w.emit (.gossip (.vote vote))).done

def handleProposal (w : ConsensusWorker B) (p : Proposal B) : Outcome B :=
  match w.checkPayload p.payload with
  | .error e => w.fail e
  | .ok false =>
    (w.emit (.setSyncForkRequest p.payload.blockHash p.payload.blockNumber)).done
  | .ok true =>
    match w.state.verifyProposal p with
    | .error e => w.fail e
    | .ok _ =>
      let w := w.emit (.verified p)
      let w := w.handleQc p.qc
      let w := w.handleProposalTc p.tc
      match w.synchronizer.saveProposal p with
      | .error e => w.fail e
      | .ok synchronizer => ({ w with synchronizer := synchronizer }.tryFinalize p).voteFor p

/-- The loop over `proposal_hash_queue` from its end: an empty payload is withheld after
two empty ones. -/
def withheld (payload : Payload B) (count : Nat) : List B.Hash → Bool
  | [] => false
  | item :: rest =>
    if item ≠ B.emptyPayloadHash then false
    else if count + 1 = 2 ∧ payload.blockHash = B.emptyPayloadHash then true
    else withheld payload (count + 1) rest

/-- The part of `handle_vote` run by the leader of the view it has entered. -/
def proposeOnQc (w : ConsensusWorker B) : Outcome B :=
  match w.getProposalPayload with
  | (w, none) => w.done
  | (w, some payload) =>
    if withheld payload 0 w.proposalHashQueue.reverse then w.done
    else
      let queue := if 3 < w.proposalHashQueue.length then [] else w.proposalHashQueue
      let w := { w with proposalHashQueue := queue ++ [payload.blockHash] }
      match w.state.makeProposal payload none with
      | .error e => w.fail e
      | .ok p => w.propose p

def handleVote (w : ConsensusWorker B) (v : Vote B) : Outcome B :=
  match w.state.verifyVote v with
  | .error e => w.fail e
  | .ok _ =>
    let r := w.state.addVote v
    let w := { w with state := r.1 }
    match r.2 with
    | .error e => w.fail e
    | .ok none => w.done
    | .ok (some qc) =>
      let w := w.emit (.collected qc)
      let w := w.handleQc qc
      if w.state.localAuthorityId = some (w.state.viewLeader w.state.view) then w.proposeOnQc
      else w.done

def handleTc (w : ConsensusWorker B) (tc : TC B) : Outcome B :=
  match w.state.verifyTc tc with
  | .error e => w.fail e
  | .ok _ =>
    let w := w.emit (.acceptTc tc)
    let w := (w.advanceView tc.view).emit .resetTimer
    let w := { w with processingBlock := none }
    if w.state.isLeader then w.generateProposal none else w.done

def handle (w : ConsensusWorker B) : Call B → Outcome B
  | .localTimer => w.handleLocalTimer
  | .timeout t => w.handleTimeout t
  | .proposal p => w.handleProposal p
  | .vote v => w.handleVote v
  | .tc tc => w.handleTc tc

end ConsensusWorker

end Hotstuff
