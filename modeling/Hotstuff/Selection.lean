import Hotstuff.Gossip

/-! What a worker chooses its payloads from, and what each handler does to it. -/
namespace Hotstuff

variable {B : BlockT}

/-- A proposal that a node has made or voted for. -/
inductive Undertaking (B : BlockT) where
  | proposed (proposal : Proposal B)
  | voted (proposal : Proposal B)
  deriving DecidableEq

def Undertaking.proposal : Undertaking B → Proposal B
  | .proposed p => p
  | .voted p => p

def Undertaking.ofEvent : Event B → Option (Undertaking B)
  | .proposed p => some (.proposed p)
  | .voted p _ => some (.voted p)
  | _ => none

/-- The fields that `get_proposal_payload` and the check for empty proposals read, beside the
record of the proposals they are about. -/
structure Desk (B : BlockT) where
  client : Client B
  pending : Option (List (BlockInfo B))
  processing : Option (BlockInfo B)
  hashes : List B.Hash
  record : List (Undertaking B)

def ConsensusWorker.desk (w : ConsensusWorker B) : Desk B where
  client := w.client
  pending := w.pendingFinalizeQueue
  processing := w.processingBlock
  hashes := w.proposalHashQueue
  record := w.trace.filterMap fun x => Undertaking.ofEvent x.2

/-- The payload chosen at a desk, and the block in process after it. -/
inductive Chooses (d : Desk B) : Option (BlockInfo B) → Payload B → Prop where
  | working {queue : List (BlockInfo B)} {block : BlockInfo B} (lock : d.pending = some queue)
      (processing : d.processing = some block)
      (unfinished : d.client.finalizedNumber < block.number) :
      Chooses d (some block) ⟨B.emptyPayloadHash, block.number⟩
  | next {queue : List (BlockInfo B)} {block found : BlockInfo B} (lock : d.pending = some queue)
      (processing : d.processing = some block) (finished : block.number ≤ d.client.finalizedNumber)
      (member : found ∈ queue) (above : d.client.finalizedNumber < found.number) :
      Chooses d (some found) ⟨found.hash.getD B.emptyPayloadHash, found.number⟩
  | exhausted {queue : List (BlockInfo B)} {block : BlockInfo B} (lock : d.pending = some queue)
      (processing : d.processing = some block) (finished : block.number ≤ d.client.finalizedNumber)
      (none_above : ∀ info ∈ queue, info.number ≤ d.client.finalizedNumber) :
      Chooses d (some block) ⟨B.emptyPayloadHash, block.number⟩
  | front {info : BlockInfo B} {rest : List (BlockInfo B)} (lock : d.pending = some (info :: rest))
      (idle : d.processing = none) :
      Chooses d (some info) ⟨info.hash.getD B.emptyPayloadHash, info.number⟩

/-- Two empty payloads at the end of `proposal_hash_queue`. -/
def Spent (hashes : List B.Hash) : Prop :=
  ∃ older, hashes = older ++ [B.emptyPayloadHash, B.emptyPayloadHash]

/-- `proposal_hash_queue` after the leader has pushed a payload. -/
def pushed (hashes : List B.Hash) (hash : B.Hash) : List B.Hash :=
  (if 3 < hashes.length then [] else hashes) ++ [hash]

/-- The client before and after the commit rule was tried. -/
def Client.MayFinalize (client client' : Client B) : Prop :=
  client' = client ∨ ∃ hash number, client.finalizeBlock hash = .ok number ∧
    client' = { client with finalizedHash := hash, finalizedNumber := number }

/-- The payload is the empty one, or its block is in the chain of the client. -/
def Client.Knows (client : Client B) (payload : Payload B) : Prop :=
  payload.blockHash = B.emptyPayloadHash ∨ client.status payload.blockHash = .ok .inChain

/-- Signing with a key that the store holds does not fail. -/
def Keystore.Answers (k : Keystore B) : Prop :=
  ∀ id digest e, k.hasKeys id = true → k.signWith id digest ≠ .error e

/-- The vote completes a certificate, and the node leads the view it is in after it. -/
structure ConsensusState.LeadsOn (s : ConsensusState B) (v : Vote B) : Prop where
  verified : s.verifyVote v = .ok ()
  completes : ∃ qc, (s.addVote v).2 = .ok (some qc)
  leader : s.localAuthorityId = some (s.viewLeader (advanced s.view v.view))

/-- The calls that can end a view without a QC. -/
def Call.endsView : Call B → Bool
  | .timeout _ | .tc _ => true
  | _ => false

/-- What a call does at the desk of a worker, with the call it ends in. -/
inductive Works (w : ConsensusWorker B) (c : Call B) : Desk B → Option (Call B) → Prop where
  | rest (next : Option (Call B)) (quiet : c ≠ .localTimer → next = none) : Works w c w.desk next
  | tried (p : Proposal B) (client : Client B) (called : c = .proposal p)
      (tried : w.client.MayFinalize client) : Works w c { w.desk with client := client } none
  | voted (p : Proposal B) (client : Client B) (next : Option (Call B)) (called : c = .proposal p)
      (known : w.client.Knows p.payload) (tried : w.client.MayFinalize client)
      (passed : next = none ∨ ∃ v, next = some (.vote v)) :
      Works w c { w.desk with
        client := client
        processing := some ⟨some p.payload.blockHash, p.payload.blockNumber⟩
        hashes := w.proposalHashQueue ++ [p.payload.blockHash]
        record := w.desk.record ++ [.voted p] } next
  | dropped (called : c.endsView = true) : Works w c { w.desk with processing := none } none
  | unsigned (processing : Option (BlockInfo B)) (payload : Payload B) (called : c.endsView = true)
      (chosen : Chooses { w.desk with processing := none } processing payload) :
      Works w c { w.desk with processing := processing } none
  | proposed (processing : Option (BlockInfo B)) (payload : Payload B) (p : Proposal B)
      (called : c.endsView = true)
      (chosen : Chooses { w.desk with processing := none } processing payload)
      (carries : p.payload = payload) :
      Works w c { w.desk with
        processing := processing, record := w.desk.record ++ [.proposed p] } (some (.proposal p))
  | withheld (v : Vote B) (processing : Option (BlockInfo B)) (payload : Payload B)
      (called : c = .vote v) (leads : w.state.LeadsOn v)
      (chosen : Chooses w.desk processing payload)
      (empty : payload.blockHash = B.emptyPayloadHash) (spent : Spent w.proposalHashQueue) :
      Works w c { w.desk with processing := processing } none
  | unsignedOnQc (v : Vote B) (processing : Option (BlockInfo B)) (payload : Payload B)
      (called : c = .vote v) (leads : w.state.LeadsOn v)
      (chosen : Chooses w.desk processing payload)
      (refused : ¬ w.state.keystore.Answers) :
      Works w c { w.desk with
        processing := processing, hashes := pushed w.proposalHashQueue payload.blockHash } none
  | proposedOnQc (v : Vote B) (processing : Option (BlockInfo B)) (payload : Payload B)
      (p : Proposal B) (called : c = .vote v) (leads : w.state.LeadsOn v)
      (chosen : Chooses w.desk processing payload)
      (due : ¬ (payload.blockHash = B.emptyPayloadHash ∧ Spent w.proposalHashQueue))
      (carries : p.payload = payload) :
      Works w c { w.desk with
        processing := processing
        hashes := pushed w.proposalHashQueue payload.blockHash
        record := w.desk.record ++ [.proposed p] } (some (.proposal p))

theorem Works.of_eq {w : ConsensusWorker B} {c : Call B} {d d' : Desk B} {next : Option (Call B)}
    (works : Works w c d next) (same : d' = d) : Works w c d' next := same ▸ works

/-- No handler touches the queue, and the client is asked to finalize at most. -/
theorem Works.frame {w : ConsensusWorker B} {c : Call B} {d : Desk B} {next : Option (Call B)}
    (works : Works w c d next) :
    d.pending = w.pendingFinalizeQueue ∧ w.client.MayFinalize d.client := by
  cases works with
  | tried _ client _ tried => exact ⟨rfl, tried⟩
  | voted _ client _ _ _ tried => exact ⟨rfl, tried⟩
  | _ => exact ⟨rfl, .inl rfl⟩

def Outcome.next (r : Outcome B) : Option (Call B) :=
  match r.2 with
  | .ok next => next
  | .error _ => none

namespace ConsensusWorker

/-! ### Frames -/

theorem emit_desk (w : ConsensusWorker B) {e : Event B} (other : Undertaking.ofEvent e = none) :
    (w.emit e).desk = w.desk := by
  simp [desk, emit, other]

@[simp] theorem handleQc_desk (w : ConsensusWorker B) (qc : QC B) :
    (w.handleQc qc).desk = w.desk := by
  unfold handleQc
  dsimp only
  split
  · rw [emit_desk _ rfl]
    exact emit_desk w rfl
  · exact emit_desk w rfl

@[simp] theorem handleProposalTc_desk (w : ConsensusWorker B) (tc : Option (TC B)) :
    (w.handleProposalTc tc).desk = w.desk := by
  unfold handleProposalTc
  split
  · rfl
  · split
    · exact emit_desk _ rfl
    · rfl

theorem getProposalPayload_chooses {w w' : ConsensusWorker B} {payload : Payload B}
    (chosen : w.getProposalPayload = (w', some payload)) :
    ∃ processing, w' = { w with processingBlock := processing } ∧
      Chooses w.desk processing payload := by
  unfold getProposalPayload at chosen
  split at chosen
  · cases chosen
  · rename_i queue lock
    split at chosen
    · rename_i block processing
      split at chosen
      · rename_i unfinished
        cases chosen
        exact ⟨some block, by rw [← processing], .working lock processing unfinished⟩
      · rename_i finished
        split at chosen
        · rename_i found search
          cases chosen
          have above := List.find?_some search
          simp only [decide_eq_true_eq] at above
          exact ⟨some found, rfl, .next lock processing (not_lt.mp finished)
            (List.mem_of_find?_eq_some search) above⟩
        · rename_i search
          cases chosen
          refine ⟨some block, by rw [← processing],
            .exhausted lock processing (not_lt.mp finished) ?_⟩
          intro info member
          have low := List.find?_eq_none.mp search info member
          simp only [decide_eq_true_eq, not_lt] at low
          exact low
    · rename_i idle
      split at chosen
      · rename_i info head
        cases chosen
        obtain ⟨rest, rfl⟩ := List.head?_eq_some_iff.mp head
        exact ⟨some info, rfl, .front lock idle⟩
      · cases chosen

theorem withheld_nonempty {payload : Payload B} (nonempty : payload.blockHash ≠ B.emptyPayloadHash)
    (count : Nat) (items : List B.Hash) : withheld payload count items = false := by
  induction items generalizing count with
  | nil => rfl
  | cons item rest ih => simp [withheld, nonempty, ih]

/-- The loop stops a payload exactly if it is empty and the last two before it were. -/
theorem withheld_iff (payload : Payload B) (hashes : List B.Hash) :
    withheld payload 0 hashes.reverse = true ↔
      payload.blockHash = B.emptyPayloadHash ∧ Spent hashes := by
  by_cases empty : payload.blockHash = B.emptyPayloadHash
  · have reversed : Spent hashes ↔
        ∃ older, hashes.reverse = B.emptyPayloadHash :: B.emptyPayloadHash :: older := by
      constructor
      · rintro ⟨older, rfl⟩
        exact ⟨older.reverse, by simp⟩
      · rintro ⟨older, same⟩
        refine ⟨older.reverse, ?_⟩
        rw [← List.reverse_reverse hashes, same]
        simp
    rw [reversed]
    simp only [empty, true_and]
    match hashes.reverse with
    | [] => simp [withheld]
    | [item] => simp [withheld, empty]
    | first :: second :: rest =>
      by_cases one : first = B.emptyPayloadHash
      · by_cases two : second = B.emptyPayloadHash
        · simp [withheld, empty, one, two]
        · simp [withheld, one, two]
      · simp [withheld, one]
  · simp [withheld_nonempty empty, empty]

/-! ### The handlers -/

theorem propose_desk (w : ConsensusWorker B) (p : Proposal B) :
    (w.propose p).1.desk = { w.desk with record := w.desk.record ++ [.proposed p] } := by
  have sent : ((w.emit (.proposed p)).emit (.gossip (.propose p))).desk =
      (w.emit (.proposed p)).desk := emit_desk _ rfl
  refine sent.trans ?_
  simp [desk, emit, Undertaking.ofEvent]

theorem makeProposal_refused {s : ConsensusState B} {payload : Payload B} {tc : Option (TC B)}
    {e : HotstuffError B} (authority : s.localAuthorityId.isSome)
    (failed : s.makeProposal payload tc = .error e) : ¬ s.keystore.Answers := by
  intro answers
  unfold ConsensusState.makeProposal at failed
  split at failed
  · rename_i none
    simp [none] at authority
  · rename_i id own
    have holds := (ConsensusState.localAuthorityId_some own).2
    dsimp only at failed
    split at failed
    · rename_i refused
      unfold ConsensusState.sign at refused
      split at refused
      · rename_i reason answer
        exact answers id _ reason holds answer
      · cases refused
    · cases failed

theorem getProposalPayload_none {w w' : ConsensusWorker B}
    (chosen : w.getProposalPayload = (w', none)) : w' = w := by
  unfold getProposalPayload at chosen
  grind

theorem generateProposal_works {w w' : ConsensusWorker B} {c : Call B}
    (dropped : w'.desk = { w.desk with processing := none }) (called : c.endsView = true)
    (tc : Option (TC B)) :
    Works w c (w'.generateProposal tc).1.desk (Outcome.next (w'.generateProposal tc)) := by
  unfold generateProposal
  split
  · rename_i w'' chosen
    cases getProposalPayload_none chosen
    exact (Works.dropped called).of_eq dropped
  · rename_i w'' payload chosen
    obtain ⟨processing, rfl, chooses⟩ := getProposalPayload_chooses chosen
    rw [dropped] at chooses
    have picked : { w' with processingBlock := processing }.desk =
        { w.desk with processing := processing } :=
      congrArg (fun d : Desk B => { d with processing := processing }) dropped
    split
    · exact (Works.unsigned processing payload called chooses).of_eq picked
    · rename_i p made
      have carries := (ConsensusState.makeProposal_ok made).2.2.1
      apply (Works.proposed processing payload p called chooses carries).of_eq
      rw [propose_desk, picked]

theorem handleLocalTimer_works (w : ConsensusWorker B) :
    Works w .localTimer w.handleLocalTimer.1.desk (Outcome.next w.handleLocalTimer) := by
  have rest (next : Option (Call B)) : Works w .localTimer w.desk next :=
    .rest next fun other => absurd rfl other
  have fired : ({ w.emit .resetTimer with state := (w.emit .resetTimer).state.increaseLastVotedView
      }.emit .localTimer).desk = w.desk :=
    (emit_desk _ rfl).trans (emit_desk w rfl)
  unfold handleLocalTimer
  dsimp only
  split
  · exact (rest _).of_eq fired
  · exact (rest _).of_eq ((emit_desk _ rfl).trans ((emit_desk _ rfl).trans fired))

theorem announceTc_works {w w' : ConsensusWorker B} {c : Call B} (same : w'.desk = w.desk)
    (called : c.endsView = true) (tc : TC B) :
    Works w c (w'.announceTc tc).1.desk (Outcome.next (w'.announceTc tc)) := by
  have sent : (w'.emit (.gossip (.tc tc))).desk = w.desk := (emit_desk w' rfl).trans same
  unfold announceTc
  dsimp only
  split
  · apply generateProposal_works _ called
    exact congrArg (fun d : Desk B => { d with processing := none }) sent
  · exact (Works.rest none fun _ => rfl).of_eq sent

theorem handleFormedTc_works {w w' : ConsensusWorker B} {c : Call B} (same : w'.desk = w.desk)
    (called : c.endsView = true) (tc : TC B) :
    Works w c (w'.handleFormedTc tc).1.desk (Outcome.next (w'.handleFormedTc tc)) := by
  have accepted : (w'.emit (.acceptTc tc)).desk = w.desk := (emit_desk w' rfl).trans same
  unfold handleFormedTc
  apply announceTc_works _ called
  split
  · exact (emit_desk _ rfl).trans accepted
  · exact accepted

theorem handleTimeout_works (w : ConsensusWorker B) (t : Timeout B) :
    Works w (.timeout t) (w.handleTimeout t).1.desk (Outcome.next (w.handleTimeout t)) := by
  have idle : Works w (.timeout t) w.desk none := .rest none fun _ => rfl
  unfold handleTimeout
  split
  · exact idle
  · split
    · exact idle
    · dsimp only
      split
      · exact idle.of_eq (handleQc_desk w t.highQc)
      · exact idle.of_eq (handleQc_desk w t.highQc)
      · apply handleFormedTc_works
        · exact handleQc_desk w t.highQc
        · rfl

theorem handleTc_works (w : ConsensusWorker B) (tc : TC B) :
    Works w (.tc tc) (w.handleTc tc).1.desk (Outcome.next (w.handleTc tc)) := by
  unfold handleTc
  split
  · exact .rest none fun _ => rfl
  · have accepted : (((w.emit (.acceptTc tc)).advanceView tc.view).emit .resetTimer).desk =
        w.desk := (emit_desk _ rfl).trans (emit_desk w rfl)
    have dropped := congrArg (fun d : Desk B => { d with processing := none }) accepted
    dsimp only
    split
    · exact generateProposal_works dropped rfl none
    · exact (Works.dropped rfl).of_eq dropped

theorem tryFinalize_desk (w : ConsensusWorker B) (p : Proposal B) :
    ∃ client, w.client.MayFinalize client ∧
      (w.tryFinalize p).desk = { w.desk with client := client } := by
  unfold tryFinalize
  split
  · exact ⟨w.client, .inl rfl, rfl⟩
  · rename_i parent grandpa _
    have marked : (w.emit (.canFinalize p parent grandpa)).desk = w.desk := emit_desk w rfl
    split
    · dsimp only
      split
      · have called : ((w.emit (.canFinalize p parent grandpa)).emit
            (.finalizeBlock grandpa.payload.blockHash)).desk = w.desk :=
          (emit_desk _ rfl).trans marked
        split
        · exact ⟨w.client, .inl rfl, called⟩
        · rename_i number answer
          refine ⟨_, .inr ⟨_, number, answer, rfl⟩, ?_⟩
          exact congrArg (fun d : Desk B => { d with
            client := { w.client with
              finalizedHash := grandpa.payload.blockHash, finalizedNumber := number } }) called
      · exact ⟨w.client, .inl rfl, marked⟩
    · exact ⟨w.client, .inl rfl, rfl⟩

theorem voteFor_works {w w' : ConsensusWorker B} {p : Proposal B} {client : Client B}
    (known : w.client.Knows p.payload) (tried : w.client.MayFinalize client)
    (same : w'.desk = { w.desk with client := client }) :
    Works w (.proposal p) (w'.voteFor p).1.desk (Outcome.next (w'.voteFor p)) := by
  have idle := (Works.tried (w := w) p client rfl tried).of_eq same
  unfold voteFor
  split
  · exact idle
  · split
    · exact idle
    · rename_i state vote made
      have voted (next : Option (Call B)) (passed : next = none ∨ ∃ v, next = some (.vote v)) :=
        Works.voted p client next rfl known tried passed
      have marked : { { w' with state := state }.emit (.voted p vote) with
          proposalHashQueue := w'.proposalHashQueue ++ [p.payload.blockHash]
          processingBlock := some ⟨some p.payload.blockHash, p.payload.blockNumber⟩ }.desk =
          { w.desk with
            client := client
            processing := some ⟨some p.payload.blockHash, p.payload.blockNumber⟩
            hashes := w.proposalHashQueue ++ [p.payload.blockHash]
            record := w.desk.record ++ [.voted p] } := by
        have grown := congrArg (fun d : Desk B => { d with
          processing := some ⟨some p.payload.blockHash, p.payload.blockNumber⟩
          hashes := d.hashes ++ [p.payload.blockHash]
          record := d.record ++ [Undertaking.voted p] }) same
        refine Eq.trans ?_ grown
        simp [desk, emit, Undertaking.ofEvent]
      dsimp only
      split
      · exact (voted _ (.inr ⟨vote, rfl⟩)).of_eq marked
      · exact (voted _ (.inl rfl)).of_eq ((emit_desk _ rfl).trans marked)

theorem checkPayload_knows {w : ConsensusWorker B} {payload : Payload B}
    (passed : w.checkPayload payload = .ok true) : w.client.Knows payload := by
  unfold checkPayload at passed
  split at passed
  · rename_i empty
    exact .inl empty
  · split at passed
    · cases passed
    · rename_i status
      exact .inr status
    · cases passed

theorem handleProposal_works (w : ConsensusWorker B) (p : Proposal B) :
    Works w (.proposal p) (w.handleProposal p).1.desk (Outcome.next (w.handleProposal p)) := by
  have idle : Works w (.proposal p) w.desk none := .rest none fun _ => rfl
  unfold handleProposal
  split
  · exact idle
  · exact idle.of_eq (emit_desk w rfl)
  · rename_i passed
    split
    · exact idle
    · have certified : (((w.emit (.verified p)).handleQc p.qc).handleProposalTc p.tc).desk =
          w.desk := by
        rw [handleProposalTc_desk, handleQc_desk]
        exact emit_desk w rfl
      dsimp only
      split
      · exact idle.of_eq certified
      · rename_i s saved
        obtain ⟨client, tried, finalized⟩ := tryFinalize_desk
          { ((w.emit (.verified p)).handleQc p.qc).handleProposalTc p.tc with synchronizer := s } p
        have same : (((w.emit (.verified p)).handleQc p.qc).handleProposalTc p.tc).client =
          w.client := congrArg Desk.client certified
        rw [same] at tried
        apply voteFor_works (checkPayload_knows passed) tried
        refine finalized.trans ?_
        exact congrArg (fun d : Desk B => { d with client := client }) certified

theorem proposeOnQc_works {w w' : ConsensusWorker B} {v : Vote B} (same : w'.desk = w.desk)
    (leads : w.state.LeadsOn v) (keystore : w'.state.keystore = w.state.keystore)
    (authority : w'.state.localAuthorityId.isSome) :
    Works w (.vote v) w'.proposeOnQc.1.desk (Outcome.next w'.proposeOnQc) := by
  unfold proposeOnQc
  split
  · rename_i w'' chosen
    cases getProposalPayload_none chosen
    exact (Works.rest none fun _ => rfl).of_eq same
  · rename_i w'' payload chosen
    obtain ⟨processing, rfl, chooses⟩ := getProposalPayload_chooses chosen
    rw [same] at chooses
    have hashes : w'.proposalHashQueue = w.proposalHashQueue := congrArg Desk.hashes same
    have picked : { w' with processingBlock := processing }.desk =
        { w.desk with processing := processing } :=
      congrArg (fun d : Desk B => { d with processing := processing }) same
    split
    · rename_i stopped
      obtain ⟨empty, spent⟩ := (withheld_iff payload _).mp stopped
      rw [hashes] at spent
      exact (Works.withheld v processing payload rfl leads chooses empty spent).of_eq picked
    · rename_i due
      dsimp only
      have queued : { w' with
          processingBlock := processing
          proposalHashQueue := pushed w'.proposalHashQueue payload.blockHash }.desk =
          { w.desk with
            processing := processing
            hashes := pushed w.proposalHashQueue payload.blockHash } := by
        rw [hashes]
        exact congrArg (fun d : Desk B => { d with
          processing := processing
          hashes := pushed w.proposalHashQueue payload.blockHash }) same
      split
      · rename_i e failed
        refine (Works.unsignedOnQc v processing payload rfl leads chooses ?_).of_eq queued
        rw [← keystore]
        exact makeProposal_refused authority failed
      · rename_i p made
        have carries := (ConsensusState.makeProposal_ok made).2.2.1
        have free : ¬ (payload.blockHash = B.emptyPayloadHash ∧ Spent w.proposalHashQueue) := by
          rw [← hashes, ← withheld_iff]
          exact due
        apply (Works.proposedOnQc v processing payload p rfl leads chooses free carries).of_eq
        refine (propose_desk _ p).trans ?_
        exact congrArg (fun d : Desk B => { d with
          record := d.record ++ [Undertaking.proposed p] }) queued

theorem handleVote_works (w : ConsensusWorker B) (v : Vote B) :
    Works w (.vote v) (w.handleVote v).1.desk (Outcome.next (w.handleVote v)) := by
  have idle : Works w (.vote v) w.desk none := .rest none fun _ => rfl
  unfold handleVote
  split
  · exact idle
  · rename_i verified
    dsimp only
    split
    · exact idle
    · exact idle
    · rename_i qc added
      obtain ⟨_, view, _⟩ := Aggregator.addVote_some added
      have certified : (({ w with state := (w.state.addVote v).1 }.emit (.collected qc)).handleQc
          qc).desk = w.desk := (handleQc_desk _ qc).trans (emit_desk _ rfl)
      split
      · rename_i leader
        have authority := Option.isSome_of_eq_some leader
        have keystore := (handleQc_kept ({ w with state := (w.state.addVote v).1 }.emit
          (.collected qc)) qc).2
        apply proposeOnQc_works certified _ keystore authority
        rw [handleQc_state, view] at leader
        exact ⟨verified, ⟨qc, added⟩, leader⟩
      · exact idle.of_eq certified

theorem handle_works (w : ConsensusWorker B) (c : Call B) :
    Works w c (w.handle c).1.desk (Outcome.next (w.handle c)) := by
  cases c with
  | localTimer => exact handleLocalTimer_works w
  | timeout t => exact handleTimeout_works w t
  | proposal p => exact handleProposal_works w p
  | vote v => exact handleVote_works w v
  | tc tc => exact handleTc_works w tc

end ConsensusWorker

/-- What only the handlers change is the same at both desks. -/
structure Desk.Rests (d d' : Desk B) : Prop where
  processing : d'.processing = d.processing
  hashes : d'.hashes = d.hashes
  record : d'.record = d.record

theorem Node.handled_desk (n : Node B) (c : Call B) :
    (n.worker.emit (.handled c)).desk = n.worker.desk :=
  ConsensusWorker.emit_desk _ rfl

/-- What a step of a node does at its desk: it changes the surroundings at most, or it does
what the handler does that it enters. -/
theorem Node.step_desk (n : Node B) (a : Action B) :
    n.worker.desk.Rests (n.step a).worker.desk ∨ ∃ c, n.entered a = some c ∧
      Works (n.worker.emit (.handled c)) c (n.step a).worker.desk (n.step a).pending := by
  rcases n.step_cases a with ⟨env, seen⟩ | ⟨c, entered, stepped⟩
  · rw [seen]
    exact .inl ⟨rfl, rfl, rfl⟩
  · rw [stepped]
    exact .inr ⟨c, entered, ConsensusWorker.handle_works (n.worker.emit (.handled c)) c⟩

/-- Between the changes of the surroundings a node leaves the queue alone, and the client but
for finalizing a block. -/
theorem Node.step_frame {n : Node B} {a : Action B} (own : ∀ env, a ≠ .environment env) :
    (n.step a).worker.pendingFinalizeQueue = n.worker.pendingFinalizeQueue ∧
      n.worker.client.MayFinalize (n.step a).worker.client := by
  cases entered : n.entered a with
  | some c =>
    rw [step_entered entered]
    exact (ConsensusWorker.handle_works (n.worker.emit (.handled c)) c).frame
  | none =>
    have same : n.step a = n := by
      cases a with
      | environment env => exact absurd rfl (own env)
      | timer | receive | resume => simp only [step, entered]
    rw [same]
    exact ⟨rfl, .inl rfl⟩

end Hotstuff
