import Hotstuff.Selection
import Hotstuff.Symbolic

/-! `handle_proposal` and `handle_vote` call each other for as long as the node leads the next
view and its own vote completes a certificate. What ends the recursion is the choice of the
payloads. -/
namespace Hotstuff

variable {B : BlockT}

namespace Node

/-- The node after `k` calls of the recursion, with nothing else in between. -/
def resumed (n : Node B) (k : Nat) : Node B := Runs.run step n (List.replicate k .resume)

def finalizedNumber (n : Node B) : B.Number := n.worker.client.finalizedNumber

/-- The finalized number does not decrease during the recursion. -/
def Steady (n : Node B) : Prop :=
  ∀ k, (n.resumed k).finalizedNumber ≤ (n.resumed (k + 1)).finalizedNumber

/-- The recursion is over after at most so many calls. -/
def EndsWithin (n : Node B) (bound : Nat) : Prop := ∃ k ≤ bound, (n.resumed k).pending = none

theorem resumed_succ (n : Node B) (k : Nat) :
    n.resumed (k + 1) = (n.step .resume).resumed k := rfl

theorem Steady.step {n : Node B} (steady : n.Steady) : (n.step .resume).Steady :=
  fun k => steady (k + 1)

theorem Steady.first {n : Node B} (steady : n.Steady) :
    n.finalizedNumber ≤ (n.step .resume).finalizedNumber := steady 0

theorem EndsWithin.of_none {n : Node B} (ended : n.pending = none) (bound : Nat) :
    n.EndsWithin bound := ⟨0, Nat.zero_le _, ended⟩

theorem EndsWithin.step {n : Node B} {bound : Nat}
    (ends : (n.step .resume).EndsWithin bound) : n.EndsWithin (bound + 1) := by
  obtain ⟨k, le, ended⟩ := ends
  exact ⟨k + 1, Nat.succ_le_succ le, by rw [resumed_succ]; exact ended⟩

theorem EndsWithin.mono {n : Node B} {bound bound' : Nat} (ends : n.EndsWithin bound)
    (le : bound ≤ bound') : n.EndsWithin bound' := by
  obtain ⟨k, within_, ended⟩ := ends
  exact ⟨k, Nat.le_trans within_ le, ended⟩

/-! ### One call -/

theorem resume_works {n : Node B} {c : Call B} (called : n.pending = some c) :
    Works (n.worker.emit (.handled c)) c (n.step .resume).worker.desk (n.step .resume).pending := by
  have resumed : n.step .resume = n.enter c := step_entered called
  rw [resumed]
  exact ConsensusWorker.handle_works (n.worker.emit (.handled c)) c

theorem step_proposal {n : Node B} {p : Proposal B} (called : n.pending = some (.proposal p)) :
    (n.step .resume).pending = none ∨ ∃ v, (n.step .resume).pending = some (.vote v) ∧
      (n.step .resume).worker.pendingFinalizeQueue = n.worker.pendingFinalizeQueue ∧
      (n.step .resume).worker.processingBlock =
        some ⟨some p.payload.blockHash, p.payload.blockNumber⟩ ∧
      (n.step .resume).worker.proposalHashQueue =
        n.worker.proposalHashQueue ++ [p.payload.blockHash] := by
  have works := resume_works called
  generalize seen : (n.step .resume).worker.desk = d at works
  generalize next : (n.step .resume).pending = c' at works
  cases works with
  | rest _ quiet => exact .inl (quiet (by simp))
  | tried => exact .inl rfl
  | voted q client _ same _ _ passed =>
    cases same
    rcases passed with rfl | ⟨v, rfl⟩
    · exact .inl rfl
    · exact .inr ⟨v, rfl, congrArg Desk.pending seen, congrArg Desk.processing seen,
        congrArg Desk.hashes seen⟩
  | dropped ends => cases ends
  | unsigned _ _ ends => cases ends
  | proposed _ _ _ ends => cases ends
  | withheld _ _ _ other => cases other
  | unsignedOnQc _ _ _ other => cases other
  | proposedOnQc _ _ _ _ other => cases other

theorem step_vote {n : Node B} {v : Vote B} (called : n.pending = some (.vote v)) :
    (n.step .resume).pending = none ∨ ∃ processing p,
      (n.step .resume).pending = some (.proposal p) ∧
      Chooses n.worker.desk processing p.payload ∧
      ¬ (p.payload.blockHash = B.emptyPayloadHash ∧ Spent n.worker.proposalHashQueue) ∧
      (n.step .resume).worker.pendingFinalizeQueue = n.worker.pendingFinalizeQueue ∧
      (n.step .resume).worker.proposalHashQueue =
        pushed n.worker.proposalHashQueue p.payload.blockHash := by
  have works := resume_works called
  generalize seen : (n.step .resume).worker.desk = d at works
  generalize next : (n.step .resume).pending = c' at works
  cases works with
  | rest _ quiet => exact .inl (quiet (by simp))
  | tried _ _ other => cases other
  | voted _ _ _ other => cases other
  | dropped ends => cases ends
  | unsigned _ _ ends => cases ends
  | proposed _ _ _ ends => cases ends
  | withheld => exact .inl rfl
  | unsignedOnQc => exact .inl rfl
  | proposedOnQc u processing payload p same _ chosen due carries =>
    subst carries
    rw [handled_desk] at chosen
    exact .inr ⟨processing, p, rfl, chosen, due, congrArg Desk.pending seen,
      congrArg Desk.hashes seen⟩

/- One round of the recursion: two calls that end it, or leave the node's next vote in hand
with the payload chosen in between as the block in process. -/
theorem round {n : Node B} {v : Vote B} (called : n.pending = some (.vote v)) :
    n.EndsWithin 2 ∨ ∃ processing payload v',
      Chooses n.worker.desk processing payload ∧
      ¬ (payload.blockHash = B.emptyPayloadHash ∧ Spent n.worker.proposalHashQueue) ∧
      (n.resumed 2).pending = some (.vote v') ∧
      (n.resumed 2).worker.pendingFinalizeQueue = n.worker.pendingFinalizeQueue ∧
      (n.resumed 2).worker.processingBlock = some ⟨some payload.blockHash, payload.blockNumber⟩ ∧
      (n.resumed 2).worker.proposalHashQueue =
        pushed n.worker.proposalHashQueue payload.blockHash ++ [payload.blockHash] := by
  rcases step_vote called with ended | ⟨processing, p, next, chosen, due, queue, hashes⟩
  · exact .inl ((EndsWithin.of_none ended 1).step)
  · rcases step_proposal next with ended | ⟨v', next', queue', processing', hashes'⟩
    · exact .inl ((EndsWithin.of_none ended 0).step.step)
    · refine .inr ⟨processing, p.payload, v', chosen, due, next', ?_, processing', ?_⟩
      · exact queue'.trans queue
      · exact hashes'.trans (by rw [hashes])

theorem step_resume_client (n : Node B) :
    n.worker.client.MayFinalize (n.step .resume).worker.client :=
  (step_frame (by simp)).2

/-! ### The bound -/

/-- The blocks of the queue above the finalized number and above a block in process. -/
def left (n : Node B) (floor : B.Number) : Nat :=
  (n.worker.pendingFinalizeQueue.getD []).countP fun info =>
    n.finalizedNumber < info.number ∧ floor < info.number

theorem left_mono {n n' : Node B} {floor floor' : B.Number}
    (queue : n'.worker.pendingFinalizeQueue = n.worker.pendingFinalizeQueue)
    (finalized : n.finalizedNumber ≤ n'.finalizedNumber) (floors : floor ≤ floor') :
    n'.left floor' ≤ n.left floor := by
  unfold left
  rw [queue]
  apply List.countP_mono_left
  intro info _
  simp only [decide_eq_true_eq]
  rintro ⟨above, higher⟩
  exact ⟨lt_of_le_of_lt finalized above, lt_of_le_of_lt floors higher⟩

theorem left_taken {n n' : Node B} {queue : List (BlockInfo B)} {found : BlockInfo B}
    {floor : B.Number} (lock : n.worker.pendingFinalizeQueue = some queue) (member : found ∈ queue)
    (above : n.finalizedNumber < found.number) (finished : floor ≤ n.finalizedNumber)
    (same : n'.worker.pendingFinalizeQueue = n.worker.pendingFinalizeQueue) :
    n'.left found.number < n.left floor := by
  unfold left
  rw [same, lock]
  simp only [Option.getD_some]
  have higher : floor < found.number := lt_of_le_of_lt finished above
  have sub : ∀ info ∈ queue,
      decide (n'.finalizedNumber < info.number ∧ found.number < info.number) = true →
      decide (n.finalizedNumber < info.number ∧ floor < info.number) = true := by
    intro info _
    simp only [decide_eq_true_eq]
    rintro ⟨_, beyond⟩
    exact ⟨lt_trans above beyond, lt_trans higher beyond⟩
  obtain ⟨before, after, rfl⟩ := List.append_of_mem member
  have first := List.countP_mono_left fun info h => sub info (List.mem_append_left _ h)
  have last := List.countP_mono_left fun info h =>
    sub info (List.mem_append_right _ (List.mem_cons_of_mem _ h))
  simp only [List.countP_append, List.countP_cons, lt_self_iff_false, and_false, decide_false,
    Bool.false_eq_true, ↓reduceIte, above, higher, and_self, decide_true]
  omega

theorem spent_pushed (hashes : List B.Hash) :
    Spent (pushed hashes B.emptyPayloadHash ++ [B.emptyPayloadHash]) :=
  ⟨if 3 < hashes.length then [] else hashes, by simp [pushed]⟩

/-- A round that does not end takes a block of the queue, or proposes an empty payload that
leaves two of them at the end of `proposal_hash_queue`. -/
theorem round_cases {n : Node B} {v : Vote B} {block : BlockInfo B} (steady : n.Steady)
    (called : n.pending = some (.vote v)) (working : n.worker.processingBlock = some block) :
    n.EndsWithin 2 ∨ ∃ v' block', (n.resumed 2).pending = some (.vote v') ∧
      (n.resumed 2).worker.processingBlock = some block' ∧
      ((n.resumed 2).left block'.number < n.left block.number ∨
        ¬ Spent n.worker.proposalHashQueue ∧ Spent (n.resumed 2).worker.proposalHashQueue ∧
          (n.resumed 2).left block'.number ≤ n.left block.number) := by
  have finalized : n.finalizedNumber ≤ (n.resumed 2).finalizedNumber :=
    le_trans steady.first steady.step.first
  rcases round called with ended | ⟨processing, payload, v', chosen, due, next, queue, busy, hashes⟩
  · exact .inl ended
  · have repeated (empty : payload.blockHash = B.emptyPayloadHash)
        (number : payload.blockNumber = block.number) :
        ¬ Spent n.worker.proposalHashQueue ∧ Spent (n.resumed 2).worker.proposalHashQueue ∧
          (n.resumed 2).left payload.blockNumber ≤ n.left block.number := by
      refine ⟨fun spent => due ⟨empty, spent⟩, ?_, left_mono queue finalized (le_of_eq number.symm)⟩
      rw [hashes, empty]
      exact spent_pushed _
    refine .inr ⟨v', _, next, busy, ?_⟩
    cases chosen with
    | working _ same _ =>
      cases same.symm.trans working
      exact .inr (repeated rfl rfl)
    | @next _ _ found lock same finished member above =>
      cases same.symm.trans working
      have fewer : (n.resumed 2).left found.number < n.left block.number :=
        left_taken lock member above finished queue
      exact .inl fewer
    | exhausted _ same _ _ =>
      cases same.symm.trans working
      exact .inr (repeated rfl rfl)
    | front _ idle =>
      cases idle.symm.trans working

/-- From a vote in hand with a block in process: of two rounds in a row one takes a block,
for after an empty payload the next empty one is withheld. -/
theorem vote_ends (m : Nat) : ∀ (n : Node B) (v : Vote B) (block : BlockInfo B), n.Steady →
    n.pending = some (.vote v) → n.worker.processingBlock = some block → n.left block.number ≤ m →
    (Spent n.worker.proposalHashQueue → n.EndsWithin (4 * m + 2)) ∧ n.EndsWithin (4 * m + 4) := by
  induction m using Nat.strong_induction_on with
  | h m ih =>
    have taken {n : Node B} {v : Vote B} {block block' : BlockInfo B} (steady : n.Steady)
        (bound : n.left block.number ≤ m) (next : (n.resumed 2).pending = some (.vote v))
        (working : (n.resumed 2).worker.processingBlock = some block')
        (fewer : (n.resumed 2).left block'.number < n.left block.number) :
        n.EndsWithin (4 * m + 2) := by
      have ends := (ih (m - 1) (by omega) (n.resumed 2) v block' steady.step.step next working
        (by omega)).2
      exact ends.step.step.mono (by omega)
    have spent : ∀ (n : Node B) (v : Vote B) (block : BlockInfo B), n.Steady →
        n.pending = some (.vote v) → n.worker.processingBlock = some block →
        n.left block.number ≤ m → Spent n.worker.proposalHashQueue → n.EndsWithin (4 * m + 2) := by
      intro n v block steady called working bound spent
      rcases round_cases steady called working with
        ended | ⟨v', block', next, working', fewer | ⟨unspent, _⟩⟩
      · exact ended.mono (by omega)
      · exact taken steady bound next working' fewer
      · exact absurd spent unspent
    intro n v block steady called working bound
    refine ⟨spent n v block steady called working bound, ?_⟩
    rcases round_cases steady called working with
      ended | ⟨v', block', next, working', fewer | ⟨_, spent', rest⟩⟩
    · exact ended.mono (by omega)
    · exact (taken steady bound next working' fewer).mono (by omega)
    · have ends := spent (n.resumed 2) v' block' steady.step.step next working' (by omega) spent'
      exact ends.step.step.mono (by omega)

/-- The blocks of the queue above the finalized number. -/
def unfinalized (n : Node B) : Nat :=
  (n.worker.pendingFinalizeQueue.getD []).countP fun info => n.finalizedNumber < info.number

theorem left_le_unfinalized {n n' : Node B} (floor : B.Number)
    (queue : n'.worker.pendingFinalizeQueue = n.worker.pendingFinalizeQueue)
    (finalized : n.finalizedNumber ≤ n'.finalizedNumber) : n'.left floor ≤ n.unfinalized := by
  unfold left unfinalized
  rw [queue]
  apply List.countP_mono_left
  intro info _
  simp only [decide_eq_true_eq]
  rintro ⟨above, _⟩
  exact lt_of_le_of_lt finalized above

/-- The recursion that starts with a proposal or a vote ends, whatever the state of the node,
its authorities and the message: the calls are at most four for each unfinalized block of
the queue and six. -/
theorem recursion_ends (n : Node B) (c : Call B) (called : n.pending = some c)
    (kind : (∃ p, c = .proposal p) ∨ ∃ v, c = .vote v) (steady : n.Steady) :
    n.EndsWithin (4 * n.unfinalized + 6) := by
  rcases kind with ⟨p, rfl⟩ | ⟨v, rfl⟩
  · rcases step_proposal called with ended | ⟨v, next, queue, working, _⟩
    · exact (EndsWithin.of_none ended _).step
    · have few := left_le_unfinalized p.payload.blockNumber queue steady.first
      exact ((vote_ends _ _ v _ steady.step next working few).2.step).mono (by omega)
  · have finalized : n.finalizedNumber ≤ (n.resumed 2).finalizedNumber :=
      le_trans steady.first steady.step.first
    rcases round called with ended | ⟨_, payload, v', _, _, next, queue, working, _⟩
    · exact ended.mono (by omega)
    · have few := left_le_unfinalized payload.blockNumber queue finalized
      exact ((vote_ends _ _ v' _ steady.step.step next working few).2.step.step).mono (by omega)

theorem steady_of_answers {n : Node B} {number : B.Number} (below : n.finalizedNumber ≤ number)
    (answers : ∀ hash m, n.worker.client.finalizeBlock hash = .ok m → m = number) : n.Steady := by
  have keep (k : Nat) : (n.resumed k).finalizedNumber ≤ number ∧
      ∀ hash m, (n.resumed k).worker.client.finalizeBlock hash = .ok m → m = number := by
    induction k generalizing n with
    | zero => exact ⟨below, answers⟩
    | succ k ih =>
      rw [resumed_succ]
      rcases n.step_resume_client with same | ⟨hash, m, answer, same⟩
      · exact ih (by rw [finalizedNumber, same]; exact below) (by rw [same]; exact answers)
      · refine ih ?_ (by rw [same]; exact answers)
        rw [finalizedNumber, same]
        exact le_of_eq (answers hash m answer)
  intro k
  have last : n.resumed (k + 1) = (n.resumed k).step .resume := by
    simp [resumed, List.replicate_succ', Runs.run_append]
  obtain ⟨low, answers'⟩ := keep k
  rw [last]
  rcases (n.resumed k).step_resume_client with same | ⟨hash, m, answer, same⟩
  · exact le_of_eq (by rw [finalizedNumber, finalizedNumber, same])
  · change (n.resumed k).finalizedNumber ≤ Client.finalizedNumber _
    rw [same, answers' hash m answer]
    exact low

theorem single_authority_recursion_ends :
    let p := Symbolic.signProposal ⟨QC.default, none, ⟨.leaf 7, 1⟩, 1, 0, none⟩
    let n : Node symbolic := ⟨(Symbolic.setup 0 0).start.worker, some (.proposal p)⟩
    n.Steady ∧ n.EndsWithin (4 * n.unfinalized + 6) := by
  intro p n
  have answers (hash : symbolic.Hash) (m : Nat)
      (answer : n.worker.client.finalizeBlock hash = .ok m) : m = 1 :=
    (Except.ok.inj answer).symm
  have below : n.finalizedNumber ≤ (1 : Nat) := Nat.zero_le 1
  have steady : n.Steady := steady_of_answers below answers
  exact ⟨steady, recursion_ends n (.proposal p) rfl (.inl ⟨p, rfl⟩) steady⟩

end Node

end Hotstuff
