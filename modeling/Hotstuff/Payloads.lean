import Mathlib.Data.List.Induction
import Hotstuff.Selection
import Hotstuff.Symbolic

/-! The payloads a node votes for and the block it takes to be in process. The hash of a
payload is looked up in the client; the number beside it is the sender's word. -/
namespace Hotstuff

variable {B : BlockT}

theorem Chooses.origin {d : Desk B} {processing : Option (BlockInfo B)} {payload : Payload B}
    (chosen : Chooses d processing payload) {block : BlockInfo B}
    (now : processing = some block) :
    d.processing = some block ∨ ∃ queue, d.pending = some queue ∧ block ∈ queue := by
  cases chosen with
  | working _ same => exact .inl (same.trans now)
  | next lock _ _ member =>
    cases now
    exact .inr ⟨_, lock, member⟩
  | exhausted _ same => exact .inl (same.trans now)
  | front lock =>
    cases now
    exact .inr ⟨_, lock, List.mem_cons_self⟩

namespace Works

variable {w : ConsensusWorker B} {c : Call B} {d : Desk B} {next : Option (Call B)}

theorem new_vote (works : Works w c d next) {p : Proposal B} (voted : .voted p ∈ d.record) :
    .voted p ∈ w.desk.record ∨ c = .proposal p ∧ w.client.Knows p.payload ∧
      d.record = w.desk.record ++ [.voted p] := by
  cases works with
  | voted q client _ called known =>
    rcases List.mem_append.mp voted with old | new
    · exact .inl old
    · cases List.mem_singleton.mp new
      exact .inr ⟨called, known, rfl⟩
  | proposed | proposedOnQc => exact .inl (by simpa using voted)
  | _ => exact .inl voted

theorem record_prefix (works : Works w c d next) : w.desk.record <+: d.record := by
  cases works with
  | voted | proposed | proposedOnQc => exact List.prefix_append _ _
  | _ => exact List.prefix_refl _

/-- Where the block in process comes from. -/
theorem processing (works : Works w c d next) {block : BlockInfo B}
    (now : d.processing = some block) :
    w.processingBlock = some block ∨
      (∃ queue, w.pendingFinalizeQueue = some queue ∧ block ∈ queue) ∨
      ∃ p, .voted p ∈ d.record ∧ block = ⟨some p.payload.blockHash, p.payload.blockNumber⟩ := by
  cases works with
  | rest | tried => exact .inl now
  | voted p =>
    cases now
    exact .inr (.inr ⟨p, List.mem_append_right _ List.mem_cons_self, rfl⟩)
  | dropped => cases now
  | unsigned _ _ _ chosen | proposed _ _ _ _ chosen =>
    rcases chosen.origin now with none | queued
    · cases none
    · exact .inr (.inl queued)
  | withheld _ _ _ _ _ chosen | unsignedOnQc _ _ _ _ _ chosen | proposedOnQc _ _ _ _ _ _ chosen =>
    rcases chosen.origin now with same | queued
    · exact .inl same
    · exact .inr (.inl queued)

end Works

/-! ### Over runs -/

/-- The step at which a node votes for a proposal, with what it knew of the payload. -/
def Setup.VotesAt (g : Setup B) (before : List (Action B)) (a : Action B) (p : Proposal B) : Prop :=
  (g.run before).entered a = some (.proposal p) ∧ (g.run before).worker.client.Knows p.payload ∧
    (g.run (before ++ [a])).worker.desk.record = (g.run before).worker.desk.record ++ [.voted p]

/-- The block was in the queue at some time, or the node has voted for it. -/
def Setup.Originates (g : Setup B) (actions : List (Action B)) (block : BlockInfo B) : Prop :=
  (∃ before queue, before <+: actions ∧
      (g.run before).worker.pendingFinalizeQueue = some queue ∧ block ∈ queue) ∨
    ∃ p, .voted p ∈ (g.run actions).worker.desk.record ∧
      block = ⟨some p.payload.blockHash, p.payload.blockNumber⟩

theorem Node.step_record (n : Node B) (a : Action B) :
    n.worker.desk.record <+: (n.step a).worker.desk.record := by
  rcases n.step_desk a with rests | ⟨c, _, works⟩
  · exact ⟨[], by rw [rests.record, List.append_nil]⟩
  · have grown := works.record_prefix
    rwa [n.handled_desk c] at grown

theorem Setup.Originates.snoc {g : Setup B} {actions : List (Action B)} {block : BlockInfo B}
    (origin : g.Originates actions block) (a : Action B) : g.Originates (actions ++ [a]) block := by
  rcases origin with ⟨before, queue, here, lock, member⟩ | ⟨p, voted, same⟩
  · exact .inl ⟨before, queue, here.trans (List.prefix_append _ _), lock, member⟩
  · refine .inr ⟨p, ?_, same⟩
    rw [g.run_snoc]
    exact (Node.step_record _ a).subset voted

theorem Setup.processing_originates (g : Setup B) (actions : List (Action B))
    {block : BlockInfo B} (now : (g.run actions).worker.processingBlock = some block) :
    g.Originates actions block := by
  induction actions using List.reverseRecOn generalizing block with
  | nil =>
    obtain ⟨queue, lock, head⟩ := Option.bind_eq_some_iff.mp now
    exact .inl ⟨[], queue, List.prefix_refl _, lock, List.mem_of_mem_head? head⟩
  | append_singleton actions a ih =>
    rw [g.run_snoc] at now
    rcases (g.run actions).step_desk a with rests | ⟨c, _, works⟩
    · exact (ih (rests.processing.symm.trans now)).snoc a
    · rcases works.processing now with old | ⟨queue, lock, member⟩ | ⟨p, voted, made⟩
      · exact (ih old).snoc a
      · exact .inl ⟨actions, queue, List.prefix_append _ _, lock, member⟩
      · exact .inr ⟨p, by rw [g.run_snoc]; exact voted, made⟩

theorem Setup.votes_known (g : Setup B) (actions : List (Action B)) {p : Proposal B}
    (voted : .voted p ∈ (g.run actions).worker.desk.record) :
    ∃ before a, before ++ [a] <+: actions ∧ g.VotesAt before a p := by
  induction actions using List.reverseRecOn with
  | nil => cases voted
  | append_singleton actions a ih =>
    have earlier (old : .voted p ∈ (g.run actions).worker.desk.record) :
        ∃ before b, before ++ [b] <+: actions ++ [a] ∧ g.VotesAt before b p := by
      obtain ⟨before, b, here, votes⟩ := ih old
      exact ⟨before, b, here.trans (List.prefix_append _ _), votes⟩
    rw [g.run_snoc] at voted
    rcases (g.run actions).step_desk a with rests | ⟨c, entered, works⟩
    · exact earlier (rests.record ▸ voted)
    · rcases works.new_vote voted with old | ⟨called, known, grown⟩
      · exact earlier (Node.handled_desk _ c ▸ old)
      · refine ⟨actions, a, List.prefix_refl _, called ▸ entered, known, ?_⟩
        rw [g.run_snoc, grown, Node.handled_desk]

/-- The numbers in the headers of the blocks that a client knows. -/
def KnownNumber (headers : B.Hash → Option B.Number) (number : B.Number) : Prop :=
  ∃ hash, headers hash = some number

/-- A node votes for the empty payload and for blocks that its client knows. The block in
process comes from the queue or from a payload it has voted for, number included, so it
carries the number of a known block if all of those do. -/
theorem voted_payloads_known (g : Setup B) (actions : List (Action B)) :
    (∀ p, .voted p ∈ (g.run actions).worker.desk.record →
      ∃ before a, before ++ [a] <+: actions ∧ g.VotesAt before a p) ∧
    ∀ block, (g.run actions).worker.processingBlock = some block →
      g.Originates actions block ∧
      ∀ headers : B.Hash → Option B.Number,
        (∀ before queue, before <+: actions →
          (g.run before).worker.pendingFinalizeQueue = some queue →
          ∀ info ∈ queue, KnownNumber headers info.number) →
        (∀ p, .voted p ∈ (g.run actions).worker.desk.record →
          KnownNumber headers p.payload.blockNumber) →
        KnownNumber headers block.number := by
  refine ⟨fun p voted => g.votes_known actions voted, fun block now => ?_⟩
  have origin := g.processing_originates actions now
  refine ⟨origin, fun headers queued announced => ?_⟩
  rcases origin with ⟨before, queue, here, lock, member⟩ | ⟨p, voted, same⟩
  · exact queued before queue here lock block member
  · rw [same]
    exact announced p voted

/-- The leader of view 1 announces the empty payload with the number 1000. Node 2 votes for it
and, as the next leader, repeats it instead of proposing the block in its queue. -/
theorem announced_number_spreads :
    let headers : symbolic.Hash → Option Nat := fun hash =>
      if hash = .leaf 2 then some 0 else if hash = .leaf 7 then some 1 else none
    let announced := Symbolic.signProposal
      ⟨QC.default, none, ⟨symbolic.emptyPayloadHash, 1000⟩, 1, 1, none⟩
    let vote := fun a => Symbolic.signVote ⟨announced.digest, 1, a, none⟩
    let n := (Symbolic.setup 3 2).run [.receive (.propose announced), .resume,
      .receive (.vote (vote 0)), .receive (.vote (vote 3))]
    let repeated := Symbolic.signProposal ⟨Symbolic.certificate [2, 0, 3] announced.digest 1, none,
      ⟨symbolic.emptyPayloadHash, 1000⟩, 2, 2, none⟩
    .voted announced ∈ n.worker.desk.record ∧ ¬ KnownNumber headers announced.payload.blockNumber ∧
      n.worker.processingBlock = some ⟨some symbolic.emptyPayloadHash, 1000⟩ ∧
      n.worker.pendingFinalizeQueue = some [⟨some (.leaf 7), 1⟩] ∧
      n.worker.client.finalizedNumber < 1 ∧ n.pending = some (.proposal repeated) := by
  refine ⟨by decide +kernel, ?_, by decide +kernel, by decide +kernel, by decide +kernel,
    by decide +kernel⟩
  rintro ⟨hash, known⟩
  dsimp only [Symbolic.signProposal] at known
  split at known
  · cases known
  · split at known <;> cases known

end Hotstuff
