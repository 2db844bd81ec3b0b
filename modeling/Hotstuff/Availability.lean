import Hotstuff.Agreement
import Hotstuff.Monotone
import Hotstuff.Payloads

/-! Where a finalized block is. The vote for a payload is given only when the client has its
block, so a certificate says that many clients had it. -/
namespace Hotstuff

variable {B : BlockT}

theorem Setup.finalized_at (g : Setup B)
    (codec : ∀ p, g.synchronizer.decode (g.synchronizer.encode p) = .ok p)
    (nonzero : ∀ data, B.hashOf data ≠ B.defaultHash)
    (fresh : ∀ key, g.synchronizer.store.aux key = none) (actions : List (Action B)) {m : Moment B}
    {hash : B.Hash} (asked : (m, .finalizeBlock hash) ∈ (g.run actions).worker.trace) :
    ∃ before grandpa p q, before <+: actions ∧
      FinalizedBy g (g.run before).worker hash grandpa p q := by
  induction actions using List.reverseRecOn with
  | nil => exact absurd asked List.not_mem_nil
  | append_singleton actions a ih =>
    by_cases old : (m, .finalizeBlock hash) ∈ (g.run actions).worker.trace
    · obtain ⟨before, grandpa, p, q, here, finalized⟩ := ih old
      exact ⟨before, grandpa, p, q, here.trans (List.prefix_append _ _), finalized⟩
    · obtain ⟨base, inv⟩ := (storeInv g codec fresh).run (actions ++ [a])
      have passed : ∀ m p, (m, .verified p) ∈ (g.run (actions ++ [a])).worker.trace →
          g.start.worker.state.verifyProposal p = .ok () :=
        fun m p seen => (((recorded g).run (actions ++ [a])).2.2 m _ seen).1
      have new : (m, .finalizeBlock hash) ∈
          ((g.run actions).step a).worker.trace.drop (g.run actions).worker.trace.length := by
        obtain ⟨more, grown⟩ := (g.run actions).step_trace a
        rw [g.run_snoc, ← grown] at asked
        rw [← grown, List.drop_left]
        exact (List.mem_append.mp asked).resolve_left old
      rw [g.run_snoc] at base inv passed
      obtain ⟨c, _, committed⟩ := (g.run actions).step_finalizing a new
      obtain ⟨grandpa, p, q, _, finalized⟩ := committed.finalizedBy nonzero inv base passed
      exact ⟨actions ++ [a], grandpa, p, q, List.prefix_rfl, by rw [g.run_snoc]; exact finalized⟩

namespace System

variable {sys : System B}

theorem voted_inChain {actions : List (B.AuthorityId × Action B)} {j : B.AuthorityId}
    {p : Proposal B} (voted : sys.Voted actions j p)
    (nonempty : p.payload.blockHash ≠ B.emptyPayloadHash) :
    ∃ before a, before ++ [a] <+: Runs.own j actions ∧ (sys.node j).VotesAt before a p ∧
      ((sys.node j).run before).worker.client.status p.payload.blockHash = .ok .inChain := by
  obtain ⟨m, v, entry⟩ := voted
  rw [run_node] at entry
  have recorded : .voted p ∈ ((sys.node j).run (Runs.own j actions)).worker.desk.record :=
    List.mem_filterMap.mpr ⟨_, entry, rfl⟩
  obtain ⟨before, a, here, votes⟩ := (sys.node j).votes_known _ recorded
  exact ⟨before, a, here, votes, votes.2.1.resolve_left nonempty⟩

end System

/-- Whatever block an honest node asks to finalize was in the chains of more than a third of the
authorities, all of them honest, when they voted for one and the same proposal of it; as long as
the certificates honest nodes accept are signed by authorities. -/
theorem finalized_block_available (sys : System B) (widths : FixedWidth B) (ideal : CollisionFree B)
    (codec : ∀ i ∉ sys.faulty, ∀ p,
      (sys.node i).synchronizer.decode ((sys.node i).synchronizer.encode p) = .ok p)
    (fresh : ∀ i ∉ sys.faulty, ∀ key, (sys.node i).synchronizer.store.aux key = none)
    (actions : List (B.AuthorityId × Action B)) (lawful : sys.Lawful actions)
    (members : sys.MembersOnly actions) (i : B.AuthorityId) (honest : i ∉ sys.faulty)
    (m : Moment B) (hash : B.Hash)
    (asked : (m, .finalizeBlock hash) ∈ (sys.run actions i).worker.trace) :
    ∃ (digest : B.Hash) (holders : Finset B.AuthorityId),
      sys.authorities.length < 3 * holders.card ∧
      ∀ j ∈ holders, sys.committee.Honest j ∧ ∃ p before a, p.digest = digest ∧
        p.payload.blockHash = hash ∧ before ++ [a] <+: Runs.own j actions ∧
        (sys.node j).VotesAt before a p ∧
        ((sys.node j).run before).worker.client.status hash = .ok .inChain := by
  rw [sys.run_node] at asked
  obtain ⟨before, grandpa, p, q, here, finalized⟩ := (sys.node i).finalized_at (codec i honest)
    ideal.ne_default (fresh i honest) _ asked
  obtain ⟨⟨m', seen⟩, _⟩ := finalized.passed p (by simp)
  have seen : (m', .verified p) ∈ (sys.run actions i).worker.trace := by
    rw [sys.run_node]
    exact (Setup.trace_prefix here).subset seen
  -- The certificate in `p` is one for the proposal of the block.
  obtain ⟨_, signers, quorum, voters⟩ := System.linked_certified widths ideal lawful honest seen
    (System.verified_along (fun _ => Proposal.ByMembers sys.authorities) members honest seen)
    finalized.grandpaLink
  refine ⟨grandpa.digest, signers \ sys.faulty, ?_, fun j hj => ?_⟩
  · rw [← sys.members_card]
    exact quorum.honest_part
  · obtain ⟨signer, outside⟩ := Finset.mem_sdiff.mp hj
    have honest' : sys.committee.Honest j := ⟨quorum.subset signer, outside⟩
    obtain ⟨y, voted, digest, _⟩ := voters j signer honest'
    have payload := (Proposal.digest_injective widths ideal.injective digest).2.1
    have block : y.payload.blockHash = hash := by rw [payload, finalized.block]
    obtain ⟨before, a, here, votes, inChain⟩ :=
      System.voted_inChain voted (block ▸ finalized.nonempty)
    exact ⟨honest', y, before, a, digest, block, here, votes, block ▸ inChain⟩

theorem finalized_block_available_rounds :
    let sys := Symbolic.system 3 {1} (by decide)
    (∃ x ∈ (sys.run Symbolic.rounds 3).worker.trace, x.2 = .finalizeBlock (.leaf 7)) ∧
      ∃ holders : Finset Nat, 4 < 3 * holders.card ∧ ∀ j ∈ holders, j ≠ 1 ∧ ∃ p before a,
        p.payload.blockHash = .leaf 7 ∧ before ++ [a] <+: Runs.own j Symbolic.rounds ∧
        (sys.node j).VotesAt before a p ∧
        ((sys.node j).run before).worker.client.status (.leaf 7) = .ok .inChain := by
  intro sys
  have asked : ∃ x ∈ (sys.run Symbolic.rounds 3).worker.trace, x.2 = .finalizeBlock (.leaf 7) := by
    decide +kernel
  have accepts : sys.AcceptsOnly Symbolic.rounds := by decide +kernel
  refine ⟨asked, ?_⟩
  obtain ⟨⟨m, _⟩, entry, rfl⟩ := asked
  obtain ⟨_, holders, many, voted⟩ := finalized_block_available sys symbolic_fixedWidth
    symbolic_collisionFree (fun _ _ => Symbolic.decode_encode) (fun _ _ _ => rfl) _
    (Symbolic.lawful (by decide +kernel)) accepts.membersOnly 3 (by decide) m _ entry
  refine ⟨holders, many, fun j hj => ?_⟩
  obtain ⟨honest, p, before, a, _, votes⟩ := voted j hj
  have faulty : 1 ∈ sys.faulty := by decide
  exact ⟨fun same => honest.2 (same ▸ faulty), p, before, a, votes⟩

end Hotstuff
