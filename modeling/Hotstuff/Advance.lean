import Hotstuff.Following
import Hotstuff.System
import Mathlib.Data.Nat.ModEq

/-! A round of the whole system: when its messages arrive and the next leader is honest, there is
a proposal on top of the last one that all honest nodes are to hear. -/
namespace Hotstuff

variable {B : BlockT}

open ConsensusWorker

theorem lt_next {view : ViewNumber} (fits : view.toNat + 1 < UInt64.size) : view < view + 1 := by
  rw [UInt64.lt_iff_toNat_lt, UInt64.toNat_add, UInt64.toNat_one, Nat.mod_eq_of_lt fits]
  exact Nat.lt_succ_self _

theorem toNat_next {view : ViewNumber} (room : view < view + 1) :
    (view + 1).toNat = view.toNat + 1 := by
  have above := UInt64.lt_iff_toNat_lt.mp room
  have bound := view.toNat_lt
  rw [UInt64.toNat_add, UInt64.toNat_one] at above ⊢
  omega

namespace System

variable (sys : System B)

theorem nonempty : 0 < sys.authorities.length := Nat.zero_lt_of_lt sys.few

def leader (view : ViewNumber) : B.AuthorityId :=
  (sys.authorities.get ⟨view.toNat % sys.authorities.length, Nat.mod_lt _ sys.nonempty⟩).1

theorem viewLeader_eq {s : ConsensusState B} (same : s.authorities = sys.authorities)
    (view : ViewNumber) : s.viewLeader view = sys.leader view := by
  unfold ConsensusState.viewLeader leader
  congr 1
  simp only [List.get_eq_getElem, same]

theorem leader_eq (view : ViewNumber) :
    sys.authorities.ids[view.toNat % sys.authorities.length]? = some (sys.leader view) := by
  have inside := Nat.mod_lt view.toNat sys.nonempty
  simp [AuthorityList.ids, leader, inside]

theorem leader_ne_next (several : 1 < sys.authorities.length) {view : ViewNumber}
    (room : view < view + 1) : sys.leader view ≠ sys.leader (view + 1) := by
  intro same
  have size : sys.authorities.ids.length = sys.authorities.length := List.length_map _
  have inside := Nat.mod_lt view.toNat sys.nonempty
  have once := (List.getElem?_inj (size ▸ inside) sys.distinct).mp
    ((sys.leader_eq view).trans (same ▸ (sys.leader_eq (view + 1)).symm))
  rw [toNat_next room] at once
  have divides : sys.authorities.length ∣ 1 := by
    have modulo : Nat.ModEq sys.authorities.length (view.toNat + 0) (view.toNat + 1) := once
    exact Nat.modEq_zero_iff_dvd.mp (modulo.add_left_cancel' _).symm
  exact absurd (Nat.le_of_dvd Nat.one_pos divides) (by omega)

/-- A proposal that all nodes accept. -/
structure Valid (p : Proposal B) : Prop where
  author : p.author = sys.leader p.view
  verified : p.verify sys.authorities = .ok ()
  past : p.qc.view < p.view

/-- Honest authorities that are, with `leader`, just enough for a certificate. -/
structure Enough (leader : B.AuthorityId) (others : List B.AuthorityId) : Prop where
  distinct : (leader :: others).Nodup
  honest : ∀ j ∈ others, sys.committee.Honest j
  size : others.length = sys.authorities.length * 2 / 3

def after (world : World B) (schedule : B.AuthorityId → List (Action B)) : World B :=
  fun i => Runs.run Node.step (world i) (schedule i)

def Gossiped (world : World B) (i : B.AuthorityId) (message : ConsensusMessage B) : Prop :=
  ∃ m, (m, .gossip message) ∈ (world i).worker.trace

/-- The part of the node `i` in a round: it hears `p`, and the leader of the next view gets
to handle its own vote and those of the voters. -/
def round (keys : B.AuthorityId → Keystore B) (p : Proposal B) (voters : List B.AuthorityId)
    (i : B.AuthorityId) : List (Action B) :=
  hearProposal p i ::
    if i = sys.leader (p.view + 1) then .resume :: voters.map (hearVote keys p) else []

variable {sys}

theorem Valid.verifyProposal {p : Proposal B} (valid : sys.Valid p) {s : ConsensusState B}
    (same : s.authorities = sys.authorities) : s.verifyProposal p = .ok () := by
  rw [ConsensusState.verifyProposal_ok, sys.viewLeader_eq same, same]
  exact ⟨valid.author, valid.verified⟩

theorem Valid.of_succeeds {p p' : Proposal B} (succeeds : Succeeds sys.authorities p p')
    (author : p'.author = sys.leader (p.view + 1)) (room : p.view < p.view + 1) : sys.Valid p' :=
  ⟨succeeds.view ▸ author, succeeds.verified, by rw [succeeds.base, succeeds.view]; exact room⟩

/-- All honest nodes are to hear `p`, with the block on its way. -/
def Ready (sys : System B) (keys : B.AuthorityId → Keystore B)
    (clients : B.AuthorityId → Client B) (block : Payload B) (since : ViewNumber)
    (chain : List (Proposal B)) (p : Proposal B) (world : World B) : Prop :=
  ∀ i, sys.committee.Honest i →
    (world i).Primed sys.authorities i (keys i) (clients i) block since chain p

/-- All honest nodes accept `p`, and it does not commit the block yet. -/
structure Offers (sys : System B) (clients : B.AuthorityId → Client B) (block : Payload B)
    (chain : List (Proposal B)) (p : Proposal B) (world : World B) : Prop where
  valid : sys.Valid p
  serves : p.Serves block
  number : p.payload.blockNumber = block.blockNumber
  known : ∀ i, sys.committee.Honest i → (clients i).Knows p.payload
  apart : ∀ q ∈ chain, q.digest ≠ p.digest
  spares : ∀ i, sys.committee.Honest i → (world i).worker.Spares block p

/-- A round has come to its end: the leader of the next view proposes `p'` on a certificate
for `p`. -/
structure Advances (sys : System B) (keys : B.AuthorityId → Keystore B)
    (clients : B.AuthorityId → Client B) (block : Payload B) (since : ViewNumber)
    (chain : List (Proposal B)) (p p' : Proposal B) (voters : List B.AuthorityId)
    (world world' : World B) : Prop where
  succeeds : Succeeds sys.authorities p p'
  author : p'.author = sys.leader (p.view + 1)
  turns : ∀ i, sys.committee.Honest i → Node.Turns sys.authorities i (keys i) (clients i) block
    since chain p p' (world i) (world' i)
  hashes : ∀ i, sys.committee.Honest i → i ≠ sys.leader (p.view + 1) →
    (world' i).worker.proposalHashQueue =
      (world i).worker.proposalHashQueue ++ [p.payload.blockHash]
  told : Gossiped world' (sys.leader (p.view + 1)) (.propose p')
  votes : ∀ j ∈ voters, Gossiped world' j (.vote ((keys j).vote j p))

section Round

variable {keys : B.AuthorityId → Keystore B} {clients : B.AuthorityId → Client B}
  {block : Payload B} {since : ViewNumber} {chain : List (Proposal B)} {p : Proposal B}
  {world : World B} {voters : List B.AuthorityId} {i : B.AuthorityId}

theorem Ready.hear (ready : sys.Ready keys clients block since chain p world)
    (offers : sys.Offers clients block chain p world) (honest : sys.committee.Honest i) :
    Node.Heeds sys.authorities i (keys i) (clients i) block since chain p (world i)
      ((world i).step (hearProposal p i)) :=
  (ready i honest).heeds (offers.known i honest)
    (offers.valid.verifyProposal (ready i honest).follows.able.authorities) offers.valid.past
    offers.serves offers.apart (offers.spares i honest)

theorem Ready.hear_told (ready : sys.Ready keys clients block since chain p world)
    (offers : sys.Offers clients block chain p world) (honest : sys.committee.Honest i)
    (follower : i ≠ sys.leader (p.view + 1)) :
    ∃ m, (m, .gossip (.vote ((keys i).vote i p))) ∈
      ((world i).step (hearProposal p i)).worker.trace := by
  have heeds := ready.hear offers honest
  exact heeds.told ((sys.viewLeader_eq heeds.follows.able.authorities _).symm ▸ follower)

theorem Ready.vote_verifies (ready : sys.Ready keys clients block since chain p world)
    {j : B.AuthorityId} (honest : sys.committee.Honest j) :
    ((keys j).vote j p).verify sys.authorities = .ok () := by
  rw [← (ready j honest).key]
  exact (ready j honest).follows.able.vote_verifies p

theorem after_follower (follower : i ≠ sys.leader (p.view + 1)) :
    after world (sys.round keys p voters) i = (world i).step (hearProposal p i) := by
  simp [after, round, follower]

theorem after_leader : after world (sys.round keys p voters) (sys.leader (p.view + 1)) =
    Runs.run Node.step ((world (sys.leader (p.view + 1))).step
      (hearProposal p (sys.leader (p.view + 1)))) (.resume :: voters.map (hearVote keys p)) := by
  simp [after, round]

theorem Ready.leads (ready : sys.Ready keys clients block since chain p world)
    (offers : sys.Offers clients block chain p world) (room : p.view < p.view + 1)
    (honest : sys.committee.Honest (sys.leader (p.view + 1)))
    (due : ¬ Spent ((world (sys.leader (p.view + 1))).worker.proposalHashQueue ++
      [p.payload.blockHash]))
    (enough : sys.Enough (sys.leader (p.view + 1)) voters) (several : 1 < sys.authorities.length) :
    ∃ p', Succeeds sys.authorities p p' ∧ p'.author = sys.leader (p.view + 1) ∧
      let world' := after world (sys.round keys p voters)
      Node.Turns sys.authorities (sys.leader (p.view + 1)) (keys (sys.leader (p.view + 1)))
        (clients (sys.leader (p.view + 1))) block since chain p p'
        (world (sys.leader (p.view + 1))) (world' (sys.leader (p.view + 1))) ∧
      Gossiped world' (sys.leader (p.view + 1)) (.propose p') := by
  have heeds := ready.hear offers honest
  have own := (sys.viewLeader_eq heeds.follows.able.authorities (p.view + 1)).symm
  have pending := heeds.heard.pending
  rw [if_pos own] at pending
  obtain ⟨p', succeeds, author, led, proposes⟩ := Node.collects keys
    (heeds.heard.collector heeds.follows own offers.number (heeds.hashes ▸ due))
    heeds.heard.tallies pending voters enough.distinct
    (fun j hj => ready.vote_verifies (enough.honest j hj)) enough.size several
  rw [← after_leader] at led proposes
  exact ⟨p', succeeds, author, heeds.leader led succeeds author proposes room, led.told⟩

/-- One round: all honest nodes hear `p`, the votes reach the next leader, and then there is a
proposal on top of `p` that all honest nodes are to hear next. -/
theorem Ready.round (ready : sys.Ready keys clients block since chain p world)
    (offers : sys.Offers clients block chain p world) (room : p.view < p.view + 1)
    (leads : sys.committee.Honest (sys.leader (p.view + 1)))
    (due : ¬ Spent ((world (sys.leader (p.view + 1))).worker.proposalHashQueue ++
      [p.payload.blockHash]))
    (enough : sys.Enough (sys.leader (p.view + 1)) voters) (several : 1 < sys.authorities.length) :
    ∃ p', sys.Advances keys clients block since chain p p' voters world
      (after world (sys.round keys p voters)) := by
  obtain ⟨p', succeeds, author, led, told⟩ := ready.leads offers room leads due enough several
  refine ⟨p', succeeds, author, fun i honest => ?_, fun i honest follower => ?_, told,
    fun j hj => ?_⟩
  · by_cases leader : i = sys.leader (p.view + 1)
    · exact leader ▸ led
    · have heeds := ready.hear offers honest
      rw [after_follower leader]
      refine heeds.follower ?_ succeeds (author ▸ leader) room
      rwa [sys.viewLeader_eq heeds.follows.able.authorities]
  · rw [after_follower follower]
    exact (ready.hear offers honest).hashes
  · have other : j ≠ sys.leader (p.view + 1) :=
      fun same => (List.nodup_cons.mp enough.distinct).1 (same ▸ hj)
    unfold Gossiped
    rw [after_follower other]
    exact ready.hear_told offers (enough.honest j hj) other

end Round

theorem Advances.ready {keys : B.AuthorityId → Keystore B} {clients : B.AuthorityId → Client B}
    {block : Payload B} {since : ViewNumber} {chain : List (Proposal B)} {p p' : Proposal B}
    {voters : List B.AuthorityId} {world world' : World B}
    (advances : sys.Advances keys clients block since chain p p' voters world world') :
    sys.Ready keys clients block since (chain ++ [p]) p' world' :=
  fun i honest => (advances.turns i honest).primed

end System

end Hotstuff
