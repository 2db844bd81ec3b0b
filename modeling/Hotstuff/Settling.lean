import Hotstuff.Lib.Rotation
import Hotstuff.Recovery

/-! How a block is settled: with less than a third of the authorities faulty, three honest leaders
in a row are never far, and they take all honest nodes from one rest to the next. -/
namespace Hotstuff

variable {B : BlockT}

open ConsensusWorker

namespace System

/-! ### Honest leaders -/

variable (sys : System B)

theorem exists_enough {i : B.AuthorityId} (honest : sys.committee.Honest i) :
    ∃ peers, sys.Enough i peers := by
  let others := (sys.committee.members \ sys.committee.faulty).erase i
  have member : i ∈ sys.committee.members \ sys.committee.faulty := Finset.mem_sdiff.mpr honest
  have size : sys.authorities.length * 2 / 3 ≤ others.card := by
    have few := sys.committee.few
    have split := Finset.card_sdiff_add_card_inter sys.committee.members sys.committee.faulty
    have rest : others.card = (sys.committee.members \ sys.committee.faulty).card - 1 :=
      Finset.card_erase_of_mem member
    rw [show sys.committee.members.card = sys.authorities.length from sys.members_card]
      at few split
    omega
  obtain ⟨chosen, inside, card⟩ := Finset.exists_subset_card_eq size
  refine ⟨chosen.toList, ?_, fun j listed => ?_, by rw [Finset.length_toList, card]⟩
  · refine List.nodup_cons.mpr ⟨fun listed => ?_, Finset.nodup_toList _⟩
    exact Finset.notMem_erase i _ (inside (Finset.mem_toList.mp listed))
  · exact Finset.mem_sdiff.mp (Finset.mem_of_mem_erase (inside (Finset.mem_toList.mp listed)))

theorem exists_peers :
    ∃ peers : B.AuthorityId → List B.AuthorityId, ∀ i, sys.committee.Honest i →
      sys.Enough i (peers i) := by
  have choice : ∀ i, ∃ peers, sys.committee.Honest i → sys.Enough i peers := by
    intro i
    by_cases honest : sys.committee.Honest i
    · exact (sys.exists_enough honest).imp fun _ enough _ => enough
    · exact ⟨[], fun other => absurd other honest⟩
  choose peers enough using choice
  exact ⟨peers, enough⟩

/-- The leader of the view, counted without bound, is faulty. -/
def FaultyTurn (turn : Nat) : Prop :=
  ∃ id ∈ sys.faulty, sys.authorities.ids[turn % sys.authorities.length]? = some id

theorem faultyTurn_periodic : Function.Periodic sys.FaultyTurn sys.authorities.length := by
  intro turn
  simp only [FaultyTurn, Nat.add_mod_right]

theorem honest_leader {view : ViewNumber} (good : ¬ sys.FaultyTurn view.toNat) :
    sys.committee.Honest (sys.leader view) := by
  have found := sys.leader_eq view
  refine ⟨List.mem_toFinset.mpr (List.mem_of_getElem? found), fun faulty => ?_⟩
  exact good ⟨_, faulty, found⟩

open Classical in
theorem count_faultyTurn :
    sys.authorities.length.count sys.FaultyTurn ≤
      (sys.authorities.ids.toFinset ∩ sys.faulty).card := by
  have size : sys.authorities.ids.length = sys.authorities.length := List.length_map _
  have turns : ∀ turn ∈ (Finset.range sys.authorities.length).filter sys.FaultyTurn,
      turn < sys.authorities.ids.length ∧ ∃ id ∈ sys.faulty, sys.authorities.ids[turn]? = some id ∧
        sys.authorities.ids.getD turn (sys.leader 0) = id := by
    intro turn hturn
    obtain ⟨inside, id, faulty, found⟩ := Finset.mem_filter.mp hturn
    have inside := Finset.mem_range.mp inside
    rw [Nat.mod_eq_of_lt inside] at found
    exact ⟨size.symm ▸ inside, id, faulty, found, by rw [List.getD_eq_getElem?_getD, found]; rfl⟩
  rw [Nat.count_eq_card_filter_range]
  apply Finset.card_le_card_of_injOn fun turn => sys.authorities.ids.getD turn (sys.leader 0)
  · intro turn hturn
    obtain ⟨_, id, faulty, found, same⟩ := turns turn hturn
    dsimp only
    rw [same]
    exact Finset.mem_inter.mpr ⟨List.mem_toFinset.mpr (List.mem_of_getElem? found), faulty⟩
  · intro turn hturn turn' hturn' equal
    obtain ⟨inside, id, _, found, same⟩ := turns turn hturn
    obtain ⟨_, id', _, found', same'⟩ := turns turn' hturn'
    dsimp only at equal
    rw [same, same'] at equal
    exact (List.getElem?_inj inside sys.distinct).mp (found.trans (equal ▸ found'.symm))

/-- In any as many consecutive views as there are authorities, there are three in a row whose
leaders are honest. -/
theorem honest_leaders (view : ViewNumber)
    (room : view.toNat + sys.authorities.length + 2 ≤ UInt64.size) :
    ∃ first : ViewNumber, view.toNat ≤ first.toNat ∧
      first.toNat < view.toNat + sys.authorities.length ∧
      sys.committee.Honest (sys.leader first) ∧ sys.committee.Honest (sys.leader (first + 1)) ∧
      sys.committee.Honest (sys.leader (first + 1 + 1)) := by
  classical
  have few : 3 * sys.authorities.length.count sys.FaultyTurn < sys.authorities.length :=
    Nat.lt_of_le_of_lt (Nat.mul_le_mul_left 3 sys.count_faultyTurn) sys.few
  obtain ⟨k, inside, good⟩ := Rotation.exists_run sys.faultyTurn_periodic few view.toNat
  have bound : view.toNat + k + 2 < UInt64.size := by omega
  have here : (UInt64.ofNat (view.toNat + k)).toNat = view.toNat + k :=
    UInt64.toNat_ofNat_of_lt (by omega)
  have next : (UInt64.ofNat (view.toNat + k) + 1).toNat = view.toNat + k + 1 := by
    rw [toNat_next (lt_next (by omega)), here]
  have last : (UInt64.ofNat (view.toNat + k) + 1 + 1).toNat = view.toNat + k + 2 := by
    rw [toNat_next (lt_next (by omega)), next]
  refine ⟨UInt64.ofNat (view.toNat + k), by omega, by omega, ?_, ?_, ?_⟩
  · exact sys.honest_leader (here.symm ▸ good 0 (by omega))
  · exact sys.honest_leader (next.symm ▸ good 1 (by omega))
  · exact sys.honest_leader (last.symm ▸ good 2 (by omega))

end System

/-! ### A block is settled -/

structure Node.Settled (authorities : AuthorityList B) (id : B.AuthorityId) (keystore : Keystore B)
    (client : Client B) (block : Payload B) (p : Proposal B) (n n' : Node B) : Prop where
  key : n'.worker.state.keystore = keystore
  high : n'.worker.state.highQc = n.worker.state.moment.highQcAfter p.qc
  stalled : n'.Stalled authorities id p.view
  answers : client.Agrees n'.worker.client
  finalizes : n'.Finalizes client block.blockHash
  keeps : Node.Keeps [p] n n'

theorem Node.Closes.settled {authorities : AuthorityList B} {id : B.AuthorityId}
    {keystore : Keystore B} {client : Client B} {block : Payload B} {p : Proposal B} {n n' : Node B}
    (closes : Node.Closes authorities id keystore client block p n n')
    (sound : (n.worker.state.moment.highQcAfter p.qc).Sound authorities)
    (timeouts : ∀ later, p.view ≤ later →
      n.worker.state.aggregator.timeoutsAggregators later = Maker.new)
    (several : 1 < authorities.length) :
    Node.Settled authorities id keystore client block p n (n'.step .resume) := by
  obtain ⟨stalled, votes, trace, frame⟩ := closes.heard.rests closes.able (closes.high ▸ sound)
    (closes.keeps.timeouts ▸ timeouts) several
  obtain ⟨⟨m, asks⟩, done⟩ := closes.finalizes
  refine ⟨?_, ?_, stalled, ?_, ⟨⟨m, Node.run_trace n' [.resume] asks⟩, ?_⟩, ?_, ?_, ?_⟩
  · rw [frame]
    exact closes.key
  · rw [frame]
    exact closes.high
  · rw [frame]
    exact closes.answers
  · rw [frame]
    exact done
  · rw [frame]
    exact closes.keeps.queue
  · rw [frame]
    exact closes.keeps.timeouts
  · rw [frame]
    exact closes.keeps.stores

theorem Succeeds.dated (widths : FixedWidth B) (ideal : CollisionFree B)
    {authorities : AuthorityList B} {p p' : Proposal B} (succeeds : Succeeds authorities p p') :
    p'.qc.Dated := by
  intro q same
  rw [succeeds.parent] at same
  rw [succeeds.base, (Proposal.digest_injective widths ideal.injective same).2.2.1]
  exact UInt64.le_refl _

theorem Succeeds.sound (ideal : CollisionFree B) {authorities : AuthorityList B} {p p' : Proposal B}
    (succeeds : Succeeds authorities p p') : p'.qc.Sound authorities := by
  obtain ⟨_, certified⟩ := (Proposal.verify_ok _ _).mp succeeds.verified
  refine .inr (certified.resolve_left fun default => ?_)
  exact ideal.ne_default _ (succeeds.parent.symm.trans ((QC.eq_default _).mp default).1)

namespace System

/-- All honest nodes have finalized the block, and they rest again in `view`. -/
structure Settles (sys : System B) (keys : B.AuthorityId → Keystore B)
    (clients : B.AuthorityId → Client B) (block : Payload B) (view : ViewNumber)
    (world world' : World B) : Prop where
  rests : ∃ highs, sys.Resting keys highs view world'
  answers : ∀ i, sys.committee.Honest i → (clients i).Agrees (world' i).worker.client
  finalizes : ∀ i, sys.committee.Honest i → (world' i).Finalizes (clients i) block.blockHash
  attends : ∀ i, sys.committee.Honest i → Node.Attends block (world i) (world' i)

section Settling

variable {sys : System B} {may : ConsensusWorker B → Environment B → Prop}
  {keys : B.AuthorityId → Keystore B} {highs : B.AuthorityId → QC B}
  {clients : B.AuthorityId → Client B} {block : Payload B} {view : ViewNumber}
  {origin world : World B} {peers : B.AuthorityId → List B.AuthorityId}

section Chain

variable {world' : World B} {p₀ p₁ p₂ : Proposal B} {voters₁ voters₂ : List B.AuthorityId}

/-- The last proposal is heard, and the next leader counts its own vote for it. -/
def settling (p : Proposal B) (i : B.AuthorityId) : List (Action B) := [hearProposal p i, .resume]

theorem InRow.settled (row : sys.InRow keys clients p₀ p₁ p₂ voters₁ voters₂ world world')
    (widths : FixedWidth B) (ideal : CollisionFree B)
    (nonempty : p₀.payload.blockHash ≠ B.emptyPayloadHash)
    (rounds : sys.Rounds p₀.view voters₁ voters₂) {i : B.AuthorityId}
    (honest : sys.committee.Honest i) (timeouts : ∀ later, p₀.view ≤ later →
      (world i).worker.state.aggregator.timeoutsAggregators later = Maker.new) :
    Node.Settled sys.authorities i (keys i) (clients i) p₀.payload p₂ (world' i)
      (after world' (settling p₂) i) := by
  refine (row.closes widths ideal nonempty rounds honest).settled ?_ ?_ rounds.several
  · rw [row.adopts i honest]
    exact row.two.sound ideal
  · intro later above
    rw [row.two.view, row.one.view] at above
    rw [(row.keeps i honest).timeouts]
    exact timeouts later (UInt64.le_trans (UInt64.le_of_lt
      (UInt64.lt_trans rounds.lt_first rounds.lt_second)) above)

theorem InRow.views (row : sys.InRow keys clients p₀ p₁ p₂ voters₁ voters₂ world world')
    (rounds : sys.Rounds p₀.view voters₁ voters₂) : p₀.view < p₁.view ∧ p₁.view < p₂.view := by
  rw [row.two.view, row.one.view]
  exact ⟨rounds.lt_first, rounds.lt_second⟩

theorem InRow.serves (row : sys.InRow keys clients p₀ p₁ p₂ voters₁ voters₂ world world') :
    ∀ q ∈ [p₀, p₁, p₂], q.Serves p₀.payload := by
  intro q member
  simp only [List.mem_cons, List.not_mem_nil, or_false] at member
  rcases member with rfl | rfl | rfl
  · exact .inl rfl
  · exact .inr (by rw [row.one.payload])
  · exact .inr (by rw [row.two.payload])

theorem InRow.linked (row : sys.InRow keys clients p₀ p₁ p₂ voters₁ voters₂ world world')
    (widths : FixedWidth B) (ideal : CollisionFree B) (rounds : sys.Rounds p₀.view voters₁ voters₂)
    (linked : p₀.Linked) : ∀ q ∈ [p₀, p₁, p₂], q.view ≤ p₂.view ∧ q.Linked := by
  obtain ⟨first, second⟩ := row.views rounds
  intro q member
  simp only [List.mem_cons, List.not_mem_nil, or_false] at member
  rcases member with rfl | rfl | rfl
  · exact ⟨UInt64.le_of_lt (UInt64.lt_trans first second), linked⟩
  · exact ⟨UInt64.le_of_lt second, row.one.dated widths ideal, row.one.base ▸ first⟩
  · exact ⟨UInt64.le_refl _, row.two.dated widths ideal, row.valid.past⟩

theorem InRow.resting (row : sys.InRow keys clients p₀ p₁ p₂ voters₁ voters₂ world world')
    (widths : FixedWidth B) (ideal : CollisionFree B) (rounds : sys.Rounds p₀.view voters₁ voters₂)
    (settled : ∀ i, sys.committee.Honest i → Node.Settled sys.authorities i (keys i) (clients i)
      p₀.payload p₂ (world' i) (after world' (settling p₂) i))
    (older : ∀ i, sys.committee.Honest i → ∀ key q, (world i).worker.synchronizer.Stores key q →
      q.view < p₀.view ∧ q.Linked) (linked : p₀.Linked) :
    sys.Resting keys (fun _ => p₂.qc) p₂.view (after world' (settling p₂)) := by
  obtain ⟨first, second⟩ := row.views rounds
  have stored : ∀ i, sys.committee.Honest i → ∀ key q,
      (after world' (settling p₂) i).worker.synchronizer.Stores key q →
      q.view ≤ p₂.view ∧ q.Linked := by
    intro i honest key q stores
    have keeps := (row.keeps i honest).trans (settled i honest).keeps
    rcases keeps.stores key q stores with old | new
    · obtain ⟨before, linked⟩ := older i honest key q old
      exact ⟨UInt64.le_of_lt (UInt64.lt_trans before (UInt64.lt_trans first second)), linked⟩
    · exact row.linked widths ideal rounds linked q new
  exact ⟨fun i honest => (settled i honest).key,
    fun i honest => (settled i honest).high.trans (row.adopts i honest),
    fun i honest => (settled i honest).stalled, fun _ _ => row.two.dated widths ideal,
    fun i honest key q stores => (stored i honest key q stores).1,
    fun i honest key q stores => (stored i honest key q stores).2⟩

end Chain

/-- The next three leaders are honest: then the nodes leave the view and settle the block. -/
theorem Waiting.settles (widths : FixedWidth B) (ideal : CollisionFree B)
    (waiting : sys.Waiting keys highs clients block view world)
    (nonempty : block.blockHash ≠ B.emptyPayloadHash)
    (known : ∀ i, sys.committee.Honest i → (clients i).Knows block)
    (enough : ∀ i, sys.committee.Honest i → sys.Enough i (peers i))
    (opening : sys.committee.Honest (sys.leader (view + 1))) (room : view < view + 1)
    (rounds : sys.Rounds (view + 1) (peers (sys.leader (view + 1 + 1)))
      (peers (sys.leader (view + 1 + 1 + 1))))
    (sofar : sys.Reaches may origin world) :
    ∃ world', sys.Reaches may origin world' ∧
      sys.Settles keys clients block (view + 1 + 1 + 1) world world' := by
  obtain ⟨p, rfl, opened, valid, carries, ready, entered, told⟩ :=
    waiting.changes room opening enough rounds.several
  have leader : p.author = sys.leader (view + 1) := opened ▸ valid.author
  rw [← opened] at ready rounds
  obtain ⟨p₁, p₂, row, reaches⟩ := ready.inRow widths ideal valid nonempty known rounds
  have last : p₂.view = view + 1 + 1 + 1 := by
    rw [row.two.view, row.one.view, opened]
  have settled := fun i (honest : sys.committee.Honest i) =>
    row.settled widths ideal nonempty rounds honest fun later above => by
      have beyond : view < later := UInt64.lt_of_lt_of_le room (opened ▸ above)
      rw [(entered i honest).others later (UInt64.ne_of_lt beyond).symm]
      exact (waiting.stalled i honest).timeouts later (UInt64.le_of_lt beyond)
  have resting := row.resting widths ideal rounds settled (fun i honest key q stores => by
    rw [(entered i honest).synchronizer] at stores
    exact ⟨UInt64.lt_of_le_of_lt (waiting.older i honest key q stores) (opened ▸ room),
      waiting.links i honest key q stores⟩) ⟨carries ▸ waiting.tops _ opening, valid.past⟩
  refine ⟨_, (reaches may origin (waiting.reaches enough sofar) (leader ▸ opening)
      (leader ▸ told)).phase fun i _ a own => ?_, ⟨_, last ▸ resting⟩,
    fun i honest => (settled i honest).answers, fun i honest => (settled i honest).finalizes,
    fun i honest => ?_⟩
  · simp only [settling, List.mem_cons, List.not_mem_nil, or_false] at own
    rcases own with rfl | rfl
    · unfold hearProposal
      split
      · trivial
      · exact ⟨_, row.backs.second⟩
    · trivial
  · have keeps := (row.keeps i honest).trans (settled i honest).keeps
    refine ⟨keeps.queue.trans (entered i honest).queue, ?_, fun key q stores => ?_⟩
    · rw [after_after, after_after, after_after]
      exact Node.run_trace _ _
    · exact (keeps.stores key q stores).imp (fun old => (entered i honest).synchronizer ▸ old)
        (row.serves q)

/-- Whoever is faulty, the block is settled within one rotation of leaders and two views. -/
theorem Waiting.turn (widths : FixedWidth B) (ideal : CollisionFree B)
    (waiting : sys.Waiting keys highs clients block view world)
    (nonempty : block.blockHash ≠ B.emptyPayloadHash)
    (known : ∀ i, sys.committee.Honest i → (clients i).Knows block)
    (several : 1 < sys.authorities.length)
    (fits : view.toNat + sys.authorities.length + 2 < UInt64.size)
    (sofar : sys.Reaches may origin world) :
    ∃ world' view', sys.Reaches may origin world' ∧
      view'.toNat ≤ view.toNat + sys.authorities.length + 2 ∧
      sys.Settles keys clients block view' world world' := by
  obtain ⟨peers, enough⟩ := sys.exists_peers
  have room : view < view + 1 := lt_next (by omega)
  have start := toNat_next room
  obtain ⟨first, above, below, opening, second, third⟩ := sys.honest_leaders (view + 1) (by omega)
  have one : (1 : ViewNumber).toNat = 1 := rfl
  have before : (first - 1).toNat = first.toNat - 1 := by
    rw [UInt64.toNat_sub_of_le _ _ (UInt64.le_iff_toNat_le.mpr (by omega)), one]
  have next : first - 1 + 1 = first := by simp
  have room₁ : first < first + 1 := lt_next (by omega)
  have room₂ : first + 1 < first + 1 + 1 := lt_next (by rw [toNat_next room₁]; omega)
  obtain ⟨world₁, reached, waits, attends⟩ := waiting.waits known enough several sofar
    (show view ≤ first - 1 from UInt64.le_iff_toNat_le.mpr (by omega)) (by omega)
  have rounds : sys.Rounds (first - 1 + 1) (peers (sys.leader (first - 1 + 1 + 1)))
      (peers (sys.leader (first - 1 + 1 + 1 + 1))) := by
    rw [next]
    exact ⟨several, by omega, second, third, enough _ second, enough _ third⟩
  obtain ⟨world', reached, settles⟩ := waits.settles widths ideal nonempty known enough
    (next.symm ▸ opening) (lt_next (by omega)) rounds reached
  rw [next] at settles
  refine ⟨world', _, reached, ?_, settles.rests, settles.answers, settles.finalizes,
    fun i honest => (attends i honest).trans (settles.attends i honest)⟩
  rw [toNat_next room₂, toNat_next room₁]
  omega

end Settling

end System

end Hotstuff
