import Hotstuff.Advance

/-! Schedules of the honest nodes: the rounds that commit a block, and views that end without a
certificate, one after the other. -/
namespace Hotstuff

variable {B : BlockT}

open ConsensusWorker

namespace System

variable {sys : System B} {may : ConsensusWorker B → Environment B → Prop}

/-! ### Whole schedules -/

theorem after_after (world : World B) (first second : B.AuthorityId → List (Action B)) :
    after (after world first) second = after world fun i => first i ++ second i := by
  funext i
  exact (Runs.run_append Node.step (world i) (first i) (second i)).symm

theorem run_after (world : World B) (schedule : B.AuthorityId → List (Action B))
    {actions : List (B.AuthorityId × Action B)} {i : B.AuthorityId}
    (own : Runs.own i actions = schedule i) :
    Runs.run (Runs.many Node.step) world actions i = after world schedule i := by
  rw [Runs.many_run, own]
  rfl

/-! ### Runs of the honest nodes alone -/

/-- The timer fires, the node goes on with a call, or it receives what an honest node has
gossiped. -/
def Prompted (sys : System B) (world : World B) : Action B → Prop
  | .timer | .resume => True
  | .receive message => ∃ j, sys.committee.Honest j ∧ Gossiped world j message
  | .environment _ => False

/-- A step of an honest node, or of its surroundings as far as these may change. -/
def Causal (sys : System B) (may : ConsensusWorker B → Environment B → Prop) (world : World B)
    (x : B.AuthorityId × Action B) : Prop :=
  sys.committee.Honest x.1 ∧ (sys.Prompted world x.2 ∨
    ∃ env, x.2 = .environment env ∧ may (world x.1).worker env)

/-- A run of the honest nodes alone makes them what they are in `world'`. -/
def Reaches (sys : System B) (may : ConsensusWorker B → Environment B → Prop)
    (world world' : World B) : Prop :=
  ∃ actions, Runs.Along (Runs.many Node.step) (sys.Causal may) world actions ∧
    ∀ i, sys.committee.Honest i → Runs.run (Runs.many Node.step) world actions i = world' i

theorem Prompted.mono {world world' : World B} {a : Action B} (prompted : sys.Prompted world a)
    (grows : ∀ j, sys.committee.Honest j → (world j).worker.trace ⊆ (world' j).worker.trace) :
    sys.Prompted world' a := by
  cases a with
  | timer | resume => trivial
  | environment => exact prompted
  | receive message =>
    obtain ⟨j, honest, m, said⟩ := prompted
    exact ⟨j, honest, m, grows j honest said⟩

theorem Reaches.refl (world : World B) : sys.Reaches may world world :=
  ⟨[], trivial, fun _ _ => rfl⟩

theorem Reaches.turns {origin world : World B} {schedule : B.AuthorityId → List (Action B)}
    (reaches : sys.Reaches may origin world)
    (causal : ∀ i, sys.committee.Honest i → ∀ before a, before ++ [a] <+: schedule i →
      ∀ world' : World B, world' i = Runs.run Node.step (world i) before →
      (∀ j, sys.committee.Honest j → (world j).worker.trace ⊆ (world' j).worker.trace) →
      sys.Causal may world' (i, a)) :
    sys.Reaches may origin (after world schedule) := by
  obtain ⟨actions, guarded, same⟩ := reaches
  let ids := (sys.committee.members \ sys.committee.faulty).toList
  have honest : ∀ {i}, i ∈ ids ↔ sys.committee.Honest i := by
    intro i
    rw [Finset.mem_toList, Finset.mem_sdiff]
    rfl
  let turns := ids.flatMap fun i => (schedule i).map fun a => (i, a)
  have own : ∀ {i}, sys.committee.Honest i → Runs.own i turns = schedule i := fun member =>
    Runs.own_flatMap schedule (Finset.nodup_toList _) (honest.mpr member)
  refine ⟨actions ++ turns, (Runs.along_append ..).mpr ⟨guarded, ?_⟩, fun i member => ?_⟩
  · refine (Runs.along_iff ..).mpr fun before x here => ?_
    obtain ⟨i, listed, inside⟩ := List.mem_flatMap.mp
      (here.subset (List.mem_append_right before List.mem_cons_self))
    obtain ⟨a, _, rfl⟩ := List.mem_map.mp inside
    have member := honest.mp listed
    have inside : Runs.own i before ++ [a] <+: schedule i := by
      have part := here.filterMap fun x => if x.1 = i then some x.2 else none
      rw [List.filterMap_append] at part
      simpa [← own member, Runs.own] using part
    refine causal i member _ a inside _ ?_ fun j other => ?_
    · rw [Runs.many_run, same i member]
    · rw [Runs.many_run, same j other]
      exact Node.run_trace _ _
  · rw [Runs.run_append, Runs.many_run, same i member, own member]
    rfl

theorem Reaches.phase {origin world : World B} {schedule : B.AuthorityId → List (Action B)}
    (reaches : sys.Reaches may origin world)
    (prompted : ∀ i, sys.committee.Honest i → ∀ a ∈ schedule i, sys.Prompted world a) :
    sys.Reaches may origin (after world schedule) := by
  refine reaches.turns fun i honest before a here world' _ grows => ⟨honest, .inl ?_⟩
  exact (prompted i honest a (here.subset (by simp))).mono grows

theorem Reaches.surroundings {origin world : World B} {env : B.AuthorityId → Environment B}
    (reaches : sys.Reaches may origin world)
    (allowed : ∀ i, sys.committee.Honest i → may (world i).worker (env i)) :
    sys.Reaches may origin (after world fun i => [.environment (env i)]) := by
  refine reaches.turns fun i honest before a here world' same _ => ⟨honest, .inr ?_⟩
  have short := here.length_le
  cases before with
  | nil =>
    cases (List.cons_prefix_cons.mp here).1
    refine ⟨env i, rfl, ?_⟩
    rw [show world' i = world i from same]
    exact allowed i honest
  | cons b rest => simp at short

theorem Ready.reaches {origin world : World B} {keys : B.AuthorityId → Keystore B}
    {clients : B.AuthorityId → Client B} {block : Payload B} {since : ViewNumber}
    {chain : List (Proposal B)} {p : Proposal B} {voters : List B.AuthorityId}
    (ready : sys.Ready keys clients block since chain p world)
    (offers : sys.Offers clients block chain p world)
    (enough : sys.Enough (sys.leader (p.view + 1)) voters)
    (author : sys.committee.Honest p.author) (told : Gossiped world p.author (.propose p))
    (sofar : sys.Reaches may origin world) :
    sys.Reaches may origin (after world (sys.round keys p voters)) := by
  have parts : after world (sys.round keys p voters) =
      after (after world fun i => [hearProposal p i]) fun i =>
        if i = sys.leader (p.view + 1) then .resume :: voters.map (hearVote keys p) else [] := by
    rw [after_after]
    rfl
  -- The proposal is heard by everybody before the leader hears the votes.
  rw [parts]
  refine (sofar.phase fun i _ a own => ?_).phase fun i _ a own => ?_
  · rw [List.mem_singleton.mp own, hearProposal]
    split
    · trivial
    · exact ⟨p.author, author, told⟩
  · split at own
    · rcases List.mem_cons.mp own with rfl | vote
      · trivial
      · obtain ⟨j, voter, rfl⟩ := List.mem_map.mp vote
        have other : j ≠ sys.leader (p.view + 1) :=
          fun same => (List.nodup_cons.mp enough.distinct).1 (same ▸ voter)
        exact ⟨j, enough.honest j voter, ready.hear_told offers (enough.honest j voter) other⟩
    · cases own

/-! ### Committing a block -/

/-- The rounds that commit the block of `p₀`. -/
def commitRounds (sys : System B) (keys : B.AuthorityId → Keystore B) (p₀ p₁ p₂ : Proposal B)
    (voters₁ voters₂ : List B.AuthorityId) (i : B.AuthorityId) : List (Action B) :=
  sys.round keys p₀ voters₁ i ++ (sys.round keys p₁ voters₂ i ++ [hearProposal p₂ i])

theorem spent_snoc {hashes : List B.Hash} {hash : B.Hash} (spent : Spent (hashes ++ [hash])) :
    hash = B.emptyPayloadHash ∧ ∃ older, hashes = older ++ [B.emptyPayloadHash] := by
  obtain ⟨older, same⟩ := spent
  rw [show older ++ [B.emptyPayloadHash, B.emptyPayloadHash] =
    (older ++ [B.emptyPayloadHash]) ++ [B.emptyPayloadHash] by simp] at same
  obtain ⟨before, last⟩ := List.append_inj' same rfl
  exact ⟨List.singleton_inj.mp last, older, before⟩

theorem digest_ne_of_view_lt (widths : FixedWidth B) (ideal : CollisionFree B) {p q : Proposal B}
    (earlier : p.view < q.view) : p.digest ≠ q.digest := by
  intro same
  rw [(Proposal.digest_injective widths ideal.injective same).2.2.1] at earlier
  exact UInt64.lt_irrefl _ earlier

/-- The messages that come in during `commitRounds` have been gossiped by their authors. -/
structure Backs (sys : System B) (keys : B.AuthorityId → Keystore B) (p₀ p₁ p₂ : Proposal B)
    (voters₁ voters₂ : List B.AuthorityId) (world : World B) : Prop where
  first : sys.committee.Honest p₁.author ∧ Gossiped world p₁.author (.propose p₁)
  second : sys.committee.Honest p₂.author ∧ Gossiped world p₂.author (.propose p₂)
  votes₁ : ∀ j ∈ voters₁, Gossiped world j (.vote ((keys j).vote j p₀))
  votes₂ : ∀ j ∈ voters₂, Gossiped world j (.vote ((keys j).vote j p₁))

/-- What two rounds after `p₀` need: honest leaders, and votes enough for a certificate. -/
structure Rounds (sys : System B) (view : ViewNumber) (voters₁ voters₂ : List B.AuthorityId) :
    Prop where
  several : 1 < sys.authorities.length
  room : view.toNat + 2 < UInt64.size
  first : sys.committee.Honest (sys.leader (view + 1))
  second : sys.committee.Honest (sys.leader (view + 1 + 1))
  enough₁ : sys.Enough (sys.leader (view + 1)) voters₁
  enough₂ : sys.Enough (sys.leader (view + 1 + 1)) voters₂

theorem Rounds.lt_first {view : ViewNumber} {voters₁ voters₂ : List B.AuthorityId}
    (rounds : sys.Rounds view voters₁ voters₂) : view < view + 1 :=
  lt_next (Nat.lt_of_succ_lt rounds.room)

theorem Rounds.lt_second {view : ViewNumber} {voters₁ voters₂ : List B.AuthorityId}
    (rounds : sys.Rounds view voters₁ voters₂) : view + 1 < view + 1 + 1 :=
  lt_next (by rw [toNat_next rounds.lt_first]; exact rounds.room)

/-- Two rounds on from `p₀`: all honest nodes are to hear `p₂`, which commits its block. -/
structure InRow (sys : System B) (keys : B.AuthorityId → Keystore B)
    (clients : B.AuthorityId → Client B) (p₀ p₁ p₂ : Proposal B)
    (voters₁ voters₂ : List B.AuthorityId) (world world' : World B) : Prop where
  one : Succeeds sys.authorities p₀ p₁
  two : Succeeds sys.authorities p₁ p₂
  valid : sys.Valid p₂
  ready : sys.Ready keys clients p₀.payload p₀.view [p₀, p₁] p₂ world'
  adopts : ∀ i, sys.committee.Honest i →
    (world' i).worker.state.moment.highQcAfter p₂.qc = p₂.qc
  keeps : ∀ i, sys.committee.Honest i → Node.Keeps [p₀, p₁] (world i) (world' i)
  backs : sys.Backs keys p₀ p₁ p₂ voters₁ voters₂ world'

section Committing

variable {keys : B.AuthorityId → Keystore B} {clients : B.AuthorityId → Client B}
  {world world' : World B} {p₀ p₁ p₂ : Proposal B} {voters₁ voters₂ : List B.AuthorityId}

theorem Ready.offers (ready : sys.Ready keys clients p₀.payload p₀.view [] p₀ world)
    (valid : sys.Valid p₀) (known : ∀ i, sys.committee.Honest i → (clients i).Knows p₀.payload)
    (room : p₀.view < p₀.view + 1) : sys.Offers clients p₀.payload [] p₀ world :=
  ⟨valid, .inl rfl, rfl, known, by simp,
    fun i honest => (ready i honest).follows.spares rfl (ready i honest).reopens room⟩

theorem Advances.offers
    (advances : sys.Advances keys clients p₀.payload p₀.view [] p₀ p₁ voters₁ world world')
    (nonempty : p₀.payload.blockHash ≠ B.emptyPayloadHash) (apart : p₀.digest ≠ p₁.digest)
    (room : p₀.view < p₀.view + 1) : sys.Offers clients p₀.payload [p₀] p₁ world' := by
  have succeeds := advances.succeeds
  refine ⟨.of_succeeds succeeds advances.author room, .inr ?_, ?_, fun i _ => .inl ?_, ?_,
    fun i honest => (advances.ready i honest).spares succeeds apart nonempty room⟩
  · rw [succeeds.payload]
  · rw [succeeds.payload]
  · rw [succeeds.payload]
  · simpa using apart

theorem Advances.due
    (advances : sys.Advances keys clients p₀.payload p₀.view [] p₀ p₁ voters₁ world world')
    (nonempty : p₀.payload.blockHash ≠ B.emptyPayloadHash)
    (rounds : sys.Rounds p₀.view voters₁ voters₂) :
    ¬ Spent ((world' (sys.leader (p₁.view + 1))).worker.proposalHashQueue ++
      [p₁.payload.blockHash]) := by
  -- The second leader is another one: its last two payloads are the block and an empty one.
  intro spent
  obtain ⟨_, older, before⟩ := spent_snoc spent
  rw [advances.succeeds.view, advances.hashes _ rounds.second
    (sys.leader_ne_next rounds.several rounds.lt_second).symm] at before
  exact nonempty (List.singleton_inj.mp (List.append_inj' before rfl).2)

theorem Advances.inRow {world'' : World B}
    (first : sys.Advances keys clients p₀.payload p₀.view [] p₀ p₁ voters₁ world world')
    (second : sys.Advances keys clients p₀.payload p₀.view [p₀] p₁ p₂ voters₂ world' world'')
    (rounds : sys.Rounds p₀.view voters₁ voters₂)
    (grows : ∀ i, (world' i).worker.trace ⊆ (world'' i).worker.trace) :
    sys.InRow keys clients p₀ p₁ p₂ voters₁ voters₂ world world'' := by
  have view₁ := first.succeeds.view
  refine ⟨first.succeeds, second.succeeds,
    .of_succeeds second.succeeds second.author (view₁ ▸ rounds.lt_second), second.ready,
    fun i honest => (second.turns i honest).adopts,
    fun i honest => (first.turns i honest).keeps.trans (second.turns i honest).keeps,
    ⟨first.author ▸ rounds.first, ?_⟩, ⟨?_, second.author ▸ second.told⟩, ?_, second.votes⟩
  · rw [first.author]
    exact first.told.imp fun _ said => grows _ said
  · rw [second.author, view₁]
    exact rounds.second
  · exact fun j hj => (first.votes j hj).imp fun _ said => grows _ said

theorem Ready.inRow (widths : FixedWidth B) (ideal : CollisionFree B)
    (ready : sys.Ready keys clients p₀.payload p₀.view [] p₀ world) (valid : sys.Valid p₀)
    (nonempty : p₀.payload.blockHash ≠ B.emptyPayloadHash)
    (known : ∀ i, sys.committee.Honest i → (clients i).Knows p₀.payload)
    (rounds : sys.Rounds p₀.view voters₁ voters₂) :
    ∃ p₁ p₂,
      let world' := after (after world (sys.round keys p₀ voters₁)) (sys.round keys p₁ voters₂)
      sys.InRow keys clients p₀ p₁ p₂ voters₁ voters₂ world world' ∧
      ∀ may origin, sys.Reaches may origin world → sys.committee.Honest p₀.author →
        Gossiped world p₀.author (.propose p₀) → sys.Reaches may origin world' := by
  have room := rounds.lt_first
  have offers := ready.offers valid known room
  obtain ⟨p₁, first⟩ := ready.round offers room rounds.first
    (fun spent => nonempty (spent_snoc spent).1) rounds.enough₁ rounds.several
  have view₁ := first.succeeds.view
  have offers₁ := first.offers nonempty (digest_ne_of_view_lt widths ideal (view₁ ▸ room)) room
  obtain ⟨p₂, second⟩ := first.ready.round offers₁ (view₁ ▸ rounds.lt_second)
    (view₁ ▸ rounds.second) (first.due nonempty rounds) (view₁ ▸ rounds.enough₂) rounds.several
  refine ⟨p₁, p₂, first.inRow second rounds fun i => Node.run_trace _ _, ?_⟩
  intro may origin sofar author told
  refine first.ready.reaches offers₁ (view₁ ▸ rounds.enough₂) (first.author ▸ rounds.first)
    (first.author ▸ first.told) ?_
  exact ready.reaches offers rounds.enough₁ author told sofar

theorem InRow.closes (row : sys.InRow keys clients p₀ p₁ p₂ voters₁ voters₂ world world')
    (widths : FixedWidth B) (ideal : CollisionFree B)
    (nonempty : p₀.payload.blockHash ≠ B.emptyPayloadHash)
    (rounds : sys.Rounds p₀.view voters₁ voters₂) {i : B.AuthorityId}
    (honest : sys.committee.Honest i) :
    Node.Closes sys.authorities i (keys i) (clients i) p₀.payload p₂ (world' i)
      ((world' i).step (hearProposal p₂ i)) := by
  have primed := row.ready i honest
  have earlier : p₀.view < p₁.view := row.one.view ▸ rounds.lt_first
  have later : p₁.view < p₂.view := by
    rw [row.two.view, row.one.view]
    exact rounds.lt_second
  exact primed.commits (row.valid.verifyProposal primed.follows.able.authorities)
    row.valid.past row.one row.two
    (digest_ne_of_view_lt widths ideal (UInt64.lt_trans earlier later))
    (digest_ne_of_view_lt widths ideal later) nonempty

end Committing

/-! ### Nodes at rest -/

/-- The part of the node `i` when the view ends: its timer fires, it handles its own timeout,
and those of its peers come in. -/
def viewChange (keys : B.AuthorityId → Keystore B) (highs : B.AuthorityId → QC B)
    (view : ViewNumber) (peers : B.AuthorityId → List B.AuthorityId) (i : B.AuthorityId) :
    List (Action B) :=
  .timer :: .resume :: (peers i).map (hearTimeout keys highs view)

end System

/-- The certificate is not older than the proposal it is for. -/
def QC.Dated (qc : QC B) : Prop := ∀ p : Proposal B, p.digest = qc.proposalHash → p.view ≤ qc.view

def Proposal.Linked (p : Proposal B) : Prop := p.qc.Dated ∧ p.qc.view < p.view

def Payload.info (block : Payload B) : BlockInfo B := ⟨some block.blockHash, block.blockNumber⟩

namespace System

/-- All honest nodes wait in `view`, and what they have stored is not newer. -/
structure Resting (sys : System B) (keys : B.AuthorityId → Keystore B)
    (highs : B.AuthorityId → QC B) (view : ViewNumber) (world : World B) : Prop where
  key : ∀ i, sys.committee.Honest i → (world i).worker.state.keystore = keys i
  high : ∀ i, sys.committee.Honest i → (world i).worker.state.highQc = highs i
  stalled : ∀ i, sys.committee.Honest i → (world i).Stalled sys.authorities i view
  tops : ∀ i, sys.committee.Honest i → (highs i).Dated
  older : ∀ i, sys.committee.Honest i → ∀ key q, (world i).worker.synchronizer.Stores key q →
    q.view ≤ view
  links : ∀ i, sys.committee.Honest i → ∀ key q, (world i).worker.synchronizer.Stores key q →
    q.Linked

/-- All honest nodes rest with the block at the front of their queues, and what has been proposed
for the block, if anything, has got no certificate that one of them holds. -/
structure Waiting (sys : System B) (keys : B.AuthorityId → Keystore B)
    (highs : B.AuthorityId → QC B) (clients : B.AuthorityId → Client B) (block : Payload B)
    (view : ViewNumber) (world : World B) : Prop
    extends System.Resting sys keys highs view world where
  follows : ∀ i, sys.committee.Honest i →
    (world i).worker.Follows sys.authorities i (clients i) block (view + 1) []
  front : ∀ i, sys.committee.Honest i → ∃ rest,
    (world i).worker.pendingFinalizeQueue = some (block.info :: rest)
  certified : ∀ i j, sys.committee.Honest i → sys.committee.Honest j → ∀ q,
    (world i).worker.synchronizer.Stores (highs j).proposalHash q →
    q.payload.blockHash ≠ block.blockHash

/-! ### Leaving a view -/

section ViewChange

variable {sys : System B} {may : ConsensusWorker B → Environment B → Prop}
  {keys : B.AuthorityId → Keystore B} {highs : B.AuthorityId → QC B}
  {clients : B.AuthorityId → Client B} {block : Payload B} {view : ViewNumber} {world : World B}
  {peers : B.AuthorityId → List B.AuthorityId} {i j : B.AuthorityId}

theorem Resting.high_lt (resting : sys.Resting keys highs view world)
    (honest : sys.committee.Honest i) : (highs i).view < view :=
  resting.high i honest ▸ (resting.stalled i honest).high

theorem Resting.ends (resting : sys.Resting keys highs view world)
    (honest : sys.committee.Honest j) :
    ((keys j).timeout j (highs j) view).Ends sys.authorities view := by
  rw [← resting.key j honest, ← resting.high j honest]
  exact (resting.stalled j honest).ends

theorem Resting.enters (resting : sys.Resting keys highs view world)
    (enough : sys.Enough i (peers i)) (several : 1 < sys.authorities.length)
    (honest : sys.committee.Honest i) (follower : i ≠ sys.leader (view + 1)) :
    let n := after world (viewChange keys highs view peers) i
    Enters ((world i).worker.timed view) view n.worker ∧ n.pending = none := by
  have stalled := resting.stalled i honest
  exact stalled.follows enough.distinct (fun j peer => resting.ends (enough.honest j peer))
    enough.size several ((sys.viewLeader_eq stalled.able.authorities _).symm ▸ follower)

theorem Waiting.opens (waiting : sys.Waiting keys highs clients block view world)
    (enough : sys.Enough i (peers i)) (several : 1 < sys.authorities.length)
    (honest : sys.committee.Honest i) (leader : i = sys.leader (view + 1)) :
    let n := after world (viewChange keys highs view peers) i
    Enters ((world i).worker.timed view) view n.worker ∧
      ∃ p, Opens ((world i).worker.timed view) sys.authorities i view block.info p ∧
        n.pending = some (.proposal p) ∧ ∃ m, (m, .gossip (.propose p)) ∈ n.worker.trace := by
  have stalled := waiting.stalled i honest
  obtain ⟨rest, queued⟩ := waiting.front i honest
  exact stalled.leads enough.distinct (fun j peer => waiting.ends (enough.honest j peer))
    enough.size several (leader.trans (sys.viewLeader_eq stalled.able.authorities _).symm) queued

theorem Waiting.valid (waiting : sys.Waiting keys highs clients block view world)
    (honest : sys.committee.Honest i) (leader : i = sys.leader (view + 1)) {p : Proposal B}
    (opens : Opens ((world i).worker.timed view) sys.authorities i view block.info p)
    (room : view < view + 1) : sys.Valid p ∧ p.qc = highs i := by
  have carries : p.qc = highs i := opens.carries.trans (waiting.high i honest)
  refine ⟨⟨by rw [opens.author, opens.view]; exact leader, opens.verified, ?_⟩, carries⟩
  rw [carries, opens.view]
  exact UInt64.lt_trans (waiting.high_lt honest) room

theorem Waiting.primed (waiting : sys.Waiting keys highs clients block view world)
    (honest : sys.committee.Honest i) (other : sys.committee.Honest j) {n : Node B}
    {p : Proposal B} (entered : Enters ((world i).worker.timed view) view n.worker)
    (pending : n.pending = if i = p.author then some (.proposal p) else none)
    (opened : p.view = view + 1) (carries : p.qc = highs j) (room : view < view + 1) :
    n.Primed sys.authorities i (keys i) (clients i) block (view + 1) [] p := by
  refine ⟨?_, entered.keeps (waiting.follows i honest), fun q stores => .inr ?_,
    entered.expects (waiting.stalled i honest) opened pending room⟩
  · obtain ⟨timeouts, state⟩ := entered.state
    rw [state]
    exact waiting.key i honest
  · rw [Proposal.parentHash, carries, entered.synchronizer] at stores
    exact waiting.certified i j honest other q stores

/-- Every honest node comes into the next view, and its leader proposes the block. -/
theorem Waiting.changes (waiting : sys.Waiting keys highs clients block view world)
    (room : view < view + 1) (leads : sys.committee.Honest (sys.leader (view + 1)))
    (enough : ∀ i, sys.committee.Honest i → sys.Enough i (peers i))
    (several : 1 < sys.authorities.length) :
    ∃ p, p.payload = block ∧ p.view = view + 1 ∧ sys.Valid p ∧
      p.qc = highs (sys.leader (view + 1)) ∧
      let world' := after world (viewChange keys highs view peers)
      sys.Ready keys clients block (view + 1) [] p world' ∧
      (∀ i, sys.committee.Honest i →
        Enters ((world i).worker.timed view) view (world' i).worker) ∧
      Gossiped world' (sys.leader (view + 1)) (.propose p) := by
  obtain ⟨entered, p, opens, pending, told⟩ := waiting.opens (enough _ leads) several leads rfl
  obtain ⟨valid, carries⟩ := waiting.valid leads rfl opens room
  have enters : ∀ {i}, sys.committee.Honest i →
      Enters ((world i).worker.timed view) view
        (after world (viewChange keys highs view peers) i).worker ∧
      (after world (viewChange keys highs view peers) i).pending =
        if i = p.author then some (.proposal p) else none := by
    intro i honest
    by_cases leading : i = sys.leader (view + 1)
    · subst leading
      exact ⟨entered, by rw [if_pos opens.author.symm]; exact pending⟩
    · obtain ⟨entered, idle⟩ := waiting.enters (enough i honest) several honest leading
      exact ⟨entered, by rw [if_neg (opens.author ▸ leading)]; exact idle⟩
  exact ⟨p, opens.payload, opens.view, valid, carries, fun i honest =>
    waiting.primed honest leads (enters honest).1 (enters honest).2 opens.view carries room,
    fun i honest => (enters honest).1, told⟩

theorem Resting.reaches {origin : World B} (resting : sys.Resting keys highs view world)
    (enough : ∀ i, sys.committee.Honest i → sys.Enough i (peers i))
    (sofar : sys.Reaches may origin world) :
    sys.Reaches may origin (after world (viewChange keys highs view peers)) := by
  have parts : after world (viewChange keys highs view peers) =
      after (after world fun _ => [.timer]) fun i =>
        .resume :: (peers i).map (hearTimeout keys highs view) := by
    rw [after_after]
    rfl
  -- All timers fire before the timeouts are heard.
  rw [parts]
  refine (sofar.phase fun i _ a own => ?_).phase fun i honest a own => ?_
  · rw [List.mem_singleton.mp own]
    trivial
  · rcases List.mem_cons.mp own with rfl | heard
    · trivial
    · obtain ⟨j, peer, rfl⟩ := List.mem_map.mp heard
      have other := (enough i honest).honest j peer
      obtain ⟨_, _, m, said⟩ := (resting.stalled j other).timer
      rw [resting.key j other, resting.high j other] at said
      exact ⟨j, other, m, said⟩

end ViewChange

end System

/-! ### Views that come to nothing -/

/-- What a node does for the block: its queue stays as it is, and the proposals that are new in
its store are for the block or empty. -/
structure Node.Attends (block : Payload B) (n n' : Node B) : Prop where
  queue : n'.worker.pendingFinalizeQueue = n.worker.pendingFinalizeQueue
  trace : n.worker.trace ⊆ n'.worker.trace
  stores : ∀ key q, n'.worker.synchronizer.Stores key q →
    n.worker.synchronizer.Stores key q ∨ q.Serves block

theorem Node.Attends.refl (block : Payload B) (n : Node B) : Node.Attends block n n :=
  ⟨rfl, List.Subset.refl _, fun _ _ => .inl⟩

theorem Node.Attends.trans {block : Payload B} {n n' n'' : Node B} (first : Node.Attends block n n')
    (second : Node.Attends block n' n'') : Node.Attends block n n'' := by
  refine ⟨second.queue.trans first.queue, List.Subset.trans first.trace second.trace, ?_⟩
  exact fun key q stores => (second.stores key q stores).elim (first.stores key q) .inr

namespace System

structure Passed (authorities : AuthorityList B) (id : B.AuthorityId) (client : Client B)
    (block : Payload B) (view : ViewNumber) (n n' : Node B) : Prop where
  keystore : n'.worker.state.keystore = n.worker.state.keystore
  high : n'.worker.state.highQc = n.worker.state.highQc
  queue : n'.worker.pendingFinalizeQueue = n.worker.pendingFinalizeQueue
  stalled : n'.Stalled authorities id (view + 1)
  follows : n'.worker.Follows authorities id client block (view + 1 + 1) []
  stores : ∀ key q, n'.worker.synchronizer.Stores key q → n.worker.synchronizer.Stores key q ∨
    key = q.digest ∧ q.view = view + 1 ∧ q.qc = n.worker.state.highQc ∧ q.payload = block

/-- The part of the node `i` in a view without a certificate: as in `viewChange`, and a leader
hears its own proposal. -/
def pass (sys : System B) (keys : B.AuthorityId → Keystore B) (highs : B.AuthorityId → QC B)
    (view : ViewNumber) (peers : B.AuthorityId → List B.AuthorityId) (i : B.AuthorityId) :
    List (Action B) :=
  viewChange keys highs view peers i ++ if i = sys.leader (view + 1) then [.resume] else []

section Passing

variable {sys : System B} {may : ConsensusWorker B → Environment B → Prop}
  {keys : B.AuthorityId → Keystore B} {highs : B.AuthorityId → QC B}
  {clients : B.AuthorityId → Client B} {block : Payload B} {view : ViewNumber}
  {origin world : World B} {peers : B.AuthorityId → List B.AuthorityId} {i : B.AuthorityId}

theorem Waiting.passed_follower (waiting : sys.Waiting keys highs clients block view world)
    (room : view < view + 1) (room' : view + 1 < view + 1 + 1)
    (enough : sys.Enough i (peers i)) (several : 1 < sys.authorities.length)
    (honest : sys.committee.Honest i) (follower : i ≠ sys.leader (view + 1)) :
    Passed sys.authorities i (clients i) block view (world i)
      (after world (sys.pass keys highs view peers) i) := by
  obtain ⟨entered, idle⟩ := waiting.enters enough several honest follower
  have own : after world (sys.pass keys highs view peers) i =
      after world (viewChange keys highs view peers) i := by
    rw [after, pass, if_neg follower, List.append_nil]
    rfl
  obtain ⟨timeouts, state⟩ := entered.state
  rw [own]
  refine ⟨by rw [state]; rfl, by rw [state]; rfl, entered.queue,
    entered.stalled (waiting.stalled i honest) idle room,
    (entered.keeps (waiting.follows i honest)).later room', fun key q stores => .inl ?_⟩
  exact entered.synchronizer ▸ stores

theorem Resting.childless (resting : sys.Resting keys highs view world)
    (honest : sys.committee.Honest i) {p : Proposal B} (opened : p.view = view + 1)
    (carries : p.qc = highs i) (room : view < view + 1) :
    ((world i).worker.synchronizer.saved p).Childless p.digest := by
  have codec := (resting.stalled i honest).able.codec p
  have newer : view < p.view := opened ▸ room
  refine Synchronizer.Childless.saved codec (fun key q stores above => ?_) fun again => ?_
  · obtain ⟨dated, past⟩ := resting.links i honest key q stores
    have older := UInt64.lt_of_lt_of_le (UInt64.lt_of_le_of_lt (dated p above.symm) past)
      (resting.older i honest key q stores)
    exact UInt64.lt_irrefl _ (UInt64.lt_trans older newer)
  · rw [Proposal.parentHash, carries] at again
    have older := UInt64.lt_of_le_of_lt (resting.tops i honest p again.symm)
      (resting.high_lt honest)
    exact UInt64.lt_irrefl _ (UInt64.lt_trans older newer)

theorem Waiting.passed_leader (waiting : sys.Waiting keys highs clients block view world)
    (room : view < view + 1) (room' : view + 1 < view + 1 + 1) (known : (clients i).Knows block)
    (enough : sys.Enough i (peers i)) (several : 1 < sys.authorities.length)
    (honest : sys.committee.Honest i) (leader : i = sys.leader (view + 1)) :
    Passed sys.authorities i (clients i) block view (world i)
      (after world (sys.pass keys highs view peers) i) := by
  have stalled := waiting.stalled i honest
  obtain ⟨entered, p, opens, pending, _⟩ := waiting.opens enough several honest leader
  obtain ⟨valid, carries⟩ := waiting.valid honest leader opens room
  have payload : p.payload = block := opens.payload
  obtain ⟨_, follows, reopens, expects⟩ := waiting.primed honest honest entered
    (by rw [if_pos opens.author.symm]; exact pending) opens.view carries room
  obtain ⟨r, hears, stepped⟩ := expects.hears follows.able
    (follows.answers.knows (payload ▸ known)) (valid.verifyProposal follows.able.authorities)
    valid.past
  -- The vote goes to the leader of the view after, which is not this node.
  have idle : Outcome.next r = none := by
    rw [hears.next, if_neg]
    intro again
    rw [show i = sys.leader (p.view + 1) from
      again.trans (sys.viewLeader_eq follows.able.authorities _), opens.view] at leader
    exact sys.leader_ne_next several room' leader.symm
  have own : after world (sys.pass keys highs view peers) i = ⟨r.1, Outcome.next r⟩ := by
    rw [← stepped, hearProposal, if_pos opens.author.symm, after, pass, if_pos leader,
      Runs.run_snoc]
    rfl
  have childless := waiting.childless honest opens.view carries room
  rw [← show _ = (world i).worker.synchronizer from entered.synchronizer] at childless
  obtain ⟨timeouts, state⟩ := entered.state
  rw [own]
  refine ⟨by rw [hears.state, emit_state, state]; rfl, hears.high entered opens,
    hears.queue.trans entered.queue, hears.stalled entered stalled opens idle room,
    follows.abandons hears opens.view (.inl (by rw [payload])) reopens room' childless, ?_⟩
  intro key q stores
  rw [hears.synchronizer] at stores
  rcases stores.of_saved (follows.able.codec p) with ⟨rfl, rfl⟩ | old
  · exact .inr ⟨rfl, opens.view, opens.carries, payload⟩
  · exact .inl (entered.synchronizer ▸ old)

theorem Waiting.passed (waiting : sys.Waiting keys highs clients block view world)
    (fits : view.toNat + 2 < UInt64.size) (known : (clients i).Knows block)
    (enough : sys.Enough i (peers i)) (several : 1 < sys.authorities.length)
    (honest : sys.committee.Honest i) :
    Passed sys.authorities i (clients i) block view (world i)
      (after world (sys.pass keys highs view peers) i) := by
  have room : view < view + 1 := lt_next (by omega)
  have room' : view + 1 < view + 1 + 1 := lt_next (by rw [toNat_next room]; exact fits)
  by_cases leader : i = sys.leader (view + 1)
  · exact waiting.passed_leader room room' known enough several honest leader
  · exact waiting.passed_follower room room' enough several honest leader

theorem Waiting.next (waiting : sys.Waiting keys highs clients block view world) {world' : World B}
    (room : view < view + 1) (passed : ∀ i, sys.committee.Honest i →
      Passed sys.authorities i (clients i) block view (world i) (world' i)) :
    sys.Waiting keys highs clients block (view + 1) world' := by
  refine ⟨⟨fun i honest => ?_, fun i honest => ?_, fun i honest => (passed i honest).stalled,
    waiting.tops, ?_, ?_⟩, fun i honest => (passed i honest).follows, fun i honest => ?_, ?_⟩
  · rw [(passed i honest).keystore]
    exact waiting.key i honest
  · rw [(passed i honest).high]
    exact waiting.high i honest
  · intro i honest key q stores
    rcases (passed i honest).stores key q stores with old | ⟨_, made, _⟩
    · exact UInt64.le_trans (waiting.older i honest key q old) (UInt64.le_of_lt room)
    · exact UInt64.le_of_eq made
  · intro i honest key q stores
    rcases (passed i honest).stores key q stores with old | ⟨_, made, base, _⟩
    · exact waiting.links i honest key q old
    · rw [Proposal.Linked, base, waiting.high i honest, made]
      exact ⟨waiting.tops i honest, UInt64.lt_trans (waiting.high_lt honest) room⟩
  · rw [(passed i honest).queue]
    exact waiting.front i honest
  · intro i j honest other q stores
    rcases (passed i honest).stores _ q stores with old | ⟨digest, made, _⟩
    · exact waiting.certified i j honest other q old
    · have older := UInt64.lt_of_le_of_lt (waiting.tops j other q digest.symm)
        (waiting.high_lt other)
      rw [made] at older
      exact absurd (UInt64.lt_trans room older) (UInt64.lt_irrefl _)

theorem Waiting.passes (waiting : sys.Waiting keys highs clients block view world)
    (fits : view.toNat + 2 < UInt64.size)
    (known : ∀ i, sys.committee.Honest i → (clients i).Knows block)
    (enough : ∀ i, sys.committee.Honest i → sys.Enough i (peers i))
    (several : 1 < sys.authorities.length) (sofar : sys.Reaches may origin world) :
    let world' := after world (sys.pass keys highs view peers)
    sys.Reaches may origin world' ∧ sys.Waiting keys highs clients block (view + 1) world' ∧
      ∀ i, sys.committee.Honest i → Node.Attends block (world i) (world' i) := by
  intro world'
  have passed := fun i (honest : sys.committee.Honest i) =>
    waiting.passed fits (known i honest) (enough i honest) several honest
  refine ⟨?_, waiting.next (lt_next (by omega)) passed, fun i honest => ?_⟩
  · rw [show world' = after (after world (viewChange keys highs view peers)) _ from
      (after_after ..).symm]
    refine (waiting.reaches enough sofar).phase fun i _ a own => ?_
    split at own
    · rw [List.mem_singleton.mp own]
      trivial
    · cases own
  · refine ⟨(passed i honest).queue, Node.run_trace _ _, fun key q stores => ?_⟩
    refine ((passed i honest).stores key q stores).imp_right fun made => .inl ?_
    rw [made.2.2.2]

theorem Waiting.waits (waiting : sys.Waiting keys highs clients block view world)
    (known : ∀ i, sys.committee.Honest i → (clients i).Knows block)
    (enough : ∀ i, sys.committee.Honest i → sys.Enough i (peers i))
    (several : 1 < sys.authorities.length) (sofar : sys.Reaches may origin world)
    {target : ViewNumber} (later : view ≤ target) (fits : target.toNat + 1 < UInt64.size) :
    ∃ world', sys.Reaches may origin world' ∧
      sys.Waiting keys highs clients block target world' ∧
      ∀ i, sys.committee.Honest i → Node.Attends block (world i) (world' i) := by
  obtain ⟨k, distance⟩ := Nat.exists_eq_add_of_le (UInt64.le_iff_toNat_le.mp later)
  induction k generalizing target with
  | zero =>
    cases UInt64.toNat.inj distance
    exact ⟨world, sofar, waiting, fun i _ => .refl block (world i)⟩
  | succ k ih =>
    have before : (UInt64.ofNat (view.toNat + k)).toNat = view.toNat + k :=
      UInt64.toNat_ofNat_of_lt (by omega)
    have next : UInt64.ofNat (view.toNat + k) + 1 = target := by
      apply UInt64.toNat.inj
      rw [toNat_next (lt_next (by omega)), before, distance]
      rfl
    obtain ⟨world', reached, waits, attends⟩ :=
      ih (UInt64.le_iff_toNat_le.mpr (by omega)) (by omega) before
    obtain ⟨reached, waits, attends'⟩ := waits.passes (by omega) known enough several reached
    exact ⟨_, reached, next ▸ waits, fun i honest => (attends i honest).trans (attends' i honest)⟩

end Passing

end System

end Hotstuff
