import Hotstuff.Evidence
import Hotstuff.Lib.Consensus
import Hotstuff.Symbolic

/-! All nodes together. Messages may be lost, doubled and reordered, and faulty authorities
may send anything; what they cannot do is sign for an honest authority. -/
namespace Hotstuff

variable {B : BlockT}

/-- Distinct authorities, less than a third of them faulty, and the node each key runs. -/
structure System (B : BlockT) where
  authorities : AuthorityList B
  distinct : authorities.ids.Nodup
  faulty : Finset B.AuthorityId
  few : 3 * (authorities.ids.toFinset ∩ faulty).card < authorities.length
  node : B.AuthorityId → Setup B
  shared : ∀ i, (node i).authorities = authorities

abbrev World (B : BlockT) := B.AuthorityId → Node B

def Call.signatures : Call B → List B.AuthoritySignature
  | .localTimer => []
  | .timeout t => t.signature.toList ++ t.highQc.votes.map Prod.snd
  | .proposal p => p.signature.toList ++ p.qc.votes.map Prod.snd ++
      p.tc.toList.flatMap fun tc => tc.votes.map fun v => v.2.1
  | .vote v => v.signature.toList
  | .tc c => c.votes.map fun v => v.2.1

def Event.Signs (digest : B.Hash) : Event B → Prop
  | .voted _ v => v.digest = digest
  | .timedOut t => t.digest = digest
  | .proposed p => p.digest = digest
  | _ => False

instance (digest : B.Hash) : DecidablePred (Event.Signs digest) := fun e => by
  cases e <;> unfold Event.Signs <;> infer_instance

def Node.Signed (n : Node B) (digest : B.Hash) : Prop :=
  ∃ x ∈ n.worker.trace, x.2.Signs digest

instance (n : Node B) (digest : B.Hash) : Decidable (n.Signed digest) :=
  inferInstanceAs (Decidable (∃ x ∈ n.worker.trace, x.2.Signs digest))

namespace System

variable (sys : System B)

def start : World B := fun i => (sys.node i).start

def run (actions : List (B.AuthorityId × Action B)) : World B :=
  Runs.run (Runs.many Node.step) sys.start actions

theorem members_card : sys.authorities.ids.toFinset.card = sys.authorities.length := by
  rw [List.toFinset_card_of_nodup sys.distinct, AuthorityList.ids, List.length_map]

def committee : Consensus.Committee B.AuthorityId where
  members := sys.authorities.ids.toFinset
  faulty := sys.faulty
  few := sys.members_card ▸ sys.few

/-- As far as the signature is one of an honest authority, that authority has made it. -/
def Backed (world : World B) (signature : B.AuthoritySignature) : Prop :=
  ∀ j digest, sys.committee.Honest j → B.verify signature digest j = true →
    (world j).Signed digest

def Unforged (world : World B) (x : B.AuthorityId × Action B) : Prop :=
  x.1 ∉ sys.faulty → ∀ c, (world x.1).entered x.2 = some c → ∀ s ∈ c.signatures,
    sys.Backed world s

/-- The runs that unforgeable signatures leave. -/
def Lawful (actions : List (B.AuthorityId × Action B)) : Prop :=
  Runs.Along (Runs.many Node.step) sys.Unforged sys.start actions

/-! ### Whole runs -/

theorem run_node (actions : List (B.AuthorityId × Action B)) (i : B.AuthorityId) :
    sys.run actions i = (sys.node i).run (Runs.own i actions) :=
  Runs.many_run Node.step sys.start actions i

theorem trace_grows (world : World B) (x : B.AuthorityId × Action B) (i : B.AuthorityId) :
    (world i).worker.trace <+: (Runs.many Node.step world x i).worker.trace := by
  unfold Runs.many
  by_cases moved : i = x.1
  · subst moved
    rw [Function.update_self]
    exact Node.step_trace _ x.2
  · exact ⟨[], by rw [Function.update_of_ne moved, List.append_nil]⟩

theorem Backed.step {world : World B} {s : B.AuthoritySignature} (backed : sys.Backed world s)
    (x : B.AuthorityId × Action B) : sys.Backed (Runs.many Node.step world x) s := by
  intro j digest honest valid
  obtain ⟨y, entry, signs⟩ := backed j digest honest valid
  exact ⟨y, (trace_grows world x j).subset entry, signs⟩

theorem step_entries {world : World B} {x : B.AuthorityId × Action B} {i : B.AuthorityId}
    {m : Moment B} {e : Event B} (entry : (m, e) ∈ (Runs.many Node.step world x i).worker.trace) :
    (m, e) ∈ (world i).worker.trace ∨ x.1 = i ∧ ∃ c, (world i).entered x.2 = some c ∧
      (m = (world i).worker.state.moment ∧ e = .handled c ∨
        ∃ w, Cause ((world i).worker.emit (.handled c)) c w m e) := by
  unfold Runs.many at entry
  by_cases moved : i = x.1
  · subst moved
    rw [Function.update_self] at entry
    exact (Node.step_entries entry).imp_right fun made => ⟨rfl, made⟩
  · rw [Function.update_of_ne moved] at entry
    exact .inl entry

/-- What holds of the entries a step makes, and lasts, holds of all entries of a guarded run. -/
theorem entries_along {allowed : World B → B.AuthorityId × Action B → Prop}
    (Φ : World B → B.AuthorityId → Moment B → Event B → Prop)
    (lasts : ∀ world x i m e, Φ world i m e → Φ (Runs.many Node.step world x) i m e)
    (made : ∀ world x c m e, allowed world x → (world x.1).entered x.2 = some c →
      (e = .handled c ∨ ∃ w, Cause ((world x.1).worker.emit (.handled c)) c w m e) →
      Φ (Runs.many Node.step world x) x.1 m e)
    {actions : List (B.AuthorityId × Action B)}
    (guarded : Runs.Along (Runs.many Node.step) allowed sys.start actions) :
    ∀ i m e, (m, e) ∈ (sys.run actions i).worker.trace → Φ (sys.run actions) i m e := by
  have keep : ∀ (world : World B) (x : B.AuthorityId × Action B),
      (∀ i m e, (m, e) ∈ (world i).worker.trace → Φ world i m e) → allowed world x →
      ∀ i m e, (m, e) ∈ (Runs.many Node.step world x i).worker.trace →
        Φ (Runs.many Node.step world x) i m e := by
    intro world x sofar allows i m e entry
    rcases step_entries entry with old | ⟨rfl, c, entered, cause⟩
    · exact lasts world x i m e (sofar i m e old)
    · exact made world x c m e allows entered (cause.imp_left And.right)
  exact Runs.invariant_along (Runs.many Node.step) keep
    (fun _ _ _ entry => absurd entry List.not_mem_nil) guarded

theorem handled_backed {actions : List (B.AuthorityId × Action B)} (lawful : sys.Lawful actions)
    {i : B.AuthorityId} (honest : i ∉ sys.faulty) {c : Call B}
    (handled : Handled (sys.run actions i).worker.trace c) :
    ∀ s ∈ c.signatures, sys.Backed (sys.run actions) s := by
  obtain ⟨m, entry⟩ := handled
  refine sys.entries_along (fun world i _ e => i ∉ sys.faulty → ∀ c, e = .handled c →
    ∀ s ∈ c.signatures, sys.Backed world s) ?_ ?_ lawful i m _ entry honest c rfl
  · intro world x i _ e sofar honest c same s hs
    exact (sofar honest c same s hs).step sys x
  · rintro world x c _ e unforged entered (mark | ⟨_, cause⟩) honest c' rfl s hs
    · cases mark
      exact (unforged honest c entered s hs).step sys x
    · cases cause

theorem recorded (actions : List (B.AuthorityId × Action B)) (i : B.AuthorityId) :
    Chronicle (sys.run actions i).worker ∧
      ∀ m e, (m, e) ∈ (sys.run actions i).worker.trace →
        Recorded (sys.node i) (sys.run actions i).worker.trace m e := by
  rw [run_node]
  exact ((Hotstuff.recorded (sys.node i)).run _).2

theorem authorities_run (actions : List (B.AuthorityId × Action B)) (i : B.AuthorityId) :
    (sys.run actions i).worker.state.authorities = sys.authorities := by
  rw [run_node, ← sys.shared i]
  exact ((Hotstuff.recorded (sys.node i)).run _).1.authorities

/-! ### The votes of a run -/

def Voted (actions : List (B.AuthorityId × Action B)) (i : B.AuthorityId) (p : Proposal B) :
    Prop :=
  ∃ m v, (m, .voted p v) ∈ (sys.run actions i).worker.trace

section Votes

variable (widths : FixedWidth B) (ideal : CollisionFree B)
  (actions : List (B.AuthorityId × Action B))

def votes : Consensus.Votes sys.committee (Proposal B) B.Hash where
  voted := sys.Voted actions
  key := Proposal.digest
  view p := p.view.toNat
  parent := Proposal.parentHash
  base p := p.qc.view.toNat
  root := B.defaultHash
  key_view _ _ same :=
    congrArg UInt64.toNat (Proposal.digest_injective widths ideal.injective same).2.2.1
  key_parent _ _ same := (Proposal.digest_injective widths ideal.injective same).2.2.2
  key_ne_root _ := ideal.ne_default _
  positive := by
    rintro i p _ ⟨m, v, voted⟩
    obtain ⟨_, m', _, adopts⟩ := (sys.recorded actions i).2 m _ voted
    have above := UInt64.lt_iff_toNat_lt.mp adopts.fresh
    omega
  one_vote := by
    rintro i p q _ ⟨m, v, voted⟩ ⟨m', v', voted'⟩ same
    obtain ⟨history, entries⟩ := sys.recorded actions i
    obtain ⟨lawful, _, _, adopts⟩ := entries m _ voted
    obtain ⟨lawful', _, _, adopts'⟩ := entries m' _ voted'
    have same := UInt64.toNat_inj.mp same
    -- Of two votes in order the later one is above the view of the earlier one.
    rcases history.total voted voted' with equal | before | before
    · cases equal
      rfl
    · have above := before.2.2 q v' rfl
      rw [adopts.lastVotedView, lawful'.view, same] at above
      exact absurd above (UInt64.lt_irrefl _)
    · have above := before.2.2 p v rfl
      rw [adopts'.lastVotedView, lawful.view, same] at above
      exact absurd above (UInt64.lt_irrefl _)

variable {actions}

include widths ideal in
theorem signed_vote {i : B.AuthorityId} {hash : B.Hash} {view : ViewNumber}
    (signed : (sys.run actions i).Signed (B.hashOf (voteData hash view))) :
    ∃ m p v, (m, .voted p v) ∈ (sys.run actions i).worker.trace ∧ p.digest = hash ∧
      p.view = view := by
  obtain ⟨⟨m, e⟩, entry, signs⟩ := signed
  cases e with
  | voted p v =>
    obtain ⟨lawful, _⟩ := (sys.recorded actions i).2 m _ entry
    obtain ⟨hash, view⟩ := voteData_injective widths (ideal.injective signs)
    exact ⟨m, p, v, entry, lawful.hash ▸ hash, lawful.view ▸ view⟩
  | timedOut t => exact absurd signs (timeoutData_hash_ne widths ideal.injective _ _ _ _)
  | proposed p => exact absurd signs (p.digest_ne_voteData widths ideal.injective _ _)
  | _ => cases signs

include widths ideal in
theorem signed_timeout {i : B.AuthorityId} {view high : ViewNumber}
    (signed : (sys.run actions i).Signed (B.hashOf (timeoutData view high))) :
    ∃ m t, (m, .timedOut t) ∈ (sys.run actions i).worker.trace ∧ t.view = view ∧
      t.highQc.view = high := by
  obtain ⟨⟨m, e⟩, entry, signs⟩ := signed
  cases e with
  | timedOut t =>
    obtain ⟨view, high⟩ := timeoutData_injective widths (ideal.injective signs)
    exact ⟨m, t, entry, view, high⟩
  | voted p v => exact absurd signs.symm (timeoutData_hash_ne widths ideal.injective _ _ _ _)
  | proposed p => exact absurd signs (p.digest_ne_timeoutData widths ideal.injective _ _)
  | _ => cases signs

theorem quorum_of_ids {ids : List B.AuthorityId} (distinct : ids.Nodup)
    (many : sys.authorities.length * 2 / 3 < ids.length)
    (members : ∀ id ∈ ids, id ∈ sys.authorities.ids) : sys.committee.Quorum ids.toFinset := by
  refine ⟨fun id hid => ?_, ?_⟩
  · exact List.mem_toFinset.mpr (members id (List.mem_toFinset.mp hid))
  · change sys.authorities.ids.toFinset.card * 2 / 3 < _
    rwa [sys.members_card, List.toFinset_card_of_nodup distinct]

theorem certified_of_verified {qc : QC B} (verified : qc.verify sys.authorities = .ok ())
    (members : ∀ x ∈ qc.votes, x.1 ∈ sys.authorities.ids)
    (backed : ∀ x ∈ qc.votes, sys.Backed (sys.run actions) x.2) :
    (sys.votes widths ideal actions).Certified qc.proposalHash qc.view.toNat := by
  obtain ⟨distinct, many, valid⟩ := (qc.verify_ok sys.authorities).mp verified
  refine ⟨(qc.votes.map Prod.fst).toFinset, ?_, fun i hi honest => ?_⟩
  · refine sys.quorum_of_ids distinct (by rwa [List.length_map]) ?_
    exact List.forall_mem_map.mpr members
  · obtain ⟨x, hx, rfl⟩ := List.mem_map.mp (List.mem_toFinset.mp hi)
    have signed := backed x hx x.1 qc.digest honest (valid x hx)
    obtain ⟨m, p, v, voted, hash, view⟩ := sys.signed_vote widths ideal signed
    exact ⟨p, ⟨m, v, voted⟩, hash, congrArg UInt64.toNat view⟩

variable (lawful : sys.Lawful actions) {i : B.AuthorityId} (honest : i ∉ sys.faulty)
include lawful honest

theorem collected_certified {m : Moment B} {qc : QC B}
    (collected : (m, .collected qc) ∈ (sys.run actions i).worker.trace) :
    (sys.votes widths ideal actions).Certified qc.proposalHash qc.view.toNat := by
  have known : Collected sys.authorities (sys.run actions i).worker.trace (.collected qc) := by
    rw [run_node] at collected ⊢
    rw [← sys.shared i]
    exact ((collected_votes (sys.node i)).run _).2.2 m _ collected
  -- The votes behind the certificate were handled, and their senders are authorities.
  refine sys.certified_of_verified widths ideal known.1 ?_ ?_
  · intro x hx
    obtain ⟨v, _, verified, _, _, voter, _⟩ := known.2 x hx
    exact voter ▸ ((v.verify_ok _).mp verified).1
  · intro x hx
    obtain ⟨v, handled, _, _, _, _, signed⟩ := known.2 x hx
    exact sys.handled_backed lawful honest handled x.2 (by simp [Call.signatures, signed])

end Votes

end System

/-! ### Symbolic systems -/

namespace Symbolic

def system (n : Nat) (faulty : Finset Nat)
    (few : 3 * ((authorities (n + 1)).ids.toFinset ∩ faulty).card < n + 1) : System symbolic where
  authorities := authorities (n + 1)
  distinct := by simp [authorities, AuthorityList.ids, Function.comp_def, List.nodup_range]
  faulty := faulty
  few := by simpa [authorities] using few
  node := setup n
  shared _ := rfl

/-- A symbolic signature names its signer and message, so forgeries are found by looking. -/
def Genuine (sys : System symbolic) (world : World symbolic) (x : Nat × Action symbolic) : Prop :=
  x.1 ∉ sys.faulty → ∀ c ∈ (world x.1).entered x.2, ∀ s ∈ c.signatures,
    s.1 ∈ sys.authorities.ids → s.1 ∉ sys.faulty → (world s.1).Signed s.2

instance (sys : System symbolic) (world : World symbolic) (x : Nat × Action symbolic) :
    Decidable (Genuine sys world x) :=
  inferInstanceAs (Decidable (_ → ∀ c ∈ (world x.1).entered x.2, ∀ s ∈ c.signatures,
    s.1 ∈ sys.authorities.ids → s.1 ∉ sys.faulty → (world s.1).Signed s.2))

theorem lawful {sys : System symbolic} {actions : List (Nat × Action symbolic)}
    (genuine : Runs.Along (Runs.many Node.step) (Genuine sys) sys.start actions) :
    sys.Lawful actions := by
  refine genuine.imp (Runs.many Node.step) ?_
  intro world x genuine honest c entered s hs j digest authority valid
  have made := (symbolic_verify s digest j).mp valid
  subst made
  exact genuine honest c entered _ hs (List.mem_toFinset.mp authority.1) authority.2

/-- A vote round under a faulty leader: the three others vote for its proposal, and the
leader of the next view collects their votes. -/
def round : Proposal symbolic × List (Nat × Action symbolic) :=
  let p := signProposal ⟨QC.default, none, ⟨.leaf 7, 1⟩, 1, 1, none⟩
  let vote := fun a => signVote ⟨p.digest, 1, a, none⟩
  (p, [(0, .receive (.propose p)), (2, .receive (.propose p)), (3, .receive (.propose p)),
    (2, .resume), (2, .receive (.vote (vote 0))), (2, .receive (.vote (vote 3)))])

end Symbolic

/-- The certificates that honest nodes collect in one view are for one proposal, one of that
view, and some honest authority has voted for it. -/
theorem collected_qc_unique (sys : System B) (widths : FixedWidth B) (ideal : CollisionFree B)
    (actions : List (B.AuthorityId × Action B)) (lawful : sys.Lawful actions)
    (i j : B.AuthorityId) (hi : i ∉ sys.faulty) (hj : j ∉ sys.faulty) (m m' : Moment B)
    (q q' : QC B) (one : (m, .collected q) ∈ (sys.run actions i).worker.trace)
    (other : (m', .collected q') ∈ (sys.run actions j).worker.trace) :
    (q.view = q'.view → q.proposalHash = q'.proposalHash) ∧
    (∀ p : Proposal B, p.digest = q.proposalHash → q.view = p.view) ∧
    ∃ k p m v, k ∈ sys.authorities.ids ∧ k ∉ sys.faulty ∧ p.digest = q.proposalHash ∧
      (m, .voted p v) ∈ (sys.run actions k).worker.trace := by
  have certified := sys.collected_certified widths ideal lawful hi one
  have certified' := sys.collected_certified widths ideal lawful hj other
  obtain ⟨k, p, honest, ⟨m, v, voted⟩, hash, view⟩ := certified.voter
  refine ⟨?_, ?_, k, p, m, v, List.mem_toFinset.mp honest.1, honest.2, hash, voted⟩
  · intro same
    rw [same] at certified
    exact certified.unique certified'
  · intro p' hash'
    have same := (Proposal.digest_injective widths ideal.injective (hash'.trans hash.symm)).2.2.1
    rw [same]
    exact (UInt64.toNat_inj.mp view).symm

theorem collected_qc_unique_round :
    let sys := Symbolic.system 3 {1} (by decide)
    let q := Symbolic.certificate [2, 0, 3] Symbolic.round.1.digest 1
    sys.Lawful Symbolic.round.2 ∧ 2 ∉ sys.faulty ∧
      (⟨1, 1, QC.default⟩, .collected q) ∈ (sys.run Symbolic.round.2 2).worker.trace ∧
      ∀ p : Proposal symbolic, p.digest = q.proposalHash → q.view = p.view := by
  have collected : (⟨1, 1, QC.default⟩,
      .collected (Symbolic.certificate [2, 0, 3] Symbolic.round.1.digest 1)) ∈
      ((Symbolic.system 3 {1} (by decide)).run Symbolic.round.2 2).worker.trace := by
    decide +kernel
  have lawful : (Symbolic.system 3 {1} (by decide)).Lawful Symbolic.round.2 :=
    Symbolic.lawful (by decide +kernel)
  have honest : 2 ∉ (Symbolic.system 3 {1} (by decide)).faulty := by decide
  exact ⟨lawful, honest, collected, (collected_qc_unique _ symbolic_fixedWidth
    symbolic_collisionFree _ lawful 2 2 honest honest _ _ _ _ collected collected).2.1⟩

end Hotstuff
