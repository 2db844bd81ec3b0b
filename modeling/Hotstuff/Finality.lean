import Hotstuff.History
import Hotstuff.Symbolic

/-! The store of proposals and the commit rule. -/
namespace Hotstuff

variable {B : BlockT}

open ConsensusWorker

def Synchronizer.Holds (s : Synchronizer B) (p : Proposal B) : Prop :=
  ∃ data, s.store.aux p.digest = some data ∧ s.decode data = .ok p

theorem getProposalParent_ok {s : Synchronizer B} {p parent : Proposal B}
    (found : s.getProposalParent p = .ok parent) :
    ∃ data, s.store.aux p.parentHash = some data ∧ s.decode data = .ok parent := by
  unfold Synchronizer.getProposalParent at found
  split at found
  · cases found
  · cases found
  · rename_i data read
    split at found
    · cases found
    · rename_i decoded
      cases found
      refine ⟨data, ?_, decoded⟩
      unfold Store.get at read
      split at read
      · cases read
      · exact Except.ok.inj read

theorem getProposalAncestors_ok {s : Synchronizer B} {p parent grandpa : Proposal B}
    (found : s.getProposalAncestors p = .ok (parent, grandpa)) :
    s.getProposalParent p = .ok parent ∧ s.getProposalParent parent = .ok grandpa := by
  unfold Synchronizer.getProposalAncestors at found
  split at found
  · cases found
  · rename_i first
    split at found
    · cases found
    · rename_i second
      cases found
      exact ⟨first, second⟩

/-- Every value of the store decodes to a proposal of that digest the node has verified. -/
def StoreInv (g : Setup B) (w : ConsensusWorker B) : Prop :=
  ∀ key data, w.synchronizer.store.aux key = some data → ∃ p m,
    g.synchronizer.decode data = .ok p ∧ p.digest = key ∧ (m, .verified p) ∈ w.trace

namespace StoreInv

variable {g : Setup B} {w₀ w w' : ConsensusWorker B} {c : Call B}

theorem frame (inv : StoreInv g w) (same : w'.synchronizer = w.synchronizer)
    (grown : w.trace ⊆ w'.trace) : StoreInv g w' := by
  intro key data stored
  rw [same] at stored
  obtain ⟨p, m, decoded, digest, seen⟩ := inv key data stored
  exact ⟨p, m, decoded, digest, grown seen⟩

/-- Saving a verified proposal; `SCALE` decodes what it has encoded. -/
theorem save (inv₀ : StoreInv g w₀) (grown : w₀.trace ⊆ w.trace)
    (base₀ : Base g w₀) (codec : ∀ p, g.synchronizer.decode (g.synchronizer.encode p) = .ok p)
    {p : Proposal B} {m : Moment B} (seen : (m, .verified p) ∈ w.trace) {s : Synchronizer B}
    (saved : w₀.synchronizer.saveProposal p = .ok s) :
    StoreInv g { w with synchronizer := s } := by
  intro key data stored
  rw [saveProposal_codec saved] at stored
  by_cases here : key = p.digest
  · subst here
    simp only [Function.update_self, Option.some.injEq] at stored
    refine ⟨p, m, ?_, rfl, seen⟩
    rw [← stored, base₀.encode]
    exact codec p
  · simp only [Function.update_of_ne here] at stored
    obtain ⟨q, m', decoded, digest, known⟩ := inv₀ key data stored
    exact ⟨q, m', decoded, digest, grown known⟩

theorem move (codec : ∀ p, g.synchronizer.decode (g.synchronizer.encode p) = .ok p)
    (during : During g w₀ c w) (inv₀ : StoreInv g w₀) (inv : StoreInv g w)
    (move : Move w₀ c w w') : StoreInv g w' := by
  have grown := move.trace_prefix.subset
  cases move with
  | note | scratch | addVote | addTimeout | voteFails | proposalTc | canFinalize | finalize
  | timedOut | propose | timer | vote | receivedTc => exact inv.frame rfl grown
  | formedTc t tc => exact inv.frame (by split <;> rfl) grown
  | verified | timeoutQc | collected => exact inv.frame (by simp) grown
  | save p s called seen saved =>
    exact save inv₀ during.grown.subset during.base₀ codec seen saved

end StoreInv

/-- What the call `c` has found when it has asked to finalize the block `hash`. -/
def Committed (c : Call B) (w₀ w : ConsensusWorker B) (hash : B.Hash) : Prop :=
  ∃ q p grandpa m, c = .proposal q ∧ (m, .verified q) ∈ w.trace ∧
    w₀.synchronizer.saveProposal q = .ok w.synchronizer ∧
    w.synchronizer.getProposalAncestors q = .ok (p, grandpa) ∧ p.view = grandpa.view + 1 ∧
    grandpa.payload.blockHash = hash ∧ hash ≠ B.emptyPayloadHash

def Finalizing (c : Call B) (w₀ w : ConsensusWorker B) : Prop :=
  ∃ new, w.trace = w₀.trace ++ new ∧
    ∀ m hash, (m, .finalizeBlock hash) ∈ new → Committed c w₀ w hash

namespace Finalizing

variable {w₀ w w' : ConsensusWorker B} {c : Call B}

theorem extend (fin : Finalizing c w₀ w) (more : List (Moment B × Event B))
    (trace : w'.trace = w.trace ++ more) (same : w'.synchronizer = w.synchronizer)
    (new : ∀ m hash, (m, .finalizeBlock hash) ∈ more → Committed c w₀ w' hash) :
    Finalizing c w₀ w' := by
  obtain ⟨sofar, grown, committed⟩ := fin
  refine ⟨sofar ++ more, by rw [trace, grown, List.append_assoc], ?_⟩
  intro m hash entry
  rcases List.mem_append.mp entry with old | added
  · obtain ⟨q, p, grandpa, m', called, seen, saved, found, rest⟩ := committed m hash old
    rw [← same] at saved found
    exact ⟨q, p, grandpa, m', called, trace ▸ List.mem_append_left _ seen, saved, found, rest⟩
  · exact new m hash added

theorem emit (fin : Finalizing c w₀ w) (e : Event B) (other : ∀ hash, e ≠ .finalizeBlock hash) :
    Finalizing c w₀ (w.emit e) := by
  refine fin.extend [(w.state.moment, e)] rfl rfl ?_
  intro m hash entry
  exact absurd (congrArg Prod.snd (List.mem_singleton.mp entry)).symm (other hash)

theorem frame (fin : Finalizing c w₀ w) (trace : w'.trace = w.trace)
    (same : w'.synchronizer = w.synchronizer) : Finalizing c w₀ w' :=
  fin.extend [] (by simp [trace]) same (by simp)

theorem handleQc (fin : Finalizing c w₀ w) (qc : QC B) : Finalizing c w₀ (w.handleQc qc) := by
  refine fin.extend _ (handleQc_trace w qc) (handleQc_synchronizer w qc) ?_
  intro m hash entry
  split at entry <;> simp at entry

theorem move (fin : Finalizing c w₀ w) (move : Move w₀ c w w') : Finalizing c w₀ w' := by
  cases move with
  | note e quiet =>
    refine fin.emit e ?_
    rintro hash rfl
    cases quiet
  | scratch | addVote | addTimeout | voteFails | proposalTc => exact fin.frame rfl rfl
  | canFinalize | timedOut | propose => exact fin.emit _ (by simp)
  | timer | vote => exact fin.extend [(_, _)] rfl rfl (by simp)
  | receivedTc tc => exact (fin.emit (.acceptTc tc) (by simp)).frame rfl rfl
  | formedTc t tc =>
    have noted := fin.emit (.acceptTc tc) (by simp)
    split
    · exact noted.frame rfl rfl
    · exact noted
  | verified p => exact (fin.emit (.verified p) (by simp)).handleQc p.qc
  | timeoutQc t => exact fin.handleQc t.highQc
  | collected v qc => exact (fin.emit (.collected qc) (by simp)).handleQc qc
  | finalize p parent grandpa called seen saved found consecutive nonempty =>
    refine fin.extend [(_, .finalizeBlock grandpa.payload.blockHash)] rfl rfl ?_
    intro m' hash entry
    cases List.mem_singleton.mp entry
    exact ⟨p, parent, grandpa, _, called, List.mem_append_left _ seen, saved, found, consecutive,
      rfl, nonempty⟩
  | save p s called seen saved =>
    obtain ⟨new, grown, committed⟩ := fin
    refine ⟨new, grown, fun m' hash entry => ?_⟩
    obtain ⟨q, parent, grandpa, m'', called', seen', saved', found, rest⟩ := committed m' hash entry
    -- The call saves one proposal only, so saving it once more changes nothing.
    cases called.symm.trans called'
    have same : s = w.synchronizer := Except.ok.inj (saved.symm.trans saved')
    subst same
    exact ⟨p, parent, grandpa, m'', called, seen', saved', found, rest⟩

end Finalizing

theorem handle_finalizing (w : ConsensusWorker B) (c : Call B) : Finalizing c w (w.handle c).1 :=
  handle_induction (Finalizing c w) ⟨[], by simp, by simp⟩ fun _ _ fin move => fin.move move

theorem Node.step_finalizing (n : Node B) (a : Action B) {m : Moment B} {hash : B.Hash}
    (entry : (m, .finalizeBlock hash) ∈ (n.step a).worker.trace.drop n.worker.trace.length) :
    ∃ c, n.entered a = some c ∧
      Committed c (n.worker.emit (.handled c)) (n.step a).worker hash := by
  cases entered : n.entered a with
  | none =>
    have same : (n.step a).worker.trace = n.worker.trace := by
      obtain ⟨env, seen⟩ := Node.step_not_entered entered
      rw [seen]
      rfl
    rw [same, List.drop_length] at entry
    cases entry
  | some c =>
    rw [Node.step_entered entered] at entry ⊢
    obtain ⟨new, grown, committed⟩ := handle_finalizing (n.worker.emit (.handled c)) c
    have whole : (n.enter c).worker.trace = n.worker.trace ++ (n.worker.state.moment, .handled c) ::
        new := grown.trans (List.append_assoc _ [_] new)
    rw [whole, List.drop_left] at entry
    rcases List.mem_cons.mp entry with mark | later
    · cases mark
    · exact ⟨c, rfl, committed m hash later⟩

/-- The chain `grandpa`, `p`, `q` behind a request to finalize a block, in the worker that has
made it. -/
structure FinalizedBy (g : Setup B) (w : ConsensusWorker B) (hash : B.Hash)
    (grandpa p q : Proposal B) : Prop where
  grandpaStored : w.synchronizer.Holds grandpa
  parentStored : w.synchronizer.Holds p
  block : grandpa.payload.blockHash = hash
  nonempty : hash ≠ B.emptyPayloadHash
  grandpaLink : p.qc.proposalHash = grandpa.digest
  parentLink : q.qc.proposalHash = p.digest
  /-- `+` on views wraps, so after the last view comes view 0 here. -/
  consecutive : p.view = grandpa.view + 1
  rises : grandpa.view.toNat + 1 < UInt64.size → p.view.toNat = grandpa.view.toNat + 1
  passed : ∀ x ∈ [grandpa, p, q], (∃ m, (m, .verified x) ∈ w.trace) ∧
    g.start.worker.state.verifyProposal x = .ok ()
  grandpaCertified : p.qc.verify g.authorities = .ok ()
  parentCertified : q.qc.verify g.authorities = .ok ()

section Sound

variable {g : Setup B} {w : ConsensusWorker B}

theorem StoreInv.parent (inv : StoreInv g w) (base : Base g w) {p parent : Proposal B}
    (found : w.synchronizer.getProposalParent p = .ok parent) :
    p.qc.proposalHash = parent.digest ∧ w.synchronizer.Holds parent ∧
      ∃ m, (m, .verified parent) ∈ w.trace := by
  obtain ⟨data, stored, decoded⟩ := getProposalParent_ok found
  obtain ⟨q, m, again, digest, seen⟩ := inv _ data stored
  rw [← base.decode, decoded] at again
  cases again
  exact ⟨digest.symm, ⟨data, digest ▸ stored, decoded⟩, m, seen⟩

/-- A certificate for a digest is not the default one, so it was checked. -/
theorem verified_certificate {p : Proposal B} {data : List B.Byte}
    (nonzero : ∀ data, B.hashOf data ≠ B.defaultHash)
    (passed : g.start.worker.state.verifyProposal p = .ok ())
    (link : p.qc.proposalHash = B.hashOf data) : p.qc.verify g.authorities = .ok () := by
  have checked := ((ConsensusState.verifyProposal_ok _ p).mp passed).2
  rw [Proposal.verify_ok] at checked
  rcases checked.2 with default | valid
  · exact absurd (link.symm.trans (p.qc.eq_default.mp default).1) (nonzero data)
  · exact valid

theorem Committed.finalizedBy {c : Call B} {w₀ : ConsensusWorker B} {hash : B.Hash}
    (nonzero : ∀ data, B.hashOf data ≠ B.defaultHash) (inv : StoreInv g w) (base : Base g w)
    (passed : ∀ m p, (m, .verified p) ∈ w.trace → g.start.worker.state.verifyProposal p = .ok ())
    (committed : Committed c w₀ w hash) :
    ∃ grandpa p q, c = .proposal q ∧ FinalizedBy g w hash grandpa p q := by
  obtain ⟨q, p, grandpa, m, called, seen, _, found, consecutive, block, nonempty⟩ := committed
  obtain ⟨first, second⟩ := getProposalAncestors_ok found
  obtain ⟨parentLink, parentStored, m', parentSeen⟩ := inv.parent base first
  obtain ⟨grandpaLink, grandpaStored, m'', grandpaSeen⟩ := inv.parent base second
  refine ⟨grandpa, p, q, called, grandpaStored, parentStored, block, nonempty, grandpaLink,
    parentLink, consecutive, fun below => ?_, ?_, ?_, ?_⟩
  · rw [consecutive, UInt64.toNat_add]
    exact Nat.mod_eq_of_lt below
  · simp only [List.forall_mem_cons]
    exact ⟨⟨⟨m'', grandpaSeen⟩, passed _ _ grandpaSeen⟩,
      ⟨⟨m', parentSeen⟩, passed _ _ parentSeen⟩, ⟨⟨m, seen⟩, passed _ _ seen⟩,
      List.forall_mem_nil _⟩
  · exact verified_certificate nonzero (passed _ _ parentSeen) grandpaLink
  · exact verified_certificate nonzero (passed _ _ seen) parentLink

end Sound

theorem storeInv (g : Setup B)
    (codec : ∀ p, g.synchronizer.decode (g.synchronizer.encode p) = .ok p)
    (fresh : ∀ key, g.synchronizer.store.aux key = none) : Invariant g (StoreInv g) where
  start key _ stored := absurd ((fresh key).symm.trans stored) nofun
  observe _ _ inv := inv
  enter _ _ inv := inv.frame rfl (List.subset_append_left _ _)
  move _ _ _ _ during inv₀ inv move := inv₀.move codec during inv move

def Chained (trace : List (Moment B × Event B)) : Event B → Prop
  | .canFinalize q p grandpa => p.qc.proposalHash = grandpa.digest ∧
      q.qc.proposalHash = p.digest ∧ p.view = grandpa.view + 1 ∧
      (∃ m, (m, .verified p) ∈ trace) ∧ ∃ m, (m, .verified q) ∈ trace
  | _ => True

theorem Chained.append {trace : List (Moment B × Event B)} {e : Event B}
    (new : List (Moment B × Event B)) (chained : Chained trace e) : Chained (trace ++ new) e := by
  cases e with
  | canFinalize q p grandpa =>
    obtain ⟨grandpaLink, parentLink, consecutive, ⟨m, parent⟩, m', seen⟩ := chained
    exact ⟨grandpaLink, parentLink, consecutive, ⟨m, List.mem_append_left _ parent⟩, m',
      List.mem_append_left _ seen⟩
  | _ => trivial

theorem canFinalize_chained (g : Setup B)
    (codec : ∀ p, g.synchronizer.decode (g.synchronizer.encode p) = .ok p)
    (fresh : ∀ key, g.synchronizer.store.aux key = none) : Invariant g fun w =>
      StoreInv g w ∧ ∀ m e, (m, e) ∈ w.trace → Chained w.trace e := by
  refine (storeInv g codec fresh).entries (fun trace _ e => Chained trace e)
    (fun _ new _ _ known => known.append new) (fun _ _ _ => trivial) ?_
  intro w₀ c w new m e during inv _ cause
  cases e with
  | canFinalize q p grandpa =>
    obtain ⟨_, seen, found, consecutive⟩ := cause
    obtain ⟨first, second⟩ := getProposalAncestors_ok found
    obtain ⟨parentLink, _, parent⟩ := inv.parent during.base first
    have sofar : Chained w.trace (.canFinalize q p grandpa) :=
      ⟨(inv.parent during.base second).1, parentLink, consecutive, parent, _, seen⟩
    exact sofar.append new
  | _ => trivial

/-- What an action of a run asks to finalize is the payload of the grandparent of the proposal
it handles, by two certificates for consecutive views over proposals in the store. -/
theorem finalization_sound (g : Setup B)
    (codec : ∀ p, g.synchronizer.decode (g.synchronizer.encode p) = .ok p)
    (nonzero : ∀ data, B.hashOf data ≠ B.defaultHash)
    (fresh : ∀ key, g.synchronizer.store.aux key = none)
    (actions : List (Action B)) (a : Action B) :
    (∀ key data, (g.run actions).worker.synchronizer.store.aux key = some data →
      ∃ p, g.synchronizer.decode data = .ok p ∧ p.digest = key) ∧
    ∀ m hash, (m, .finalizeBlock hash) ∈
        (g.run (actions ++ [a])).worker.trace.drop (g.run actions).worker.trace.length →
      ∃ grandpa p q, (g.run actions).entered a = some (.proposal q) ∧
        FinalizedBy g (g.run (actions ++ [a])).worker hash grandpa p q := by
  have inv := ((storeInv g codec fresh).run actions).2
  obtain ⟨base, inv'⟩ := (storeInv g codec fresh).run (actions ++ [a])
  have passed : ∀ m p, (m, .verified p) ∈ (g.run (actions ++ [a])).worker.trace →
      g.start.worker.state.verifyProposal p = .ok () :=
    fun m p seen => (((recorded g).run (actions ++ [a])).2.2 m _ seen).1
  refine ⟨?_, ?_⟩
  · intro key data stored
    obtain ⟨p, m, decoded, digest, _⟩ := inv key data stored
    exact ⟨p, decoded, digest⟩
  · intro m hash entry
    rw [g.run_snoc] at entry base inv' passed ⊢
    obtain ⟨c, entered, committed⟩ := (g.run actions).step_finalizing a entry
    obtain ⟨grandpa, p, q, rfl, finalized⟩ := committed.finalizedBy nonzero inv' base passed
    exact ⟨grandpa, p, q, entered, finalized⟩

/- A node on its own finalizes the block of its first proposal when it handles its third. -/
theorem finalization_sound_alone :
    let g := Symbolic.setup 0 0
    let actions := .timer :: List.replicate 5 .resume ++ [.timer, .resume]
    (∃ x ∈ (g.run (actions ++ [.resume])).worker.trace.drop (g.run actions).worker.trace.length,
      x.2 = .finalizeBlock (.leaf 7)) ∧
    ∀ m hash, (m, .finalizeBlock hash) ∈
        (g.run (actions ++ [.resume])).worker.trace.drop (g.run actions).worker.trace.length →
      ∃ grandpa p q, (g.run actions).entered .resume = some (.proposal q) ∧
        FinalizedBy g (g.run (actions ++ [.resume])).worker hash grandpa p q :=
  ⟨by decide +kernel, (finalization_sound _ Symbolic.decode_encode
    symbolic_collisionFree.ne_default (fun _ => rfl) _ _).2⟩

end Hotstuff
