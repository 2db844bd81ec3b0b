import Hotstuff.Aggregator

/-! `ConsensusState` of `consensus.rs`: the core that decides, without the network. -/
namespace Hotstuff

variable {B : BlockT}

structure Keystore (B : BlockT) where
  hasKeys : B.AuthorityId → Bool
  signWith : B.AuthorityId → B.Hash → Except String (Option B.AuthoritySignature)

/-- `nonempty` is what the genesis check of `authorities.rs` enforces before a worker is
built; without it the leader's index would be a remainder by zero. -/
structure ConsensusState (B : BlockT) where
  keystore : Keystore B
  authorities : AuthorityList B
  view : ViewNumber
  lastVotedView : ViewNumber
  highQc : QC B
  aggregator : Aggregator B
  nonempty : 0 < authorities.length

namespace ConsensusState

def new (keystore : Keystore B) (authorities : AuthorityList B)
    (nonempty : 0 < authorities.length) : ConsensusState B where
  keystore := keystore
  authorities := authorities
  view := 0
  lastVotedView := 0
  highQc := QC.default
  aggregator := Aggregator.new
  nonempty := nonempty

def localAuthorityId (s : ConsensusState B) : Option B.AuthorityId :=
  (s.authorities.find? fun a => s.keystore.hasKeys a.1).map Prod.fst

def increaseLastVotedView (s : ConsensusState B) : ConsensusState B :=
  { s with lastVotedView := max s.lastVotedView s.view }

/-- `sign_with(..).map_err(Other)?`: a keystore without the key answers `None`. -/
def sign (s : ConsensusState B) (id : B.AuthorityId) (digest : B.Hash) :
    Except (HotstuffError B) (Option B.AuthoritySignature) :=
  match s.keystore.signWith id digest with
  | .error e => .error (.other e)
  | .ok signature => .ok signature

def makeTimeout (s : ConsensusState B) : Except (HotstuffError B) (Timeout B) :=
  match s.localAuthorityId with
  | none => .error .notAuthority
  | some id =>
    let t : Timeout B := ⟨s.highQc, s.view, id, none⟩
    match s.sign id t.digest with
    | .error e => .error e
    | .ok signature => .ok { t with signature := signature }

def makeProposal (s : ConsensusState B) (payload : Payload B) (tc : Option (TC B)) :
    Except (HotstuffError B) (Proposal B) :=
  match s.localAuthorityId with
  | none => .error .notAuthority
  | some id =>
    let p : Proposal B := ⟨s.highQc, tc, payload, s.view, id, none⟩
    match s.sign id p.digest with
    | .error e => .error e
    | .ok signature => .ok { p with signature := signature }

/- The view is taken before signing, so a failed signature still uses it up. Neither
`highQc` nor the TC of the proposal is read. -/
def makeVote (s : ConsensusState B) (p : Proposal B) : ConsensusState B × Option (Vote B) :=
  match s.localAuthorityId with
  | none => (s, none)
  | some id =>
    if p.view ≤ s.lastVotedView then (s, none)
    else
      let s := { s with lastVotedView := max s.lastVotedView p.view }
      let v : Vote B := ⟨p.digest, p.view, id, none⟩
      match s.sign id v.digest with
      | .error _ => (s, none)
      | .ok signature => (s, some { v with signature := signature })

def viewLeader (s : ConsensusState B) (view : ViewNumber) : B.AuthorityId :=
  (s.authorities.get ⟨view.toNat % s.authorities.length, Nat.mod_lt _ s.nonempty⟩).1

def isLeader (s : ConsensusState B) : Bool :=
  match s.localAuthorityId with
  | some id => id = s.viewLeader s.view
  | none => false

def verifyTimeout (s : ConsensusState B) (t : Timeout B) : Except (HotstuffError B) Unit :=
  t.verify s.authorities

def verifyProposal (s : ConsensusState B) (p : Proposal B) : Except (HotstuffError B) Unit :=
  if p.author = s.viewLeader p.view then p.verify s.authorities else .error .wrongProposer

def verifyVote (s : ConsensusState B) (v : Vote B) : Except (HotstuffError B) Unit :=
  if v.view < s.view then .error .expiredVote else v.verify s.authorities

def verifyTc (s : ConsensusState B) (tc : TC B) : Except (HotstuffError B) Unit :=
  if tc.view < s.view then .error .invalidTC else tc.verify s.authorities

def addTimeout (s : ConsensusState B) (t : Timeout B) :
    ConsensusState B × Except (HotstuffError B) (Option (TC B)) :=
  let r := s.aggregator.addTimeout t s.authorities
  ({ s with aggregator := r.1 }, r.2)

def addVote (s : ConsensusState B) (v : Vote B) :
    ConsensusState B × Except (HotstuffError B) (Option (QC B)) :=
  let r := s.aggregator.addVote v s.authorities
  ({ s with aggregator := r.1 }, r.2)

def updateHighQc (s : ConsensusState B) (qc : QC B) : ConsensusState B :=
  if s.highQc.view < qc.view then { s with highQc := qc } else s

/- The comparison is the source's: a target above the view moves nothing, one below it
moves the view back. -/
def advanceViewFromTarget (s : ConsensusState B) (view : ViewNumber) : ConsensusState B :=
  if view ≤ s.view then { s with view := view + 1 } else s

/-! ### Spec lemmas -/

theorem increaseLastVotedView_le (s : ConsensusState B) :
    s.lastVotedView ≤ s.increaseLastVotedView.lastVotedView ∧
      s.view ≤ s.increaseLastVotedView.lastVotedView := by
  change (_ ≤ if _ then _ else _) ∧ (_ ≤ if _ then _ else _)
  split
  · rename_i above; exact ⟨above, UInt64.le_refl _⟩
  · rename_i above; exact ⟨UInt64.le_refl _, UInt64.le_of_lt (UInt64.not_le.mp above)⟩

theorem updateHighQc_le (s : ConsensusState B) (qc : QC B) :
    (s.updateHighQc qc).lastVotedView = s.lastVotedView ∧
      s.highQc.view ≤ (s.updateHighQc qc).highQc.view := by
  unfold updateHighQc
  split
  · rename_i higher; exact ⟨rfl, UInt64.le_of_lt higher⟩
  · exact ⟨rfl, UInt64.le_refl _⟩

/- The choice of a leader and the check of a proposal read nothing but the authorities. -/
theorem viewLeader_congr {s s' : ConsensusState B} (same : s.authorities = s'.authorities)
    (view : ViewNumber) : s.viewLeader view = s'.viewLeader view := by
  cases s
  cases s'
  dsimp only at same
  subst same
  rfl

theorem verifyProposal_congr {s s' : ConsensusState B} (same : s.authorities = s'.authorities)
    (p : Proposal B) : s.verifyProposal p = s'.verifyProposal p := by
  unfold verifyProposal
  rw [viewLeader_congr same, same]

theorem verifyProposal_ok (s : ConsensusState B) (p : Proposal B) :
    s.verifyProposal p = .ok () ↔
      p.author = s.viewLeader p.view ∧ p.verify s.authorities = .ok () := by
  unfold verifyProposal
  split <;> simp_all

theorem verifyVote_ok (s : ConsensusState B) (v : Vote B) :
    s.verifyVote v = .ok () ↔ s.view ≤ v.view ∧ v.verify s.authorities = .ok () := by
  unfold verifyVote
  split
  · rename_i stale
    constructor
    · intro h; cases h
    · exact fun h => absurd stale (UInt64.not_lt.mpr h.1)
  · rename_i fresh
    exact ⟨fun h => ⟨UInt64.not_lt.mp fresh, h⟩, fun h => h.2⟩

theorem verifyTc_ok (s : ConsensusState B) (tc : TC B) :
    s.verifyTc tc = .ok () ↔ s.view ≤ tc.view ∧ tc.verify s.authorities = .ok () := by
  unfold verifyTc
  split
  · rename_i stale
    constructor
    · intro h; cases h
    · exact fun h => absurd stale (UInt64.not_lt.mpr h.1)
  · rename_i fresh
    exact ⟨fun h => ⟨UInt64.not_lt.mp fresh, h⟩, fun h => h.2⟩

/-- A vote takes a view above every earlier one, and names the proposal it was asked for. -/
theorem makeVote_some {s s' : ConsensusState B} {p : Proposal B} {v : Vote B}
    (made : s.makeVote p = (s', some v)) :
    s' = { s with lastVotedView := p.view } ∧ s.lastVotedView < p.view ∧
      v.proposalHash = p.digest ∧ v.view = p.view ∧ s.localAuthorityId = some v.voter := by
  unfold makeVote at made
  split at made
  · cases made
  · rename_i id hid
    split at made
    · cases made
    · rename_i later
      have above : s.lastVotedView < p.view := UInt64.not_le.mp later
      have raised : max s.lastVotedView p.view = p.view := if_pos (UInt64.le_of_lt above)
      dsimp only at made
      split at made
      · cases made
      · cases made
        exact ⟨by rw [raised], above, rfl, rfl, hid⟩

theorem makeVote_iff (s : ConsensusState B) (p : Proposal B) :
    (∃ s' v, s.makeVote p = (s', some v)) ↔ s.lastVotedView < p.view ∧
      ∃ id signature, s.localAuthorityId = some id ∧
        s.keystore.signWith id (B.hashOf (voteData p.digest p.view)) = .ok signature := by
  unfold makeVote
  cases hid : s.localAuthorityId with
  | none => simp
  | some id =>
    dsimp only
    split
    · rename_i spent
      have stuck : ¬ s.lastVotedView < p.view := UInt64.not_lt.mpr spent
      simp [stuck]
    · rename_i later
      have above : s.lastVotedView < p.view := UInt64.not_le.mp later
      simp only [sign, Vote.digest, above, true_and, Option.some.injEq]
      cases answer : s.keystore.signWith id (B.hashOf (voteData p.digest p.view)) <;> simp [answer]

/-- Without a vote nothing but the last voted view can have moved, and only upwards. -/
theorem makeVote_none {s s' : ConsensusState B} {p : Proposal B}
    (made : s.makeVote p = (s', none)) :
    s' = s ∨ s.lastVotedView < p.view ∧ s' = { s with lastVotedView := p.view } := by
  unfold makeVote at made
  split at made
  · cases made; exact .inl rfl
  · split at made
    · cases made; exact .inl rfl
    · rename_i later
      have above : s.lastVotedView < p.view := UInt64.not_le.mp later
      have raised : max s.lastVotedView p.view = p.view := if_pos (UInt64.le_of_lt above)
      dsimp only at made
      split at made
      · cases made
        exact .inr ⟨above, by rw [raised]⟩
      · cases made

theorem makeProposal_ok {s : ConsensusState B} {payload : Payload B} {tc : Option (TC B)}
    {p : Proposal B} (made : s.makeProposal payload tc = .ok p) :
    p.qc = s.highQc ∧ p.tc = tc ∧ p.payload = payload ∧ p.view = s.view ∧
      s.localAuthorityId = some p.author := by
  unfold makeProposal at made
  split at made
  · cases made
  · rename_i id hid
    dsimp only at made
    split at made
    · cases made
    · cases made
      exact ⟨rfl, rfl, rfl, rfl, hid⟩

theorem makeTimeout_ok {s : ConsensusState B} {t : Timeout B} (made : s.makeTimeout = .ok t) :
    t.highQc = s.highQc ∧ t.view = s.view ∧ s.localAuthorityId = some t.voter := by
  unfold makeTimeout at made
  split at made
  · cases made
  · rename_i id hid
    dsimp only at made
    split at made
    · cases made
    · cases made
      exact ⟨rfl, rfl, hid⟩

end ConsensusState

end Hotstuff
