import Hotstuff.Symbolic
import Hotstuff.Certificate
import Mathlib.Data.Finset.Card

/-! What a signature is good for: which certificates it adds up to, and for which messages it
counts. -/
namespace Hotstuff

variable {B : BlockT}

/-! ### Quorums -/

structure SoundQuorum (authorities : AuthorityList B)
    (ballots : List (B.AuthorityId × B.AuthoritySignature × B.Hash)) : Prop where
  distinct : (ballots.map Prod.fst).Nodup
  members : ∀ x ∈ ballots, x.1 ∈ authorities.ids
  many : authorities.length * 2 / 3 < ballots.length
  valid : ∀ x ∈ ballots, B.verify x.2.1 x.2.2 x.1 = true

/-- More than two thirds of the authorities stand behind the ballots. -/
def TwoThirds (authorities : AuthorityList B)
    (ballots : List (B.AuthorityId × B.AuthoritySignature × B.Hash)) : Prop :=
  2 * authorities.length <
    3 * (authorities.ids.toFinset ∩ (ballots.map Prod.fst).toFinset).card

/-- No signer is from outside, unless the ballots fail for another reason. -/
def OutsidersFail (authorities : AuthorityList B)
    (ballots : List (B.AuthorityId × B.AuthoritySignature × B.Hash)) : Prop :=
  (∀ x ∈ ballots, x.1 ∈ authorities.ids) ∨ ¬ (ballots.map Prod.fst).Nodup ∨
    ballots.length ≤ authorities.length * 2 / 3 ∨
    ∃ x ∈ ballots, B.verify x.2.1 x.2.2 x.1 = false

section Quorum

variable {authorities : AuthorityList B}
  {ballots : List (B.AuthorityId × B.AuthoritySignature × B.Hash)}

theorem SoundQuorum.twoThirds (sound : SoundQuorum authorities ballots) :
    TwoThirds authorities ballots := by
  have inside : (ballots.map Prod.fst).toFinset ⊆ authorities.ids.toFinset := by
    intro id hid
    obtain ⟨x, hx, rfl⟩ := List.mem_map.mp (List.mem_toFinset.mp hid)
    exact List.mem_toFinset.mpr (sound.members x hx)
  have many := sound.many
  rw [TwoThirds, Finset.inter_eq_right.mpr inside, List.toFinset_card_of_nodup sound.distinct,
    List.length_map]
  omega

theorem verifyQuorum_sound_iff : verifyQuorum authorities ballots = .ok () →
    (SoundQuorum authorities ballots ↔ ∀ x ∈ ballots, x.1 ∈ authorities.ids) := by
  rw [verifyQuorum_ok]
  rintro ⟨distinct, many, valid⟩
  exact ⟨SoundQuorum.members, fun members => ⟨distinct, members, many, valid⟩⟩

theorem outsidersFail_iff : OutsidersFail authorities ballots ↔
    (verifyQuorum authorities ballots = .ok () → ∀ x ∈ ballots, x.1 ∈ authorities.ids) := by
  rw [verifyQuorum_ok]
  constructor
  · rintro (members | again | few | ⟨x, hx, invalid⟩) ⟨distinct, many, valid⟩
    · exact members
    · exact absurd distinct again
    · omega
    · rw [valid x hx] at invalid
      cases invalid
  · intro members
    by_contra fails
    simp only [OutsidersFail, not_or, not_not, not_exists, not_and, Bool.not_eq_false,
      Nat.not_le] at fails
    exact fails.1 (members ⟨fails.2.1, fails.2.2.1, fails.2.2.2⟩)

/-- The checks made are the four of a sound quorum exactly if outsiders fail. -/
theorem verifyQuorum_exact :
    (verifyQuorum authorities ballots = .ok () ↔ SoundQuorum authorities ballots) ∧
        (verifyQuorum authorities ballots = .ok () → TwoThirds authorities ballots) ↔
      OutsidersFail authorities ballots := by
  rw [outsidersFail_iff]
  constructor
  · rintro ⟨sound, _⟩ accepted
    exact (sound.mp accepted).members
  · intro members
    have sound : verifyQuorum authorities ballots = .ok () → SoundQuorum authorities ballots :=
      fun accepted => (verifyQuorum_sound_iff accepted).mpr (members accepted)
    refine ⟨⟨sound, fun quorum => ?_⟩, fun accepted => (sound accepted).twoThirds⟩
    exact (verifyQuorum_ok _ _).mpr ⟨quorum.distinct, quorum.many, quorum.valid⟩

end Quorum

/-- `QC::verify` and `TC::verify` are exact, and what they accept has two thirds of the
authorities behind it, for just those certificates on which they need not look at membership. -/
theorem certificate_quorum_iff (authorities : AuthorityList B) :
    (∀ qc : QC B,
      (qc.verify authorities = .ok () ↔ SoundQuorum authorities qc.ballots) ∧
          (qc.verify authorities = .ok () → TwoThirds authorities qc.ballots) ↔
        OutsidersFail authorities qc.ballots) ∧
    ∀ tc : TC B,
      (tc.verify authorities = .ok () ↔ SoundQuorum authorities tc.ballots) ∧
          (tc.verify authorities = .ok () → TwoThirds authorities tc.ballots) ↔
        OutsidersFail authorities tc.ballots :=
  ⟨fun _ => verifyQuorum_exact, fun _ => verifyQuorum_exact⟩

/- Three keys of no authority certify whatever they like to four authorities. -/
theorem certificate_of_outsiders :
    let authorities := Symbolic.authorities 4
    let qc := Symbolic.certificate [10, 11, 12] (.leaf 5) 1
    let tc := Symbolic.timeoutCertificate [10, 11, 12] 1 0
    authorities.ids.Nodup ∧ qc.verify authorities = .ok () ∧ tc.verify authorities = .ok () ∧
      ¬ SoundQuorum authorities qc.ballots ∧ ¬ SoundQuorum authorities tc.ballots ∧
      ¬ TwoThirds authorities qc.ballots ∧ ¬ TwoThirds authorities tc.ballots := by
  intro authorities qc tc
  have outside : 10 ∉ authorities.ids := by decide
  refine ⟨by decide, by decide +kernel, by decide +kernel, fun sound => ?_, fun sound => ?_,
    by unfold TwoThirds; decide +kernel, by unfold TwoThirds; decide +kernel⟩
  · exact outside (sound.members _ (List.mem_cons_self ..))
  · exact outside (sound.members _ (List.mem_cons_self ..))

/-! ### Digests -/

/-- What a key of an authority signs, and what a signature is checked for. -/
inductive Signable (B : BlockT) where
  | proposal (proposal : Proposal B)
  | vote (vote : Vote B)
  | qc (qc : QC B)
  | timeout (timeout : Timeout B)
  | tcEntry (tc : TC B) (entry : B.AuthorityId × B.AuthoritySignature × ViewNumber)

inductive MessageKind where
  | proposal | vote | timeout

namespace Signable

def kind : Signable B → MessageKind
  | proposal _ => .proposal
  | vote _ | qc _ => .vote
  | timeout _ | tcEntry _ _ => .timeout

def data : Signable B → List B.Byte
  | proposal p => p.data
  | vote v => voteData v.proposalHash v.view
  | qc c => voteData c.proposalHash c.view
  | timeout t => timeoutData t.view t.highQc.view
  | tcEntry c entry => timeoutData c.view entry.2.2

def digest : Signable B → B.Hash
  | proposal p => p.digest
  | vote v => v.digest
  | qc c => c.digest
  | timeout t => t.digest
  | tcEntry c entry => B.hashOf (timeoutData c.view entry.2.2)

theorem digest_eq (s : Signable B) : s.digest = B.hashOf s.data := by
  cases s <;> rfl

/-- The widths of the fields alone tell the kinds apart. -/
def KindLength : MessageKind → Nat → Prop
  | .proposal, length => 104 ≤ length
  | .vote, length => length = 40
  | .timeout, length => length = 16

theorem data_length (widths : FixedWidth B) (s : Signable B) : KindLength s.kind s.data.length := by
  cases s with
  | proposal p => exact p.data_length widths
  | vote v => exact voteData_length widths _ _
  | qc c => exact voteData_length widths _ _
  | timeout t => exact timeoutData_length widths _ _
  | tcEntry c entry => exact timeoutData_length widths _ _

theorem KindLength.unique {k k' : MessageKind} {length : Nat} (one : KindLength k length)
    (other : KindLength k' length) : k = k' := by
  cases k <;> cases k' <;> first | rfl | (simp only [KindLength] at one other; omega)

theorem kind_eq (widths : FixedWidth B) (injective : Function.Injective B.hashOf)
    {s s' : Signable B} (same : s.digest = s'.digest) : s.kind = s'.kind := by
  rw [digest_eq, digest_eq] at same
  have length := data_length widths s'
  rw [← injective same] at length
  exact KindLength.unique (data_length widths s) length

end Signable

/-- With a collision-free hash and encoders of fixed width a digest determines the fields it is
taken from and the kind of message, so no signature counts for two kinds. -/
theorem digests_separated (widths : FixedWidth B) (injective : Function.Injective B.hashOf) :
    (∀ v v' : Vote B, v.digest = v'.digest →
      v.proposalHash = v'.proposalHash ∧ v.view = v'.view) ∧
    (∀ (v : Vote B) (qc : QC B),
      v.digest = qc.digest ↔ v.proposalHash = qc.proposalHash ∧ v.view = qc.view) ∧
    (∀ t t' : Timeout B, t.digest = t'.digest →
      t.view = t'.view ∧ t.highQc.view = t'.highQc.view) ∧
    (∀ p q : Proposal B, p.digest = q.digest →
      p.author = q.author ∧ p.payload = q.payload ∧ p.view = q.view ∧
        p.parentHash = q.parentHash) ∧
    (∀ s s' : Signable B, s.digest = s'.digest → s.kind = s'.kind) ∧
    (SignaturesBind B → ∀ (s s' : Signable B) signature id,
      B.verify signature s.digest id = true → B.verify signature s'.digest id = true →
      s.kind = s'.kind) := by
  have votes : ∀ {h h' : B.Hash} {v v' : ViewNumber},
      B.hashOf (voteData h v) = B.hashOf (voteData h' v') → h = h' ∧ v = v' :=
    fun same => voteData_injective widths (injective same)
  refine ⟨fun v v' same => votes same, fun v qc => ⟨fun same => votes same, ?_⟩, ?_, ?_, ?_, ?_⟩
  · rintro ⟨hash, view⟩
    rw [Vote.digest, QC.digest, hash, view]
  · exact fun t t' same => timeoutData_injective widths (injective same)
  · exact fun p q same => Proposal.digest_injective widths injective same
  · exact fun s s' same => Signable.kind_eq widths injective same
  · intro bind s s' signature id valid valid'
    exact Signable.kind_eq widths injective (bind signature _ _ id valid valid')

theorem digests_separated_symbolic :
    FixedWidth symbolic ∧ Function.Injective symbolic.hashOf ∧ SignaturesBind symbolic ∧
      ∀ (v : Vote symbolic) (p : Proposal symbolic) signature id,
        symbolic.verify signature v.digest id = true →
        symbolic.verify signature p.digest id = false := by
  refine ⟨symbolic_fixedWidth, symbolic_collisionFree.injective, symbolic_signaturesBind, ?_⟩
  intro v p signature id valid
  by_contra replayed
  have kinds := (digests_separated symbolic_fixedWidth symbolic_collisionFree.injective).2.2.2.2.2
    symbolic_signaturesBind (.vote v) (.proposal p) signature id valid
    (Bool.eq_true_of_not_eq_false replayed)
  cases kinds

end Hotstuff
