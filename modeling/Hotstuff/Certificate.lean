import Hotstuff.Message

/-! What acceptance by the verifiers of `message.rs` says, and when two digests agree. -/
namespace Hotstuff

variable {B : BlockT}

theorem grantVotes_ok (ids used : List B.AuthorityId) (count result : Nat) :
    grantVotes used count ids = .ok result ↔
      ids.Nodup ∧ (∀ id ∈ ids, id ∉ used) ∧ result = count + ids.length := by
  induction ids generalizing used count with
  | nil => simp [grantVotes, eq_comm]
  | cons id rest ih =>
    unfold grantVotes
    split
    · rename_i reused
      simp [reused]
    · rename_i fresh
      rw [ih]
      simp only [List.mem_cons, not_or, List.nodup_cons, List.length_cons, forall_eq_or_imp]
      constructor
      · rintro ⟨distinct, apart, total⟩
        refine ⟨⟨fun again => (apart id again).1 rfl, distinct⟩, ⟨fresh, ?_⟩, by omega⟩
        exact fun a ha => (apart a ha).2
      · rintro ⟨⟨once, distinct⟩, ⟨_, apart⟩, total⟩
        refine ⟨distinct, fun a ha => ⟨?_, apart a ha⟩, by omega⟩
        rintro rfl
        exact once ha

theorem checkSignatures_ok (votes : List (B.AuthorityId × B.AuthoritySignature × B.Hash)) :
    checkSignatures votes = .ok () ↔ ∀ v ∈ votes, B.verify v.2.1 v.2.2 v.1 = true := by
  induction votes with
  | nil => simp [checkSignatures]
  | cons v rest ih =>
    obtain ⟨voter, signature, digest⟩ := v
    unfold checkSignatures
    split
    · rename_i valid
      simp [ih, valid]
    · rename_i invalid
      simp [invalid]

/-- Distinct ids, more of them than two thirds of the authorities, and valid signatures.
That the ids are authorities is not among the conditions. -/
theorem verifyQuorum_ok (authorities : AuthorityList B)
    (votes : List (B.AuthorityId × B.AuthoritySignature × B.Hash)) :
    verifyQuorum authorities votes = .ok () ↔
      (votes.map Prod.fst).Nodup ∧ authorities.length * 2 / 3 < votes.length ∧
        ∀ v ∈ votes, B.verify v.2.1 v.2.2 v.1 = true := by
  unfold verifyQuorum
  split
  · rename_i e rejected
    constructor
    · intro h; cases h
    · rintro ⟨distinct, _, _⟩
      have counted := (grantVotes_ok (votes.map Prod.fst) [] 0 _).mpr ⟨distinct, by simp, rfl⟩
      rw [rejected] at counted
      cases counted
  · rename_i count counted
    obtain ⟨distinct, _, total⟩ := (grantVotes_ok _ _ _ _).mp counted
    have size : count = votes.length := by simpa using total
    subst size
    split
    · rename_i few
      constructor
      · intro h; cases h
      · rintro ⟨_, many, _⟩; omega
    · rename_i many
      rw [checkSignatures_ok]
      constructor
      · intro valid; exact ⟨distinct, by omega, valid⟩
      · rintro ⟨_, _, valid⟩; exact valid

/-- The signatures of a certificate, each with the digest it is checked against. -/
def QC.ballots (qc : QC B) : List (B.AuthorityId × B.AuthoritySignature × B.Hash) :=
  qc.votes.map fun v => (v.1, v.2, qc.digest)

def TC.ballots (tc : TC B) : List (B.AuthorityId × B.AuthoritySignature × B.Hash) :=
  tc.votes.map fun v => (v.1, v.2.1, B.hashOf (timeoutData tc.view v.2.2))

theorem QC.verify_ok (qc : QC B) (authorities : AuthorityList B) :
    qc.verify authorities = .ok () ↔
      (qc.votes.map Prod.fst).Nodup ∧ authorities.length * 2 / 3 < qc.votes.length ∧
        ∀ v ∈ qc.votes, B.verify v.2 qc.digest v.1 = true := by
  rw [QC.verify, verifyQuorum_ok, List.map_map, List.length_map, List.forall_mem_map]
  exact Iff.rfl

theorem TC.verify_ok (tc : TC B) (authorities : AuthorityList B) :
    tc.verify authorities = .ok () ↔
      (tc.votes.map Prod.fst).Nodup ∧ authorities.length * 2 / 3 < tc.votes.length ∧
        ∀ v ∈ tc.votes, B.verify v.2.1 (B.hashOf (timeoutData tc.view v.2.2)) v.1 = true := by
  rw [TC.verify, verifyQuorum_ok, List.map_map, List.length_map, List.forall_mem_map]
  exact Iff.rfl

theorem verifySigned_ok (authorities : AuthorityList B) (id : B.AuthorityId)
    (signature : Option B.AuthoritySignature) (digest : B.Hash) :
    verifySigned authorities id signature digest = .ok () ↔
      id ∈ authorities.ids ∧ ∃ s, signature = some s ∧ B.verify s digest id = true := by
  unfold verifySigned
  split
  · rename_i known
    have member : id ∈ authorities.ids := by
      simpa [AuthorityList.ids, List.any_eq_true] using known
    cases signature with
    | none => simp
    | some s => by_cases valid : B.verify s digest id = true <;> simp [member, valid]
  · rename_i unknown
    have stranger : id ∉ authorities.ids := by
      simpa [AuthorityList.ids, List.any_eq_true] using unknown
    simp [stranger]

theorem Vote.verify_ok (v : Vote B) (authorities : AuthorityList B) :
    v.verify authorities = .ok () ↔
      v.voter ∈ authorities.ids ∧ ∃ s, v.signature = some s ∧
        B.verify s v.digest v.voter = true :=
  verifySigned_ok authorities v.voter v.signature v.digest

theorem QC.eq_default (qc : QC B) :
    qc.eq QC.default = true ↔ qc.proposalHash = B.defaultHash ∧ qc.view = 0 := by
  simp only [QC.eq, Bool.and_eq_true, decide_eq_true_eq]
  exact Iff.rfl

theorem QC.verifyCarried_ok (qc : QC B) (authorities : AuthorityList B) :
    qc.verifyCarried authorities = .ok () ↔
      qc.eq QC.default = true ∨ qc.verify authorities = .ok () := by
  unfold QC.verifyCarried
  split <;> simp_all

theorem Proposal.verify_ok (p : Proposal B) (authorities : AuthorityList B) :
    p.verify authorities = .ok () ↔
      (p.author ∈ authorities.ids ∧ ∃ s, p.signature = some s ∧
        B.verify s p.digest p.author = true) ∧
      (p.qc.eq QC.default = true ∨ p.qc.verify authorities = .ok ()) := by
  rw [← verifySigned_ok, ← QC.verifyCarried_ok]
  unfold Proposal.verify
  split <;> simp_all

theorem Timeout.verify_ok (t : Timeout B) (authorities : AuthorityList B) :
    t.verify authorities = .ok () ↔
      (t.voter ∈ authorities.ids ∧ ∃ s, t.signature = some s ∧
        B.verify s t.digest t.voter = true) ∧
      (t.highQc.eq QC.default = true ∨ t.highQc.verify authorities = .ok ()) := by
  rw [← verifySigned_ok, ← QC.verifyCarried_ok]
  unfold Timeout.verify
  split <;> simp_all

/-! ### Digests under a collision-free hash -/

section Digests

variable (widths : FixedWidth B) (injective : Function.Injective B.hashOf)
include widths

theorem voteData_injective {h h' : B.Hash} {v v' : ViewNumber}
    (same : voteData h v = voteData h' v') : h = h' ∧ v = v' := by
  have split := List.append_inj same (by rw [widths.hash_length, widths.hash_length])
  exact ⟨widths.hash_injective split.1, widths.view_injective split.2⟩

theorem timeoutData_injective {v w v' w' : ViewNumber}
    (same : (timeoutData v w : List B.Byte) = timeoutData v' w') : v = v' ∧ w = w' := by
  have split := List.append_inj same (by rw [widths.view_length, widths.view_length])
  exact ⟨widths.view_injective split.1, widths.view_injective split.2⟩

theorem voteData_length (h : B.Hash) (v : ViewNumber) : (voteData h v).length = 40 := by
  simp [voteData, widths.hash_length, widths.view_length]

theorem timeoutData_length (v w : ViewNumber) :
    (timeoutData v w : List B.Byte).length = 16 := by
  simp [timeoutData, widths.view_length]

theorem Proposal.data_length (p : Proposal B) : 104 ≤ p.data.length := by
  simp [Proposal.data, Payload.encode, widths.hash_length, widths.id_length,
    widths.view_length]
  omega

theorem Proposal.data_injective {p q : Proposal B} (same : p.data = q.data) :
    p.author = q.author ∧ p.payload = q.payload ∧ p.view = q.view ∧
      p.qc.proposalHash = q.qc.proposalHash := by
  have tail := List.append_inj' same (by rw [widths.hash_length, widths.hash_length])
  have middle := List.append_inj' tail.1 (by rw [widths.view_length, widths.view_length])
  have front := List.append_inj middle.1 (by rw [widths.id_length, widths.id_length])
  have body := List.append_inj front.2 (by rw [widths.hash_length, widths.hash_length])
  have payloads : p.payload = q.payload := by
    cases hp : p.payload
    cases hq : q.payload
    simp only [hp, hq] at body
    rw [widths.hash_injective body.1, widths.number_injective body.2]
  exact ⟨widths.id_injective front.1, payloads, widths.view_injective middle.2,
    widths.hash_injective tail.2⟩

include injective

theorem Proposal.digest_injective {p q : Proposal B} (same : p.digest = q.digest) :
    p.author = q.author ∧ p.payload = q.payload ∧ p.view = q.view ∧
      p.qc.proposalHash = q.qc.proposalHash :=
  Proposal.data_injective widths (injective same)

/- Votes, timeouts and proposals hash byte strings of different lengths. -/
theorem timeoutData_hash_ne (view high : ViewNumber) (h : B.Hash) (v : ViewNumber) :
    B.hashOf (timeoutData view high) ≠ B.hashOf (voteData h v) := by
  intro same
  have lengths := congrArg List.length (injective same)
  rw [timeoutData_length widths, voteData_length widths] at lengths
  omega

theorem Proposal.digest_ne_voteData (p : Proposal B) (h : B.Hash) (v : ViewNumber) :
    p.digest ≠ B.hashOf (voteData h v) := by
  intro same
  have lengths := congrArg List.length (injective same)
  have long := p.data_length widths
  rw [voteData_length widths] at lengths
  omega

theorem Proposal.digest_ne_timeoutData (p : Proposal B) (v w : ViewNumber) :
    p.digest ≠ B.hashOf (timeoutData v w) := by
  intro same
  have lengths := congrArg List.length (injective same)
  have long := p.data_length widths
  rw [timeoutData_length widths] at lengths
  omega

end Digests

end Hotstuff
