import Hotstuff.Lib.Terms
import Hotstuff.Node
import Mathlib.Order.Nat

/-! The symbolic instance: hashes are terms that keep what they hash, a signature is its
signer and message, and a short text is padded to the width the format has. It meets every
hypothesis made on hashes, signatures and encoders, and all of the model computes on it. -/
namespace Hotstuff

open Terms

abbrev symbolic : BlockT where
  Hash := Term
  Number := Nat
  AuthorityId := Nat
  AuthoritySignature := Nat × Term
  Byte := Term
  defaultHash := .leaf 0
  hash := Term.digest
  encodeBytes := id
  encodeHash h := h :: List.replicate 31 (.leaf 0)
  encodeId a := .leaf a :: List.replicate 31 (.leaf 0)
  encodeNumber n := [.leaf n]
  encodeView v := .leaf v.toNat :: List.replicate 7 (.leaf 0)
  emptyPayload := []
  verify signature digest id := signature = (id, digest)

theorem symbolic_collisionFree : CollisionFree symbolic where
  injective := Term.digest_injective
  ne_default := Term.digest_ne_leaf_zero

theorem symbolic_fixedWidth : FixedWidth symbolic where
  hash_length _ := rfl
  id_length _ := rfl
  view_length _ := rfl
  hash_injective _ _ same := (List.cons.inj same).1
  id_injective _ _ same := Term.leaf.inj (List.cons.inj same).1
  view_injective _ _ same := UInt64.toNat_inj.mp (Term.leaf.inj (List.cons.inj same).1)
  number_injective _ _ same := Term.leaf.inj (List.cons.inj same).1

theorem symbolic_verify (signature : Nat × Term) (digest : Term) (id : Nat) :
    symbolic.verify signature digest id = true ↔ signature = (id, digest) :=
  decide_eq_true_iff

theorem symbolic_signaturesBind : SignaturesBind symbolic := by
  intro signature digest digest' id valid valid'
  have first := (symbolic_verify signature digest id).mp valid
  have second := (symbolic_verify signature digest' id).mp valid'
  exact congrArg Prod.snd (first.symm.trans second)

namespace Symbolic

/-! ### The codec of proposals -/

def view : Codec ViewNumber :=
  Codec.nat.via UInt64.toNat UInt64.ofNat fun _ => UInt64.ofNat_toNat

def qc : Codec (QC symbolic) :=
  (Codec.term.prod (view.prod (Codec.nat.prod (Codec.nat.prod Codec.term)).list)).via
    (fun q => (q.proposalHash, q.view, q.votes)) (fun t => ⟨t.1, t.2.1, t.2.2⟩) fun _ => rfl

def tc : Codec (TC symbolic) :=
  (view.prod (Codec.nat.prod ((Codec.nat.prod Codec.term).prod view)).list).via
    (fun c => (c.view, c.votes)) (fun t => ⟨t.1, t.2⟩) fun _ => rfl

def payload : Codec (Payload symbolic) :=
  (Codec.term.prod Codec.nat).via (fun p => (p.blockHash, p.blockNumber))
    (fun t => ⟨t.1, t.2⟩) fun _ => rfl

def proposal : Codec (Proposal symbolic) :=
  (qc.prod (tc.option.prod (payload.prod
    (view.prod (Codec.nat.prod (Codec.nat.prod Codec.term).option))))).via
    (fun p => (p.qc, p.tc, p.payload, p.view, p.author, p.signature))
    (fun t => ⟨t.1, t.2.1, t.2.2.1, t.2.2.2.1, t.2.2.2.2.1, t.2.2.2.2.2⟩) fun _ => rfl

def decode : List Term → Except String (Proposal symbolic)
  | [t] =>
    match proposal.decode t with
    | some p => .ok p
    | none => .error "decode"
  | _ => .error "decode"

theorem decode_encode (p : Proposal symbolic) : decode [proposal.encode p] = .ok p := by
  simp [decode, proposal.inverse]

/-! ### Nodes -/

def keystore (id : Nat) : Keystore symbolic where
  hasKeys a := a = id
  signWith a digest := .ok (if a = id then some (a, digest) else none)

def client : Client symbolic where
  status _ := .ok .inChain
  finalizedHash := .leaf 2
  finalizedNumber := 0
  finalizeBlock _ := .ok 1

def synchronizer : Synchronizer symbolic where
  encode p := [proposal.encode p]
  decode := decode
  store := ⟨fun _ => none, fun _ => none, fun _ => none⟩

def authorities (n : Nat) : AuthorityList symbolic := (List.range n).map fun a => (a, 0)

/-- The node of the authority `id` among `n + 1`, with one block to finalize. -/
def setup (n id : Nat) : Setup symbolic where
  keystore := keystore id
  authorities := authorities (n + 1)
  nonempty := by simp [authorities]
  client := client
  synchronizer := synchronizer
  queue := some [⟨some (.leaf 7), 1⟩]

def environment (id : Nat) (queue : List (BlockInfo symbolic)) : Environment symbolic where
  client := client
  pendingFinalizeQueue := some queue
  getError _ := none
  setError _ := none
  signWith := (keystore id).signWith

/-! ### Messages -/

def certificate (signers : List Nat) (hash : Term) (view : ViewNumber) : QC symbolic :=
  ⟨hash, view, signers.map fun a => (a, a, symbolic.hashOf (voteData (B := symbolic) hash view))⟩

def timeoutCertificate (signers : List Nat) (view high : ViewNumber) : TC symbolic :=
  ⟨view, signers.map fun a =>
    (a, (a, symbolic.hashOf (timeoutData (B := symbolic) view high)), high)⟩

def signProposal (p : Proposal symbolic) : Proposal symbolic :=
  { p with signature := some (p.author, p.digest) }

def signVote (v : Vote symbolic) : Vote symbolic :=
  { v with signature := some (v.voter, v.digest) }

def signTimeout (t : Timeout symbolic) : Timeout symbolic :=
  { t with signature := some (t.voter, t.digest) }

end Symbolic

end Hotstuff
