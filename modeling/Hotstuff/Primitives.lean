import Mathlib.Order.Lattice
import Mathlib.Logic.Function.Basic

/-! What the node is generic over. The block type, the sr25519 application keys and
the SCALE encoders are parameters; a fact the code relies on about them is a named
hypothesis, never an assumption hidden in a definition. -/
namespace Hotstuff

/- `u64` in the source, so addition wraps as it does in a release build. -/
abbrev ViewNumber := UInt64

/-- The `BlockT` of the source with the key types of `hotstuff_primitives`. `Byte` is
abstract on purpose: over a finite alphabet no hash into 32 symbols is collision free. -/
structure BlockT where
  Hash : Type
  Number : Type
  AuthorityId : Type
  AuthoritySignature : Type
  Byte : Type
  [hashDecEq : DecidableEq Hash]
  [numberOrder : LinearOrder Number]
  [idDecEq : DecidableEq AuthorityId]
  [signatureDecEq : DecidableEq AuthoritySignature]
  /-- `Default::default()` of the block hash. -/
  defaultHash : Hash
  /-- `HashT::hash` on raw bytes. -/
  hash : List Byte → Hash
  /-- SCALE of a `Vec<u8>`: a compact length before the bytes. -/
  encodeBytes : List Byte → List Byte
  encodeHash : Hash → List Byte
  encodeId : AuthorityId → List Byte
  encodeNumber : Number → List Byte
  encodeView : ViewNumber → List Byte
  /-- The constant `EMPTY_PAYLOAD`. -/
  emptyPayload : List Byte
  /-- `AuthorityPair::verify(signature, message, id)`. -/
  verify : AuthoritySignature → Hash → AuthorityId → Bool

variable {B : BlockT}

instance : DecidableEq B.Hash := B.hashDecEq
instance : LinearOrder B.Number := B.numberOrder
instance : DecidableEq B.AuthorityId := B.idDecEq
instance : DecidableEq B.AuthoritySignature := B.signatureDecEq
instance (id : B.AuthorityId) (ids : List B.AuthorityId) : Decidable (id ∈ ids) := inferInstance

/-- `HashT::hash_of(&data)` on a byte vector. -/
def BlockT.hashOf (B : BlockT) (data : List B.Byte) : B.Hash := B.hash (B.encodeBytes data)

def BlockT.emptyPayloadHash (B : BlockT) : B.Hash := B.hash B.emptyPayload

/- The weight travels with the id and no modelled function reads it. -/
abbrev AuthorityList (B : BlockT) := List (B.AuthorityId × UInt64)

def AuthorityList.ids (authorities : AuthorityList B) : List B.AuthorityId :=
  authorities.map Prod.fst

inductive HotstuffError (B : BlockT) where
  | authorityReuse (id : B.AuthorityId)
  | insufficientQuorum
  | invalidSignature (id : B.AuthorityId)
  | nullSignature
  | unknownAuthority (id : B.AuthorityId)
  | notAuthority
  | wrongProposer
  | proposalNoParent
  | expiredVote
  | invalidTC
  | finalizeBlock (reason : String)
  | saveProposal (reason : String)
  | clientError (reason : String)
  | other (reason : String)
  deriving DecidableEq

/-- Hash and SCALE as the protocol idealises them: no two byte strings collide and no
byte string hashes to the zero value that stands for "no parent". -/
structure CollisionFree (B : BlockT) : Prop where
  injective : Function.Injective B.hashOf
  ne_default : ∀ data, B.hashOf data ≠ B.defaultHash

/-- Documented widths of the encoders: 32-byte hashes and ids, and 8-byte views. -/
structure FixedWidth (B : BlockT) : Prop where
  hash_length : ∀ h, (B.encodeHash h).length = 32
  id_length : ∀ a, (B.encodeId a).length = 32
  view_length : ∀ v, (B.encodeView v).length = 8
  hash_injective : Function.Injective B.encodeHash
  id_injective : Function.Injective B.encodeId
  view_injective : Function.Injective B.encodeView
  number_injective : Function.Injective B.encodeNumber

/-- A signature is valid for one message of its signer at most. -/
def SignaturesBind (B : BlockT) : Prop :=
  ∀ signature digest digest' id, B.verify signature digest id = true →
    B.verify signature digest' id = true → digest = digest'

end Hotstuff
