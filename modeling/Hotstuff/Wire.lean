import Mathlib.Order.Fin.Basic
import Hotstuff.Lib.Scale
import Hotstuff.Network

/-! The codec of the messages. It is derived (`#[derive(Encode, Decode)]`), so it is a parameter
here, with what is asked of it as hypotheses; the SCALE formats over the concrete types of a chain
are an instance. -/
namespace Hotstuff

/-! ### The parameter -/

section Codec

variable {B : BlockT}

structure MessageCodec (B : BlockT) where
  encode : ConsensusMessage B → List B.Byte
  decode : List B.Byte → Except String (ConsensusMessage B)
  /-- The bytes of `hotstuff/consensus`. -/
  topicName : List B.Byte

namespace ConsensusMessage

/-- The votes in the QC of a message. -/
def qcVotes : ConsensusMessage B → Nat
  | .propose p => p.qc.votes.length
  | .timeout t => t.highQc.votes.length
  | .vote _ | .tc _ | .syncRequest _ _ | .phantom => 0

/-- The votes in the TC of a message. -/
def tcVotes : ConsensusMessage B → Nat
  | .propose p => p.tc.elim 0 fun c => c.votes.length
  | .tc c => c.votes.length
  | .vote _ | .timeout _ | .syncRequest _ _ | .phantom => 0

end ConsensusMessage

namespace MessageCodec

/-- Messages with fewer votes than the limit are read back, whatever stands behind them. -/
def Lossless (codec : MessageCodec B) (limit : Nat) : Prop :=
  ∀ message rest, message.qcVotes < limit → message.tcVotes < limit →
    codec.decode (codec.encode message ++ rest) = .ok message

/-- The bytes of a message: so many for each vote, and the rest. -/
structure Sized (codec : MessageCodec B) (rest qcVote tcVote : Nat) : Prop where
  length_le : ∀ message, (codec.encode message).length ≤
    rest + qcVote * message.qcVotes + tcVote * message.tcVotes

end MessageCodec

end Codec

/-! ### The types of a chain -/

open Scale

/-- The types behind a `BlockT` as they are on the wire: hashes and public keys of 32 bytes, sr25519
signatures of 64, block numbers of a fixed width. -/
structure Wire where
  Hash : Type
  Number : Type
  AuthorityId : Type
  AuthoritySignature : Type
  [hashDecEq : DecidableEq Hash]
  [numberOrder : LinearOrder Number]
  [idDecEq : DecidableEq AuthorityId]
  [signatureDecEq : DecidableEq AuthoritySignature]
  defaultHash : Hash
  hash : List UInt8 → Hash
  emptyPayload : List UInt8
  verify : AuthoritySignature → Hash → AuthorityId → Bool
  hashFormat : Format Hash
  numberFormat : Format Number
  idFormat : Format AuthorityId
  signatureFormat : Format AuthoritySignature
  numberWidth : Nat
  hash_fixed : ∀ h, hashFormat.Fits h ∧ (hashFormat.encode h).length = 32
  number_fixed : ∀ n, numberFormat.Fits n ∧ (numberFormat.encode n).length = numberWidth
  id_fixed : ∀ a, idFormat.Fits a ∧ (idFormat.encode a).length = 32
  signature_fixed : ∀ s, signatureFormat.Fits s ∧ (signatureFormat.encode s).length = 64
  /-- The text of the error the codec gives for some bytes. -/
  codecError : List UInt8 → String

namespace Wire

def view : Format ViewNumber := Format.u64

variable (W : Wire)

instance : DecidableEq W.Hash := W.hashDecEq
instance : LinearOrder W.Number := W.numberOrder
instance : DecidableEq W.AuthorityId := W.idDecEq
instance : DecidableEq W.AuthoritySignature := W.signatureDecEq

/-- The block type the rest of the model is over. -/
abbrev blockT : BlockT where
  Hash := W.Hash
  Number := W.Number
  AuthorityId := W.AuthorityId
  AuthoritySignature := W.AuthoritySignature
  Byte := UInt8
  defaultHash := W.defaultHash
  hash := W.hash
  encodeBytes := (Format.vec Format.u8).encode
  encodeHash := W.hashFormat.encode
  encodeId := W.idFormat.encode
  encodeNumber := W.numberFormat.encode
  encodeView := view.encode
  emptyPayload := W.emptyPayload
  verify := W.verify

/-! ### Formats -/

def qc : Format (QC W.blockT) :=
  (W.hashFormat.pair (view.pair (Format.vec (W.idFormat.pair W.signatureFormat)))).via
    (fun qc => (qc.proposalHash, qc.view, qc.votes)) (fun x => ⟨x.1, x.2.1, x.2.2⟩)
    fun _ => rfl

def payload : Format (Payload W.blockT) :=
  (W.hashFormat.pair W.numberFormat).via (fun p => (p.blockHash, p.blockNumber))
    (fun x => ⟨x.1, x.2⟩) fun _ => rfl

/- The `PhantomData` at the end takes no bytes. -/
def tc : Format (TC W.blockT) :=
  (view.pair (Format.vec (W.idFormat.pair (W.signatureFormat.pair view)))).via
    (fun tc => (tc.view, tc.votes)) (fun x => ⟨x.1, x.2⟩) fun _ => rfl

def proposal : Format (Proposal W.blockT) :=
  (W.qc.pair (W.tc.option.pair (W.payload.pair (view.pair
      (W.idFormat.pair W.signatureFormat.option))))).via
    (fun p => (p.qc, p.tc, p.payload, p.view, p.author, p.signature))
    (fun x => ⟨x.1, x.2.1, x.2.2.1, x.2.2.2.1, x.2.2.2.2.1, x.2.2.2.2.2⟩)
    fun _ => rfl

def vote : Format (Vote W.blockT) :=
  (W.hashFormat.pair (view.pair (W.idFormat.pair W.signatureFormat.option))).via
    (fun v => (v.proposalHash, v.view, v.voter, v.signature))
    (fun x => ⟨x.1, x.2.1, x.2.2.1, x.2.2.2⟩) fun _ => rfl

def timeout : Format (Timeout W.blockT) :=
  (W.qc.pair (view.pair (W.idFormat.pair W.signatureFormat.option))).via
    (fun t => (t.highQc, t.view, t.voter, t.signature))
    (fun x => ⟨x.1, x.2.1, x.2.2.1, x.2.2.2⟩) fun _ => rfl

/-- The variants of `ConsensusMessage`, in the order of the source. -/
inductive Kind where
  | propose | vote | timeout | tc | syncRequest | phantom
  deriving DecidableEq

def Kind.tag : Kind → UInt8
  | propose => 0
  | vote => 1
  | timeout => 2
  | tc => 3
  | syncRequest => 4
  | phantom => 5

def Kind.ofTag (b : UInt8) : Option Kind :=
  [propose, vote, timeout, tc, syncRequest, phantom].find? fun kind => kind.tag = b

theorem Kind.ofTag_tag (kind : Kind) : ofTag kind.tag = some kind := by
  cases kind <;> rfl

def Kind.Content : Kind → Type
  | propose => Proposal W.blockT
  | vote => Vote W.blockT
  | timeout => Timeout W.blockT
  | tc => TC W.blockT
  | syncRequest => W.Hash × W.AuthorityId
  | phantom => Unit

def content : ∀ kind : Kind, Format (kind.Content W)
  | .propose => W.proposal
  | .vote => W.vote
  | .timeout => W.timeout
  | .tc => W.tc
  | .syncRequest => W.hashFormat.pair W.idFormat
  | .phantom => Format.unit

def ofMessage : ConsensusMessage W.blockT → Sigma (Kind.Content W)
  | .propose p => ⟨.propose, p⟩
  | .vote v => ⟨.vote, v⟩
  | .timeout t => ⟨.timeout, t⟩
  | .tc tc => ⟨.tc, tc⟩
  | .syncRequest hash id => ⟨.syncRequest, (hash, id)⟩
  | .phantom => ⟨.phantom, ()⟩

def toMessage : Sigma (Kind.Content W) → ConsensusMessage W.blockT
  | ⟨.propose, p⟩ => .propose p
  | ⟨.vote, v⟩ => .vote v
  | ⟨.timeout, t⟩ => .timeout t
  | ⟨.tc, tc⟩ => .tc tc
  | ⟨.syncRequest, x⟩ => .syncRequest x.1 x.2
  | ⟨.phantom, _⟩ => .phantom

def message : Format (ConsensusMessage W.blockT) :=
  (Format.variant Kind.tag Kind.ofTag Kind.ofTag_tag W.content).via W.ofMessage W.toMessage
    fun message => by cases message <;> rfl

/-- `Decode::decode(&mut &data[..])`: the bytes behind the value are not looked at. -/
def read {α : Type} (f : Format α) (data : List UInt8) : Except String α :=
  match f.decode data with
  | some (a, _) => .ok a
  | none => .error (W.codecError data)

def codec : MessageCodec W.blockT where
  encode := W.message.encode
  decode := W.read W.message
  topicName := "hotstuff/consensus".toUTF8.toList

/-! ### What fits -/

variable {W}

theorem view_fits (v : ViewNumber) : view.Fits v := Format.u64_fits v

theorem qc_fits {qc : QC W.blockT} (small : qc.votes.length < 2 ^ 32) : W.qc.Fits qc := by
  refine ⟨(W.hash_fixed _).1, view_fits _, small, fun x _ => ?_⟩
  exact ⟨(W.id_fixed _).1, (W.signature_fixed _).1⟩

theorem tc_fits {tc : TC W.blockT} (small : tc.votes.length < 2 ^ 32) : W.tc.Fits tc := by
  refine ⟨view_fits _, small, fun x _ => ?_⟩
  exact ⟨(W.id_fixed _).1, (W.signature_fixed _).1, view_fits _⟩

theorem signature_fits (signature : Option W.AuthoritySignature) :
    W.signatureFormat.option.Fits signature :=
  fun s _ => (W.signature_fixed s).1

theorem message_fits {message : ConsensusMessage W.blockT} (qc : message.qcVotes < 2 ^ 32)
    (tc : message.tcVotes < 2 ^ 32) : W.message.Fits message := by
  cases message with
  | propose p =>
    have carried : W.tc.option.Fits p.tc := by
      intro c own
      have counted : p.tc.elim 0 (fun c => c.votes.length) < 2 ^ 32 := tc
      rw [Option.mem_def.mp own] at counted
      exact tc_fits counted
    exact ⟨qc_fits qc, carried, ⟨(W.hash_fixed _).1, (W.number_fixed _).1⟩, view_fits _,
      (W.id_fixed _).1, signature_fits _⟩
  | vote v => exact ⟨(W.hash_fixed _).1, view_fits _, (W.id_fixed _).1, signature_fits _⟩
  | timeout t => exact ⟨qc_fits qc, view_fits _, (W.id_fixed _).1, signature_fits _⟩
  | tc c => exact tc_fits tc
  | syncRequest hash id => exact ⟨(W.hash_fixed _).1, (W.id_fixed _).1⟩
  | phantom => trivial

theorem read_encode {α : Type} (f : Format α) {a : α} (fits : f.Fits a) (rest : List UInt8) :
    W.read f (f.encode a ++ rest) = .ok a := by
  rw [read, f.decode_encode fits]

/- Only a list of `2 ^ 32` votes or more has no encoding. -/
theorem codec_lossless (W : Wire) : W.codec.Lossless (2 ^ 32) :=
  fun _ rest qc tc => read_encode W.message (message_fits qc tc) rest

/-! ### Sizes -/

theorem hash_within : W.hashFormat.Within fun _ => 32 := fun h => Nat.le_of_eq (W.hash_fixed h).2

theorem id_within : W.idFormat.Within fun _ => 32 := fun a => Nat.le_of_eq (W.id_fixed a).2

theorem signature_within : W.signatureFormat.Within fun _ => 64 :=
  fun s => Nat.le_of_eq (W.signature_fixed s).2

theorem view_within : view.Within fun _ => 8 := .u64

theorem qc_within : W.qc.Within fun qc => 45 + 96 * qc.votes.length := by
  have size : W.qc.Within _ := .via (hash_within.pair (view_within.pair
    (.vec (id_within.pair signature_within))))
  have sum (n : Nat) : 32 + (8 + (5 + (32 + 64) * n)) ≤ 45 + 96 * n := by omega
  exact size.mono fun qc => sum _

theorem tc_within : W.tc.Within fun tc => 13 + 104 * tc.votes.length := by
  have size : W.tc.Within _ := .via (view_within.pair
    (.vec (id_within.pair (signature_within.pair view_within))))
  have sum (n : Nat) : 8 + (5 + (32 + (64 + 8)) * n) ≤ 13 + 104 * n := by omega
  exact size.mono fun tc => sum _

/-- The end of a signed message: the view, the signer and the signature, if there is one. -/
theorem signed_within :
    (view.pair (W.idFormat.pair W.signatureFormat.option)).Within fun _ => 105 := by
  refine (view_within.pair (id_within.pair signature_within.option)).mono fun x => ?_
  cases x.2.2 <;> simp

/-- The most bytes each variant takes. -/
def contentSize : ∀ kind : Kind, kind.Content W → Nat
  | .propose, p => 183 + W.numberWidth + 96 * p.qc.votes.length +
      p.tc.elim 0 fun tc => 13 + 104 * tc.votes.length
  | .vote, _ => 137
  | .timeout, t => 150 + 96 * t.highQc.votes.length
  | .tc, tc => 13 + 104 * tc.votes.length
  | .syncRequest, _ => 64
  | .phantom, _ => 0

theorem content_within (kind : Kind) : (W.content kind).Within (contentSize kind) := by
  cases kind with
  | propose =>
    have number : W.numberFormat.Within fun _ => W.numberWidth :=
      fun n => Nat.le_of_eq (W.number_fixed n).2
    have payload : W.payload.Within _ := .via (hash_within.pair number)
    have size : W.proposal.Within _ :=
      .via (qc_within.pair (tc_within.option.pair (payload.pair signed_within)))
    refine size.mono fun p => ?_
    simp only [contentSize]
    omega
  | vote =>
    have size : W.vote.Within _ := .via (hash_within.pair signed_within)
    exact size
  | timeout =>
    have size : W.timeout.Within _ := .via (qc_within.pair signed_within)
    refine size.mono fun t => ?_
    simp only [contentSize]
    omega
  | tc => exact tc_within
  | syncRequest => exact hash_within.pair id_within
  | phantom => exact .unit

/-- The largest message is a proposal with both certificates. -/
theorem codec_sized (W : Wire) : W.codec.Sized (197 + W.numberWidth) 96 104 where
  length_le message := by
    have size : W.message.Within _ := .via (.variant content_within)
    refine Nat.le_trans (size message) ?_
    cases message with
    | propose p =>
      simp only [ofMessage, contentSize, ConsensusMessage.qcVotes, ConsensusMessage.tcVotes]
      cases p.tc <;> simp only [Option.elim] <;> omega
    | vote | timeout | tc | syncRequest | phantom =>
      simp only [ofMessage, contentSize, ConsensusMessage.qcVotes, ConsensusMessage.tcVotes]
      omega

/-! ### An instance -/

/-- `k` bytes. -/
def word (k : Nat) : Format (Fin (256 ^ k)) :=
  (Format.little k).via Fin.val (Fin.ofNat (256 ^ k)) fun _ => by simp

/-- Numbers for everything: a hash is the bytes read as a number, and a signature writes the signer
behind the digest. -/
abbrev words : Wire where
  Hash := Fin (256 ^ 32)
  Number := Fin (256 ^ 4)
  AuthorityId := Fin (256 ^ 32)
  AuthoritySignature := Fin (256 ^ 64)
  numberOrder := Fin.instLinearOrder
  defaultHash := 0
  hash data := data.foldl (fun n b => n * 256 + Fin.ofNat _ b.toNat) 1
  emptyPayload := []
  verify signature digest id := signature.val = digest.val + 256 ^ 32 * id.val
  hashFormat := word 32
  numberFormat := word 4
  idFormat := word 32
  signatureFormat := word 64
  numberWidth := 4
  hash_fixed h := ⟨h.isLt, Format.length_littleBytes 32 _⟩
  number_fixed n := ⟨n.isLt, Format.length_littleBytes 4 _⟩
  id_fixed a := ⟨a.isLt, Format.length_littleBytes 32 _⟩
  signature_fixed s := ⟨s.isLt, Format.length_littleBytes 64 _⟩
  codecError _ := "decode"

def wordsSign (id : Fin (256 ^ 32)) (digest : Fin (256 ^ 32)) : Fin (256 ^ 64) :=
  Fin.ofNat _ (digest.val + 256 ^ 32 * id.val)

/-- The node of the authority `id` among four. -/
def wordsSetup (id : Fin (256 ^ 32)) : Setup words.blockT where
  keystore := ⟨fun a => decide (a = id), fun a digest => .ok (some (wordsSign a digest))⟩
  authorities := [(0, 1), (1, 1), (2, 1), (3, 1)]
  nonempty := by decide
  client := ⟨fun _ => .ok .inChain, 2, 0, fun _ => .ok 1⟩
  synchronizer := ⟨words.proposal.encode, words.read words.proposal,
    ⟨fun _ => none, fun _ => none, fun _ => none⟩⟩
  queue := some []

def wordsTimeout (view : ViewNumber) (id : Fin (256 ^ 32)) : Timeout words.blockT :=
  let t : Timeout words.blockT := ⟨QC.default, view, id, none⟩
  { t with signature := some (wordsSign id t.digest) }

end Wire

end Hotstuff
