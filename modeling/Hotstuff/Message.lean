import Hotstuff.Primitives

/-! The messages of `message.rs`: their digests and their verification. -/
namespace Hotstuff

variable {B : BlockT}

structure QC (B : BlockT) where
  proposalHash : B.Hash
  view : ViewNumber
  votes : List (B.AuthorityId × B.AuthoritySignature)
  deriving DecidableEq

/- The default certificate plays the part of a certificate for a genesis proposal. -/
def QC.default : QC B := ⟨B.defaultHash, 0, []⟩

/-- `PartialEq for QC`: the votes are not compared. -/
def QC.eq (a b : QC B) : Bool := a.proposalHash = b.proposalHash && a.view = b.view

structure Payload (B : BlockT) where
  blockHash : B.Hash
  blockNumber : B.Number
  deriving DecidableEq

structure TC (B : BlockT) where
  view : ViewNumber
  votes : List (B.AuthorityId × B.AuthoritySignature × ViewNumber)
  deriving DecidableEq

structure Proposal (B : BlockT) where
  qc : QC B
  tc : Option (TC B)
  payload : Payload B
  view : ViewNumber
  author : B.AuthorityId
  signature : Option B.AuthoritySignature
  deriving DecidableEq

structure Vote (B : BlockT) where
  proposalHash : B.Hash
  view : ViewNumber
  voter : B.AuthorityId
  signature : Option B.AuthoritySignature
  deriving DecidableEq

structure Timeout (B : BlockT) where
  highQc : QC B
  view : ViewNumber
  voter : B.AuthorityId
  signature : Option B.AuthoritySignature
  deriving DecidableEq

inductive ConsensusMessage (B : BlockT) where
  | propose (proposal : Proposal B)
  | vote (vote : Vote B)
  | timeout (timeout : Timeout B)
  | tc (tc : TC B)
  | syncRequest (hash : B.Hash) (id : B.AuthorityId)
  | phantom
  deriving DecidableEq

/-! ### Digests -/

/-- The bytes signed by a voter, in `Vote::digest` and in `QC::digest`. -/
def voteData (proposalHash : B.Hash) (view : ViewNumber) : List B.Byte :=
  B.encodeHash proposalHash ++ B.encodeView view

/-- The bytes signed on a timeout, in `Timeout::digest` and in `TC::verify`. -/
def timeoutData (view highView : ViewNumber) : List B.Byte :=
  B.encodeView view ++ B.encodeView highView

def Payload.encode (p : Payload B) : List B.Byte :=
  B.encodeHash p.blockHash ++ B.encodeNumber p.blockNumber

def QC.digest (qc : QC B) : B.Hash := B.hashOf (voteData qc.proposalHash qc.view)

def Vote.digest (v : Vote B) : B.Hash := B.hashOf (voteData v.proposalHash v.view)

def Timeout.digest (t : Timeout B) : B.Hash := B.hashOf (timeoutData t.view t.highQc.view)

def Proposal.parentHash (p : Proposal B) : B.Hash := p.qc.proposalHash

/- Neither the view and votes of the certificate nor the TC are part of the digest. -/
def Proposal.data (p : Proposal B) : List B.Byte :=
  B.encodeId p.author ++ p.payload.encode ++ B.encodeView p.view ++
    B.encodeHash p.qc.proposalHash

def Proposal.digest (p : Proposal B) : B.Hash := B.hashOf p.data

/-! ### Verification -/

/-- First loop of `QC::verify` and `TC::verify`: reject an id met twice, count the rest. -/
def grantVotes (used : List B.AuthorityId) (count : Nat) :
    List B.AuthorityId → Except (HotstuffError B) Nat
  | [] => .ok count
  | id :: rest =>
    if id ∈ used then .error (.authorityReuse id) else grantVotes (id :: used) (count + 1) rest

/-- Second loop: every signature against its own digest, stopping at the first bad one. -/
def checkSignatures :
    List (B.AuthorityId × B.AuthoritySignature × B.Hash) → Except (HotstuffError B) Unit
  | [] => .ok ()
  | (voter, signature, digest) :: rest =>
    if B.verify signature digest voter then checkSignatures rest
    else .error (.invalidSignature voter)

/-- The shape shared by both certificates. Membership of the ids is not looked at. -/
def verifyQuorum (authorities : AuthorityList B)
    (votes : List (B.AuthorityId × B.AuthoritySignature × B.Hash)) :
    Except (HotstuffError B) Unit :=
  match grantVotes [] 0 (votes.map Prod.fst) with
  | .error e => .error e
  | .ok count =>
    if count ≤ authorities.length * 2 / 3 then .error .insufficientQuorum
    else checkSignatures votes

def QC.verify (qc : QC B) (authorities : AuthorityList B) : Except (HotstuffError B) Unit :=
  verifyQuorum authorities (qc.votes.map fun v => (v.1, v.2, qc.digest))

def TC.verify (tc : TC B) (authorities : AuthorityList B) : Except (HotstuffError B) Unit :=
  verifyQuorum authorities
    (tc.votes.map fun v => (v.1, v.2.1, B.hashOf (timeoutData tc.view v.2.2)))

/-- The author checks that open `Proposal::verify`, `Vote::verify` and `Timeout::verify`. -/
def verifySigned (authorities : AuthorityList B) (id : B.AuthorityId)
    (signature : Option B.AuthoritySignature) (digest : B.Hash) :
    Except (HotstuffError B) Unit :=
  if authorities.any (fun a => a.1 = id) then
    match signature with
    | none => .error .nullSignature
    | some s => if B.verify s digest id then .ok () else .error (.invalidSignature id)
  else .error (.unknownAuthority id)

/-- The check of a carried certificate: a default one passes unread. -/
def QC.verifyCarried (qc : QC B) (authorities : AuthorityList B) :
    Except (HotstuffError B) Unit :=
  if qc.eq QC.default then .ok () else qc.verify authorities

def Vote.verify (v : Vote B) (authorities : AuthorityList B) : Except (HotstuffError B) Unit :=
  verifySigned authorities v.voter v.signature v.digest

def Proposal.verify (p : Proposal B) (authorities : AuthorityList B) :
    Except (HotstuffError B) Unit :=
  match verifySigned authorities p.author p.signature p.digest with
  | .error e => .error e
  | .ok _ => p.qc.verifyCarried authorities

def Timeout.verify (t : Timeout B) (authorities : AuthorityList B) :
    Except (HotstuffError B) Unit :=
  match verifySigned authorities t.voter t.signature t.digest with
  | .error e => .error e
  | .ok _ => t.highQc.verifyCarried authorities

end Hotstuff
