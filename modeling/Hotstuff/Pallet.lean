import Mathlib.Data.List.TakeDrop
import Hotstuff.Lib.Runs

/-! `pallets/hotstuff`: the authorities and the slot in the storage of the runtime, the
session handler that changes the authorities and the lookup of a block's author. A panic
aborts the call and its writes are discarded, so a call is a function into `Except`. -/
namespace Hotstuff

abbrev Slot := UInt64

/- `[u8; 4]` in the source. -/
abbrev ConsensusEngineId := UInt8 × UInt8 × UInt8 × UInt8

/- The bytes of "HOTS". -/
def hotstuffEngineId : ConsensusEngineId := (72, 79, 84, 83)

inductive ConsensusLog (AuthorityId : Type) where
  | authoritiesChange (authorities : List AuthorityId)
  | onDisabled (index : UInt64)

/-- `sp_runtime::generic::DigestItem`. -/
inductive DigestItem where
  | preRuntime (id : ConsensusEngineId) (data : List UInt8)
  | consensus (id : ConsensusEngineId) (data : List UInt8)
  | seal (id : ConsensusEngineId) (data : List UInt8)
  | other (data : List UInt8)
  | runtimeEnvironmentUpdated
  deriving DecidableEq

def DigestItem.asPreRuntime : DigestItem → Option (ConsensusEngineId × List UInt8)
  | .preRuntime id data => some (id, data)
  | _ => none

namespace Pallet

structure Config where
  AuthorityId : Type
  AccountId : Type
  Weight : Type
  [idDecEq : DecidableEq AuthorityId]
  maxAuthorities : UInt32
  allowMultipleBlocksPerSlot : Bool
  /-- `DbWeight` -/
  reads : Nat → Weight
  readsWrites : Nat → Nat → Weight
  /-- `Slot::decode(&mut data).ok()` -/
  decodeSlot : List UInt8 → Option Slot
  encodeLog : ConsensusLog AuthorityId → List UInt8

instance (T : Config) : DecidableEq T.AuthorityId := T.idDecEq

inductive Panic where
  /- "Authorities are already initialized!" -/
  | alreadyInitialized
  /- "Initial authority set must be less than T::MaxAuthorities" -/
  | tooManyAuthorities
  /- "Slot must not decrease" -/
  | slotDecreases
  /- "Slot must increase" -/
  | slotRepeats
  /- "Validator with index {:?} is disabled and should not be attempting to author blocks." -/
  | validatorDisabled (index : UInt64)
  | remainderByZero
  deriving DecidableEq

variable {T : Config}

abbrev BoundedVec (T : Config) :=
  { authorities : List T.AuthorityId // authorities.length ≤ T.maxAuthorities.toNat }

def BoundedVec.truncateFrom (authorities : List T.AuthorityId) : BoundedVec T :=
  ⟨authorities.take T.maxAuthorities.toNat, List.length_take_le _ _⟩

/-- The two storage values of the pallet, `none` while nothing has been put there, and the
digest that `frame_system` keeps for the block. -/
structure Storage (T : Config) where
  authoritiesValue : Option (BoundedVec T)
  currentSlotValue : Option Slot
  digest : List DigestItem

namespace Storage

def genesis : Storage T := ⟨none, none, []⟩

/- `ValueQuery`: the default of the type stands for an absent value. -/
def authorities (s : Storage T) : List T.AuthorityId :=
  (s.authoritiesValue.map Subtype.val).getD []

def currentSlot (s : Storage T) : Slot := s.currentSlotValue.getD 0

/- `decode_len` reads the length in place and has no default for an absent value. -/
def decodeLen (s : Storage T) : Option Nat :=
  s.authoritiesValue.map fun authorities => authorities.val.length

def depositLog (s : Storage T) (item : DigestItem) : Storage T :=
  { s with digest := s.digest ++ [item] }

def authoritiesLog (authorities : List T.AuthorityId) : DigestItem :=
  .consensus hotstuffEngineId (T.encodeLog (.authoritiesChange authorities))

def changeAuthorities (s : Storage T) (new : BoundedVec T) : Storage T :=
  if new.val.isEmpty then s
  else { s with authoritiesValue := some new }.depositLog (authoritiesLog new.val)

def initializeAuthorities (s : Storage T) (authorities : List T.AuthorityId) :
    Except Panic (Storage T) :=
  if authorities.isEmpty then .ok s
  else if ¬ s.authorities.isEmpty then .error .alreadyInitialized
  else if fits : authorities.length ≤ T.maxAuthorities.toNat then
    .ok { s with authoritiesValue := some ⟨authorities, fits⟩ }
  else .error .tooManyAuthorities

def onGenesisSession (s : Storage T) (validators : List (T.AccountId × T.AuthorityId)) :
    Except Panic (Storage T) :=
  s.initializeAuthorities (validators.map Prod.snd)

def onNewSession (s : Storage T) (changed : Bool)
    (validators _queued : List (T.AccountId × T.AuthorityId)) : Storage T :=
  if changed then
    let nextAuthorities := validators.map Prod.snd
    if s.authorities ≠ nextAuthorities then
      s.changeAuthorities (BoundedVec.truncateFrom nextAuthorities)
    else s
  else s

/-- The loop of `current_slot_from_digests` over the pre-runtime digests. -/
def slotFrom : List (ConsensusEngineId × List UInt8) → Option Slot
  | [] => none
  | (id, data) :: rest => if id = hotstuffEngineId then T.decodeSlot data else slotFrom rest

def preRuntime (s : Storage T) : List (ConsensusEngineId × List UInt8) :=
  s.digest.filterMap DigestItem.asPreRuntime

def currentSlotFromDigests (s : Storage T) : Option Slot := slotFrom (T := T) s.preRuntime

/-- `%` on `u64`. -/
def rem (a n : UInt64) : Except Panic UInt64 :=
  if n = 0 then .error .remainderByZero else .ok (a % n)

/-- The assertion on the slot. -/
def checkSlot (T : Config) (current new : Slot) : Except Panic Unit :=
  if T.allowMultipleBlocksPerSlot then
    if current ≤ new then .ok () else .error .slotDecreases
  else if current < new then .ok () else .error .slotRepeats

/-- The assertion on the author; `isDisabled` is what `DisabledValidators` answers. -/
def checkAuthor (s : Storage T) (isDisabled : UInt32 → Bool) (slot : Slot) :
    Except Panic Unit :=
  match s.decodeLen with
  | none => .ok ()
  | some count =>
    match rem slot (UInt64.ofNat count) with
    | .error e => .error e
    | .ok index =>
      if isDisabled index.toUInt32 then .error (.validatorDisabled index) else .ok ()

def onInitialize (s : Storage T) (isDisabled : UInt32 → Bool) :
    Except Panic (Storage T × T.Weight) :=
  match s.currentSlotFromDigests with
  | none => .ok (s, T.reads 1)
  | some newSlot =>
    match checkSlot T s.currentSlot newSlot with
    | .error e => .error e
    | .ok _ =>
      let s := { s with currentSlotValue := some newSlot }
      match s.checkAuthor isDisabled newSlot with
      | .error e => .error e
      | .ok _ => .ok (s, T.readsWrites 2 1)

def findAuthor (s : Storage T) :
    List (ConsensusEngineId × List UInt8) → Except Panic (Option UInt32)
  | [] => .ok none
  | (id, data) :: rest =>
    if id = hotstuffEngineId then
      match T.decodeSlot data with
      | none => .ok none
      | some slot =>
        match rem slot (UInt64.ofNat s.authorities.length) with
        | .error e => .error e
        | .ok index => .ok (some index.toUInt32)
    else s.findAuthor rest

/-- `FindAccountFromAuthorIndex` over an inner lookup of the index. -/
def findAccountFromAuthorIndex (s : Storage T)
    (inner : List (ConsensusEngineId × List UInt8) → Except Panic (Option UInt32))
    (digests : List (ConsensusEngineId × List UInt8)) : Except Panic (Option T.AuthorityId) :=
  match inner digests with
  | .error e => .error e
  | .ok none => .ok none
  | .ok (some index) => .ok (s.authorities[index.toNat]?)

def hotstuffAuthorId (s : Storage T) (digests : List (ConsensusEngineId × List UInt8)) :
    Except Panic (Option T.AuthorityId) :=
  s.findAccountFromAuthorIndex s.findAuthor digests

end Storage

/-- The calls into the pallet; `initializeBlock` is `frame_system` setting the digest of a
new block before the hooks run. -/
inductive Call (T : Config) where
  | initializeAuthorities (authorities : List T.AuthorityId)
  | onGenesisSession (validators : List (T.AccountId × T.AuthorityId))
  | onNewSession (changed : Bool) (validators queued : List (T.AccountId × T.AuthorityId))
  | initializeBlock (digest : List DigestItem)
  | onInitialize (isDisabled : UInt32 → Bool)

namespace Storage

def exec (s : Storage T) : Call T → Except Panic (Storage T)
  | .initializeAuthorities authorities => s.initializeAuthorities authorities
  | .onGenesisSession validators => s.onGenesisSession validators
  | .onNewSession changed validators queued => .ok (s.onNewSession changed validators queued)
  | .initializeBlock digest => .ok { s with digest := digest }
  | .onInitialize isDisabled => (s.onInitialize isDisabled).map Prod.fst

def step (s : Storage T) (c : Call T) : Storage T :=
  match s.exec c with
  | .ok s' => s'
  | .error _ => s

def run (s : Storage T) (calls : List (Call T)) : Storage T := Runs.run step s calls

end Storage

end Pallet

end Hotstuff
