import Hotstuff.Lib.Scale
import Hotstuff.Pallet

/-! The stored authorities over any sequence of calls, the digests that announce them, and
the author that a block's digest stands for. -/
namespace Hotstuff.Pallet

variable {T : Config}

/-! ### The codec of the logs -/

open Scale

inductive LogKind where
  | authoritiesChange | onDisabled
  deriving DecidableEq

/-- The indices that `#[codec(index = ..)]` gives. -/
def LogKind.tag : LogKind → UInt8
  | authoritiesChange => 1
  | onDisabled => 2

def LogKind.ofTag (b : UInt8) : Option LogKind :=
  [authoritiesChange, onDisabled].find? fun kind => kind.tag = b

theorem LogKind.ofTag_tag (kind : LogKind) : ofTag kind.tag = some kind := by
  cases kind <;> rfl

def LogKind.Content (α : Type) : LogKind → Type
  | authoritiesChange => List α
  | onDisabled => UInt64

def LogKind.content {α : Type} (id : Format α) : ∀ kind : LogKind, Format (kind.Content α)
  | authoritiesChange => Format.vec id
  | onDisabled => Format.u64

def consensusLog {α : Type} (id : Format α) : Format (ConsensusLog α) :=
  (Format.variant LogKind.tag LogKind.ofTag LogKind.ofTag_tag (LogKind.content id)).via
    (fun
      | .authoritiesChange authorities => ⟨.authoritiesChange, authorities⟩
      | .onDisabled index => ⟨.onDisabled, index⟩)
    (fun
      | ⟨.authoritiesChange, authorities⟩ => .authoritiesChange authorities
      | ⟨.onDisabled, index⟩ => .onDisabled index)
    fun log => by cases log <;> rfl

/-- A runtime with two authorities at most, on SCALE. -/
abbrev scaleRuntime : Config where
  AuthorityId := UInt8
  AccountId := UInt8
  Weight := Nat
  maxAuthorities := 2
  allowMultipleBlocksPerSlot := false
  reads := fun reads => reads
  readsWrites := fun reads writes => reads + writes
  decodeSlot data := (Format.u64.decode data).map Prod.fst
  encodeLog := (consensusLog Format.u8).encode

namespace Storage

/-! ### What a call can write -/

theorem authorities_some {s : Storage T} {new : BoundedVec T}
    (stored : s.authoritiesValue = some new) : s.authorities = new.val := by
  simp [authorities, stored]

theorem initializeAuthorities_cases (s : Storage T) (list : List T.AuthorityId) :
    s.initializeAuthorities list = .ok s ∨ (∃ e, s.initializeAuthorities list = .error e) ∨
      ∃ new : BoundedVec T, new.val = list ∧ list ≠ [] ∧
        s.initializeAuthorities list = .ok { s with authoritiesValue := some new } := by
  unfold initializeAuthorities
  split
  · exact .inl rfl
  · rename_i filled
    split
    · exact .inr (.inl ⟨_, rfl⟩)
    · split
      · rename_i fits
        apply Or.inr
        apply Or.inr
        exact ⟨⟨list, fits⟩, rfl, by simpa using filled, rfl⟩
      · exact .inr (.inl ⟨_, rfl⟩)

/-- A session either leaves the storage alone, or puts the truncated keys and logs them. -/
theorem onNewSession_cases (s : Storage T) (changed : Bool)
    (validators queued : List (T.AccountId × T.AuthorityId)) :
    let next := BoundedVec.truncateFrom (validators.map Prod.snd)
    (s.onNewSession changed validators queued = s ∧
        ¬ (changed ∧ s.authorities ≠ validators.map Prod.snd ∧ next.val ≠ [])) ∨
      (s.onNewSession changed validators queued =
          { s with authoritiesValue := some next }.depositLog (authoritiesLog next.val) ∧
        changed ∧ s.authorities ≠ validators.map Prod.snd ∧ next.val ≠ []) := by
  intro next
  unfold onNewSession
  split
  · rename_i asked
    dsimp only
    split
    · rename_i differs
      unfold changeAuthorities
      split
      · rename_i empty
        exact .inl ⟨rfl, fun h => h.2.2 (List.isEmpty_iff.mp empty)⟩
      · rename_i filled
        exact .inr ⟨rfl, asked, differs, fun empty => filled (List.isEmpty_iff.mpr empty)⟩
    · rename_i same
      exact .inl ⟨rfl, fun h => same h.2.1⟩
  · rename_i unasked
    exact .inl ⟨rfl, fun h => unasked h.1⟩

theorem onInitialize_authorities {s s' : Storage T} {isDisabled : UInt32 → Bool} {w : T.Weight}
    (accepted : s.onInitialize isDisabled = .ok (s', w)) :
    s'.authoritiesValue = s.authoritiesValue ∧ s'.digest = s.digest := by
  unfold onInitialize at accepted
  split at accepted
  · cases accepted
    exact ⟨rfl, rfl⟩
  · split at accepted
    · cases accepted
    · dsimp only at accepted
      split at accepted
      · cases accepted
      · cases accepted
        exact ⟨rfl, rfl⟩

theorem step_authorities (s : Storage T) (c : Call T) :
    (s.step c).authoritiesValue = s.authoritiesValue ∨
      ∃ new : BoundedVec T, new.val ≠ [] ∧ (s.step c).authoritiesValue = some new := by
  have started (list : List T.AuthorityId) :
      (s.step (.initializeAuthorities list)).authoritiesValue = s.authoritiesValue ∨
        ∃ new : BoundedVec T, new.val ≠ [] ∧
          (s.step (.initializeAuthorities list)).authoritiesValue = some new := by
    rcases s.initializeAuthorities_cases list with h | ⟨e, h⟩ | ⟨new, same, filled, h⟩
    · simp [step, exec, h]
    · simp [step, exec, h]
    · subst same
      simp [step, exec, h, filled]
  cases c with
  | initializeAuthorities list => exact started list
  | onGenesisSession validators => exact started (validators.map Prod.snd)
  | onNewSession changed validators queued =>
    rcases s.onNewSession_cases changed validators queued with ⟨h, _⟩ | ⟨h, _, _, filled⟩
    · simp [step, exec, h]
    · exact .inr ⟨_, filled, by simp [step, exec, h, depositLog]⟩
  | initializeBlock digest => exact .inl rfl
  | onInitialize isDisabled =>
    apply Or.inl
    simp only [step, exec]
    cases accepted : s.onInitialize isDisabled with
    | error e => rfl
    | ok r => exact (onInitialize_authorities accepted).1

theorem step_keeps_authorities {s : Storage T} (filled : s.authorities ≠ []) (c : Call T) :
    (s.step c).authorities ≠ [] := by
  rcases s.step_authorities c with same | ⟨new, ne, put⟩
  · simpa [authorities, same] using filled
  · simpa [authorities_some put] using ne

theorem run_keeps_authorities {s : Storage T} (filled : s.authorities ≠ [])
    (calls : List (Call T)) : (s.run calls).authorities ≠ [] := by
  have keep (s : Storage T) (c : Call T) (h : s.authorities ≠ []) :
      (s.step c).authorities ≠ [] := step_keeps_authorities h c
  exact Runs.invariant step keep filled calls

/-! ### Sessions -/

/-- The digest of the block has got an `AuthoritiesChange` with this list as its last item. -/
def Deposited (s s' : Storage T) (list : List T.AuthorityId) : Prop :=
  s'.digest = s.digest ++ [authoritiesLog list]

instance (s s' : Storage T) (list : List T.AuthorityId) : Decidable (Deposited s s' list) :=
  inferInstanceAs (Decidable (_ = _))

/-- A list beyond the bound whose truncation is what the storage holds already: the source
compares before it truncates. -/
def Repeats (s : Storage T) (changed : Bool)
    (validators : List (T.AccountId × T.AuthorityId)) : Prop :=
  changed ∧ T.maxAuthorities.toNat < validators.length ∧ s.authorities ≠ [] ∧
    (validators.map Prod.snd).take T.maxAuthorities.toNat = s.authorities

theorem not_deposited (s : Storage T) (list : List T.AuthorityId) : ¬ Deposited s s list := by
  simp [Deposited]

theorem differs_of_beyond {s : Storage T} {keys : List T.AuthorityId}
    (same : keys.take T.maxAuthorities.toNat = s.authorities) :
    s.authorities ≠ keys ↔ T.maxAuthorities.toNat < keys.length := by
  rw [← same, ne_eq, List.take_eq_self_iff]
  omega

theorem onNewSession_deposits_iff (s : Storage T) (changed : Bool)
    (validators queued : List (T.AccountId × T.AuthorityId)) :
    ((∃ list, Deposited s (s.onNewSession changed validators queued) list) ↔
        (s.onNewSession changed validators queued).authorities ≠ s.authorities) ↔
      ¬ s.Repeats changed validators := by
  have beyond := @differs_of_beyond T s (validators.map Prod.snd)
  simp only [List.length_map] at beyond
  rcases s.onNewSession_cases changed validators queued with ⟨h, idle⟩ | ⟨h, asked, differs, filled⟩
  · -- nothing is written, and a repetition would have been written
    have quiet : ¬ s.Repeats changed validators := by
      rintro ⟨asked, long, nonempty, same⟩
      exact idle ⟨asked, (beyond same).mpr long, by simpa [BoundedVec.truncateFrom, same]⟩
    simp [h, not_deposited, quiet]
  · have logged : ∃ list, Deposited s (s.onNewSession changed validators queued) list :=
      ⟨_, by rw [h]; rfl⟩
    have stored : (s.onNewSession changed validators queued).authorities =
        (validators.map Prod.snd).take T.maxAuthorities.toNat := by
      rw [h]; rfl
    simp only [logged, stored, true_iff]
    constructor
    · rintro changes ⟨_, _, _, same⟩
      exact changes same
    · intro fresh same
      apply fresh
      exact ⟨asked, (beyond same).mp differs, same ▸ filled, same⟩

theorem onNewSession_deposited {s : Storage T} {changed : Bool}
    {validators queued : List (T.AccountId × T.AuthorityId)} {list : List T.AuthorityId}
    (logged : Deposited s (s.onNewSession changed validators queued) list) :
    (s.onNewSession changed validators queued).authorities =
        (validators.map Prod.snd).take T.maxAuthorities.toNat ∧
      Deposited s (s.onNewSession changed validators queued)
        (s.onNewSession changed validators queued).authorities := by
  rcases s.onNewSession_cases changed validators queued with ⟨h, _⟩ | ⟨h, _⟩
  · rw [h] at logged
    exact absurd logged (not_deposited s list)
  · rw [h]
    exact ⟨rfl, rfl⟩

/-- Storage and log in step over a sequence of calls. -/
structure InStep (s : Storage T) (calls : List (Call T)) : Prop where
  deposits_iff : ∀ before changed validators queued,
    before ++ [.onNewSession changed validators queued] <+: calls →
      ((∃ list, Deposited (s.run before)
          (s.run (before ++ [.onNewSession changed validators queued])) list) ↔
        (s.run (before ++ [.onNewSession changed validators queued])).authorities ≠
          (s.run before).authorities)
  deposited : ∀ before changed validators queued list,
    before ++ [.onNewSession changed validators queued] <+: calls →
      let s' := s.run (before ++ [.onNewSession changed validators queued])
      Deposited (s.run before) s' list → Deposited (s.run before) s' s'.authorities ∧
        s'.authorities = (validators.map Prod.snd).take T.maxAuthorities.toNat
  nonempty : ∀ before after, before <+: after → after <+: calls →
    (s.run before).authorities ≠ [] → (s.run after).authorities ≠ []

theorem run_onNewSession (s : Storage T) (before : List (Call T)) (changed : Bool)
    (validators queued : List (T.AccountId × T.AuthorityId)) :
    s.run (before ++ [.onNewSession changed validators queued]) =
      (s.run before).onNewSession changed validators queued :=
  Runs.run_snoc step s before _

theorem inStep_iff (s : Storage T) (calls : List (Call T)) :
    s.InStep calls ↔ ∀ before changed validators queued,
      before ++ [.onNewSession changed validators queued] <+: calls →
        ¬ (s.run before).Repeats changed validators := by
  constructor
  · intro inStep before changed validators queued here
    have balance := inStep.deposits_iff before changed validators queued here
    rw [run_onNewSession] at balance
    exact (onNewSession_deposits_iff _ changed validators queued).mp balance
  · intro fresh
    constructor
    · intro before changed validators queued here
      rw [run_onNewSession]
      apply (onNewSession_deposits_iff _ changed validators queued).mpr
      exact fresh before changed validators queued here
    · intro before changed validators queued list here s' logged
      simp only [s', run_onNewSession] at logged ⊢
      exact (onNewSession_deposited logged).symm
    · rintro before after ⟨rest, rfl⟩ _ filled
      rw [run, Runs.run_append]
      exact run_keeps_authorities filled rest

/-- The third key is cut off, what is left is stored already, and it is logged again. -/
theorem overlong_session_out_of_step :
    ¬ (genesis : Storage scaleRuntime).InStep [.initializeAuthorities [1, 2],
      .onNewSession true [(11, 1), (12, 2), (13, 3)] []] := by
  intro inStep
  have balance := inStep.deposits_iff [.initializeAuthorities [1, 2]] true _ _
    (List.prefix_refl _)
  apply balance.mp
  · exact ⟨[1, 2], by decide +kernel⟩
  · decide +kernel

/-! ### The author of a block -/

/-- Only non-empty lists are ever put, so a stored value has a length to divide by. -/
def Filled (s : Storage T) : Prop :=
  ∀ list, s.authoritiesValue = some list → list.val ≠ []

theorem run_filled (calls : List (Call T)) : (genesis.run calls : Storage T).Filled := by
  have keep (s : Storage T) (c : Call T) (filled : s.Filled) : (s.step c).Filled := by
    intro list stored
    rcases s.step_authorities c with same | ⟨new, ne, put⟩
    · exact filled list (same ▸ stored)
    · rw [put] at stored
      cases stored
      exact ne
  apply Runs.invariant step keep
  intro list stored
  cases stored

theorem length_authorities_lt (s : Storage T) : s.authorities.length < UInt32.size := by
  unfold authorities
  cases s.authoritiesValue with
  | none => simp
  | some list => exact Nat.lt_of_le_of_lt list.property T.maxAuthorities.toNat_lt_size

theorem toNat_length (s : Storage T) :
    (UInt64.ofNat s.authorities.length).toNat = s.authorities.length := by
  apply UInt64.toNat_ofNat_of_lt'
  exact Nat.lt_trans s.length_authorities_lt (by decide)

theorem rem_length {s : Storage T} (filled : s.authorities ≠ []) (slot : Slot) :
    ∃ index : UInt64, rem slot (UInt64.ofNat s.authorities.length) = .ok index ∧
      index.toUInt32.toNat = slot.toNat % s.authorities.length := by
  have positive : 0 < s.authorities.length := List.length_pos_iff.mpr filled
  have nonzero : UInt64.ofNat s.authorities.length ≠ 0 := by
    intro zero
    have := congrArg UInt64.toNat zero
    simp only [toNat_length, UInt64.toNat_zero] at this
    omega
  refine ⟨slot % UInt64.ofNat s.authorities.length, if_neg nonzero, ?_⟩
  have below := Nat.mod_lt slot.toNat positive
  have small := s.length_authorities_lt
  simp only [UInt64.toNat_toUInt32, UInt64.toNat_mod, toNat_length]
  apply Nat.mod_eq_of_lt
  exact Nat.lt_trans below small

theorem decodeLen_eq {s : Storage T} (filled : s.authorities ≠ []) :
    s.decodeLen = some s.authorities.length := by
  unfold decodeLen authorities at *
  cases h : s.authoritiesValue with
  | none => simp [h] at filled
  | some list => rfl

/-- The pre-runtime item both loops stop at, decoded. -/
def announcedSlot (T : Config) (digests : List (ConsensusEngineId × List UInt8)) :
    Option Slot :=
  (digests.find? fun item => item.1 = hotstuffEngineId).bind fun item => T.decodeSlot item.2

theorem slotFrom_eq (digests : List (ConsensusEngineId × List UInt8)) :
    slotFrom (T := T) digests = announcedSlot T digests := by
  induction digests with
  | nil => rfl
  | cons item rest ih =>
    by_cases own : item.1 = hotstuffEngineId
    · simp [slotFrom, announcedSlot, own]
    · simp [slotFrom, ih, announcedSlot, own]

theorem findAuthor_eq (s : Storage T) (digests : List (ConsensusEngineId × List UInt8)) :
    s.findAuthor digests = (announcedSlot T digests).elim (.ok none) fun slot =>
      (rem slot (UInt64.ofNat s.authorities.length)).map fun index => some index.toUInt32 := by
  induction digests with
  | nil => rfl
  | cons item rest ih =>
    by_cases own : item.1 = hotstuffEngineId
    · simp only [findAuthor, announcedSlot, own, ↓reduceIte, decide_true, List.find?_cons_of_pos,
        Option.bind_some]
      cases T.decodeSlot item.2 with
      | none => rfl
      | some slot =>
        dsimp only [Option.elim]
        cases rem slot (UInt64.ofNat s.authorities.length) <;> rfl
    · simpa [findAuthor, announcedSlot, own] using ih

theorem findAuthor_remainder_iff (s : Storage T)
    (digests : List (ConsensusEngineId × List UInt8)) :
    s.findAuthor digests ≠ .error .remainderByZero ↔
      s.authorities ≠ [] ∨ announcedSlot T digests = none := by
  rw [findAuthor_eq]
  cases announced : announcedSlot T digests with
  | none => simp
  | some slot =>
    by_cases empty : s.authorities = []
    · simp [empty, rem, Except.map]
    · obtain ⟨index, found, _⟩ := rem_length empty slot
      simp [empty, found, Except.map]

theorem checkSlot_remainder (current new : Slot) :
    checkSlot T current new ≠ .error .remainderByZero := by
  unfold checkSlot
  grind

/-- The hook divides by a stored length only, and stored lists are not empty. -/
theorem checkAuthor_remainder {s : Storage T} (filled : s.Filled) (isDisabled : UInt32 → Bool)
    (slot : Slot) : s.checkAuthor isDisabled slot ≠ .error .remainderByZero := by
  unfold checkAuthor
  cases stored : s.authoritiesValue with
  | none => simp [decodeLen, stored]
  | some list =>
    have nonempty : s.authorities ≠ [] := by
      simpa [authorities_some stored] using filled list stored
    obtain ⟨index, found, _⟩ := rem_length nonempty slot
    simp only [decodeLen_eq nonempty, found]
    split <;> simp

theorem onInitialize_remainder {s : Storage T} (filled : s.Filled) (isDisabled : UInt32 → Bool) :
    s.onInitialize isDisabled ≠ .error .remainderByZero := by
  intro panics
  unfold onInitialize at panics
  split at panics
  · cases panics
  · rename_i slot _
    split at panics
    · rename_i e refused
      cases panics
      exact checkSlot_remainder _ _ refused
    · dsimp only at panics
      split at panics
      · rename_i e refused
        cases panics
        apply checkAuthor_remainder _ isDisabled slot refused
        exact filled
      · cases panics

/-- A block whose slot is accepted is checked against one index. -/
theorem onInitialize_accepted {s s' : Storage T} {isDisabled : UInt32 → Bool} {w : T.Weight}
    {slot : Slot} (filled : s.authorities ≠ []) (announced : s.currentSlotFromDigests = some slot)
    (accepted : s.onInitialize isDisabled = .ok (s', w)) :
    s' = { s with currentSlotValue := some slot } ∧
      ∃ index : UInt64, rem slot (UInt64.ofNat s.authorities.length) = .ok index ∧
        ∀ isDisabled', s.onInitialize isDisabled' = .ok (s', w) ↔
          isDisabled' index.toUInt32 = false := by
  obtain ⟨index, found, _⟩ := rem_length filled slot
  have length : { s with currentSlotValue := some slot }.decodeLen = some s.authorities.length :=
    decodeLen_eq (s := { s with currentSlotValue := some slot }) filled
  simp only [onInitialize, announced, checkAuthor, length, found] at accepted ⊢
  split at accepted
  · cases accepted
  · split at accepted
    · cases accepted
    · cases accepted
      refine ⟨rfl, index, rfl, fun isDisabled' => ?_⟩
      cases isDisabled' index.toUInt32 <;> simp

/-- Block initialization and the author lookups on one storage. -/
structure AuthorsAgree (s : Storage T) (digests : List (ConsensusEngineId × List UInt8)) :
    Prop where
  initialize_remainder : ∀ isDisabled, s.onInitialize isDisabled ≠ .error .remainderByZero
  find_remainder : s.findAuthor digests ≠ .error .remainderByZero
  agree : ∀ isDisabled slot s' w, s.authorities ≠ [] → s.currentSlotFromDigests = some slot →
    s.onInitialize isDisabled = .ok (s', w) →
      ∃ index : UInt32, index.toNat = slot.toNat % s.authorities.length ∧
        s'.findAuthor s.preRuntime = .ok (some index) ∧
        (∃ id, s.authorities[index.toNat]? = some id ∧
          s'.hotstuffAuthorId s.preRuntime = .ok (some id)) ∧
        (∀ isDisabled', s.onInitialize isDisabled' = .ok (s', w) ↔ isDisabled' index = false) ∧
        s'.currentSlot = slot

theorem authors_agree_iff (calls : List (Call T))
    (digests : List (ConsensusEngineId × List UInt8)) :
    AuthorsAgree (genesis.run calls : Storage T) digests ↔
      (genesis.run calls : Storage T).authorities ≠ [] ∨ announcedSlot T digests = none := by
  generalize reached : (genesis.run calls : Storage T) = s
  have filled : s.Filled := reached ▸ run_filled calls
  constructor
  · intro agree
    exact (findAuthor_remainder_iff s digests).mp agree.find_remainder
  · intro condition
    constructor
    · exact onInitialize_remainder filled
    · exact (findAuthor_remainder_iff s digests).mpr condition
    · intro isDisabled slot s' w nonempty announced accepted
      obtain ⟨same, index, found, checked⟩ := onInitialize_accepted nonempty announced accepted
      obtain ⟨index', found', value⟩ := rem_length nonempty slot
      have one : index' = index := Except.ok.inj (found'.symm.trans found)
      subst one
      have author : s'.findAuthor s.preRuntime = .ok (some index'.toUInt32) := by
        have slots : announcedSlot T s.preRuntime = some slot := by
          rw [← announced, currentSlotFromDigests, slotFrom_eq]
        subst same
        rw [findAuthor_eq, slots]
        change (rem slot (UInt64.ofNat s.authorities.length)).map _ = _
        rw [found]
        rfl
      have below : index'.toUInt32.toNat < s.authorities.length := by
        rw [value]
        exact Nat.mod_lt _ (List.length_pos_iff.mpr nonempty)
      refine ⟨index'.toUInt32, value, author, ⟨_, List.getElem?_eq_getElem below, ?_⟩, checked, ?_⟩
      · simp only [hotstuffAuthorId, findAccountFromAuthorIndex, author]
        subst same
        exact congrArg _ (List.getElem?_eq_getElem below)
      · subst same
        rfl

/-- A genesis without authorities and a digest with a slot. -/
theorem find_author_without_authorities :
    ¬ AuthorsAgree (genesis.run [.initializeAuthorities []] : Storage scaleRuntime)
      [(hotstuffEngineId, [7, 0, 0, 0, 0, 0, 0, 0])] := by
  intro agree
  apply agree.find_remainder
  decide +kernel

end Storage

end Hotstuff.Pallet
