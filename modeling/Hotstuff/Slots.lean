import Hotstuff.Headers

/-! The slots of a chain of blocks: they rise, they run out, and they decide which blocks are
taken. -/
namespace Hotstuff.Pallet

open Scale

variable {T : Config} {clock : Clock}

/-! ### The slots of a ledger -/

theorem Later.le {current new : Slot} (later : Later T current new) : current ≤ new := by
  unfold Later at later
  split at later
  · exact later
  · exact UInt64.le_of_lt later

theorem Later.of_le {first current new : Slot} (le : first ≤ current)
    (later : Later T current new) : Later T first new := by
  unfold Later at later ⊢
  split at later
  · rename_i several
    rw [if_pos several]
    exact UInt64.le_trans le later
  · rename_i one
    rw [if_neg one]
    exact UInt64.lt_of_le_of_lt le later

theorem exists_later {current : Slot}
    (left : ¬ T.allowMultipleBlocksPerSlot = true → current < 18446744073709551615) :
    ∃ new, Later T current new := by
  unfold Later
  by_cases several : T.allowMultipleBlocksPerSlot = true
  · exact ⟨current, by rw [if_pos several]; exact UInt64.le_refl _⟩
  · have below := left several
    exact ⟨current + 1, by rw [if_neg several]; grind⟩

namespace Ledger

variable {l : Ledger T}

theorem slots_snoc {b : Block T clock} {s : Storage T} (accepted : l.storage.execute b = .ok s) :
    (⟨s, l.headers ++ [s.digest]⟩ : Ledger T).slots =
      l.slots ++ (Storage.headerSlot T b.header).toList := by
  have same : Storage.slotFrom (T := T) (s.digest.filterMap DigestItem.asPreRuntime) =
      Storage.headerSlot T b.header := by
    rw [Storage.headerSlot, ← (Storage.execute_ok accepted).preRuntime, Storage.preRuntime]
  rw [slots, slots, List.filterMap_append, List.filterMap_cons, same]
  cases Storage.headerSlot T b.header <;> rfl

/-- The slots rise from zero to the current one, which is what the digest says if it says any. -/
structure Slotted (l : Ledger T) : Prop where
  rise : (0 :: l.slots).Pairwise (Later T)
  current : l.storage.currentSlot = l.slots.getLastD 0
  below : ∀ slot ∈ l.slots, slot ≤ l.storage.currentSlot
  digest : ∀ slot, l.storage.currentSlotFromDigests = some slot → slot = l.storage.currentSlot

theorem Slotted.silent (slotted : Slotted l) {b : Block T clock} {s : Storage T}
    (executed : l.storage.execute b = .ok s) (silent : Storage.headerSlot T b.header = none)
    (current : s.currentSlot = l.storage.currentSlot) : Slotted ⟨s, l.headers ++ [s.digest]⟩ := by
  have slots := slots_snoc executed
  rw [silent, Option.toList_none, List.append_nil] at slots
  refine ⟨slots ▸ slotted.rise, ?_, ?_, ?_⟩
  · rw [slots]
    exact current.trans slotted.current
  · rw [slots]
    exact fun slot member => current ▸ slotted.below slot member
  · intro slot told
    rw [Storage.currentSlotFromDigests, (Storage.execute_ok executed).preRuntime] at told
    cases silent.symm.trans told

theorem Slotted.announced (slotted : Slotted l) {b : Block T clock} {s : Storage T}
    (executed : l.storage.execute b = .ok s)
    (announced : Storage.headerSlot T b.header = some s.currentSlot)
    (later : Later T l.storage.currentSlot s.currentSlot) :
    Slotted ⟨s, l.headers ++ [s.digest]⟩ := by
  have slots := slots_snoc executed
  rw [announced, Option.toList_some] at slots
  have first : (0 : Slot) ≤ l.storage.currentSlot := UInt64.zero_le
  refine ⟨?_, ?_, ?_, ?_⟩
  · rw [slots, ← List.cons_append]
    refine Runs.ordered_snoc slotted.rise fun earlier member => ?_
    rcases List.mem_cons.mp member with rfl | old
    · exact later.of_le first
    · exact later.of_le (slotted.below earlier old)
  · rw [slots, List.getLastD_concat]
  · rw [slots]
    intro earlier member
    rcases List.mem_append.mp member with old | new
    · exact UInt64.le_trans (slotted.below earlier old) later.le
    · rw [List.mem_singleton.mp new]
      exact UInt64.le_refl _
  · intro slot told
    rw [Storage.currentSlotFromDigests, (Storage.execute_ok executed).preRuntime] at told
    exact Option.some.inj (told.symm.trans announced)

theorem Slotted.accept (slotted : Slotted l) {b : Block T clock} {s : Storage T}
    (executed : l.storage.execute b = .ok s) : Slotted ⟨s, l.headers ++ [s.digest]⟩ := by
  rcases (Storage.execute_ok executed).slot with ⟨silent, same⟩ | ⟨slot, announced, later, put⟩
  · refine slotted.silent executed silent ?_
    rw [Storage.currentSlot, same, Storage.currentSlot]
  · have current : s.currentSlot = slot := by rw [Storage.currentSlot, put, Option.getD_some]
    subst current
    exact slotted.announced executed announced later

theorem Genesis.slotted {authorities : List T.AuthorityId} (genesis : Genesis authorities l) :
    Slotted l := by
  obtain ⟨slot, digest, _⟩ := genesis.storage
  have none : l.slots = [] := by rw [slots, genesis.headers]; rfl
  refine ⟨?_, ?_, ?_, ?_⟩
  · rw [none]
    exact List.pairwise_singleton _ _
  · rw [none, Storage.currentSlot, slot]
    rfl
  · rw [none]
    exact List.forall_mem_nil _
  · intro slot' told
    rw [Storage.currentSlotFromDigests, Storage.preRuntime, digest] at told
    cases told

theorem Slotted.run (slotted : Slotted l) (blocks : List (Block T clock)) :
    Slotted (l.run blocks) :=
  run_invariant slotted (fun _ _ _ slotted executed => slotted.accept executed) blocks

end Ledger

/-- Over every chain of blocks, panicking ones dropped, the slots announced in the headers rise from
zero, strictly unless the runtime allows several blocks in one slot, and the stored slot is the last
of them. -/
theorem slots_rise (authorities : List T.AuthorityId) (l : Ledger T)
    (genesis : l.Genesis authorities) (blocks : List (Block T clock)) :
    (T.allowMultipleBlocksPerSlot = false → (0 :: (l.run blocks).slots).Pairwise (· < ·)) ∧
      (0 :: (l.run blocks).slots).Pairwise (· ≤ ·) ∧
      (l.run blocks).storage.currentSlot = (l.run blocks).slots.getLastD 0 := by
  have slotted := genesis.slotted.run blocks
  refine ⟨fun one => ?_, slotted.rise.imp Later.le, slotted.current⟩
  refine slotted.rise.imp fun later => ?_
  rwa [Later, one] at later

/- The second block repeats the slot of the first. -/
theorem slots_rise_repeated :
    let b := fun slot : Slot =>
      (⟨[hotstuffPreDigest slot], fun _ => false, [], []⟩ : Block scaleRuntime seconds)
    (scaleLedger.run [b 5, b 5, b 9]).slots = [5, 9] ∧
      (scaleLedger.run [b 5, b 5, b 9]).storage.currentSlot = 9 := by
  intro b
  have slots : (scaleLedger.run [b 5, b 5, b 9]).slots = [5, 9] := by decide +kernel
  have current := (slots_rise (T := scaleRuntime) [1, 2] scaleLedger scaleLedger_genesis
    [b 5, b 5, b 9]).2.2
  rw [slots] at current
  exact ⟨slots, current⟩

/-! ### Authors and exhausted slots -/

namespace Storage

/-- The author whose turn a slot is. -/
def authorIndex (s : Storage T) (slot : Slot) : UInt32 :=
  (slot % UInt64.ofNat s.authorities.length).toUInt32

variable {s : Storage T}

theorem rem_authorities (filled : s.authorities ≠ []) (slot : Slot) :
    rem slot (UInt64.ofNat s.authorities.length) =
      .ok (slot % UInt64.ofNat s.authorities.length) := by
  obtain ⟨index, found, _⟩ := rem_length filled slot
  unfold rem at found ⊢
  split at found
  · cases found
  · rename_i positive
    exact if_neg positive

theorem checkAuthor_ok_iff (filled : s.authorities ≠ []) (isDisabled : UInt32 → Bool)
    (slot : Slot) :
    s.checkAuthor isDisabled slot = .ok () ↔ isDisabled (s.authorIndex slot) = false := by
  unfold checkAuthor
  simp only [decodeLen_eq filled, rem_authorities filled, authorIndex]
  cases isDisabled (slot % UInt64.ofNat s.authorities.length).toUInt32 <;> simp

theorem onInitialize_ok_iff (filled : s.authorities ≠ []) {slot : Slot}
    (announced : s.currentSlotFromDigests = some slot) (isDisabled : UInt32 → Bool)
    (s' : Storage T) : (∃ w, s.onInitialize isDisabled = .ok (s', w)) ↔
      Later T s.currentSlot slot ∧ isDisabled (s.authorIndex slot) = false ∧
        s' = { s with currentSlotValue := some slot } := by
  have author := checkAuthor_ok_iff (s := { s with currentSlotValue := some slot }) filled
    isDisabled slot
  constructor
  · rintro ⟨w, accepted⟩
    rcases onInitialize_ok accepted with ⟨silent, _⟩ | ⟨slot', again, later, rfl, enabled⟩
    · rw [announced] at silent
      cases silent
    · cases announced.symm.trans again
      exact ⟨later, author.mp enabled, rfl⟩
  · rintro ⟨later, enabled, rfl⟩
    refine ⟨T.readsWrites 2 1, ?_⟩
    simp only [onInitialize, announced, (checkSlot_ok _ _).mpr later, author.mpr enabled]

/-- What a block must be for the pallet to take it: its timestamps lie in the slot they find, and a
slot that it announces is a later one whose author, among the authorities the hook finds, is not
disabled. -/
structure Accepts (s : Storage T) (b : Block T clock) : Prop where
  before : ∀ moment, .onTimestampSet moment ∈ b.before → clock.InSlot s.currentSlot moment
  later : ∀ slot ∈ headerSlot T b.header, Later T s.currentSlot slot
  enabled : ∀ slot ∈ headerSlot T b.header,
    b.isDisabled ((s.atHook b).authorIndex slot) = false
  after : ∀ moment, .onTimestampSet moment ∈ b.after →
    clock.InSlot ((headerSlot T b.header).getD s.currentSlot) moment

/-- The storage behind the hook. -/
def afterHook (s : Storage T) (b : Block T clock) : Storage T :=
  { s.atHook b with
    currentSlotValue := (headerSlot T b.header).or (s.atHook b).currentSlotValue }

theorem afterHook_currentSlot (s : Storage T) (b : Block T clock) :
    (s.afterHook b).currentSlot = (headerSlot T b.header).getD s.currentSlot := by
  have current : (s.atHook b).currentSlot = s.currentSlot := (s.atHook_beside b).currentSlot
  rw [← current, currentSlot, afterHook]
  cases headerSlot T b.header <;> rfl

theorem initialize_iff (filled : s.authorities ≠ []) (b : Block T clock) (middle : Storage T) :
    (∃ w, (s.atHook b).onInitialize b.isDisabled = .ok (middle, w)) ↔
      (∀ slot ∈ headerSlot T b.header, Later T s.currentSlot slot ∧
        b.isDisabled ((s.atHook b).authorIndex slot) = false) ∧ middle = s.afterHook b := by
  have beside := s.atHook_beside b
  have slots := s.atHook_slot b
  cases announced : headerSlot T b.header with
  | none =>
    have silent : s.afterHook b = s.atHook b := by rw [afterHook, announced, Option.none_or]
    rw [silent]
    constructor
    · rintro ⟨w, accepted⟩
      rcases onInitialize_ok accepted with ⟨_, same⟩ | ⟨slot, told, _⟩
      · exact ⟨by simp, same⟩
      · rw [slots, announced] at told
        cases told
    · rintro ⟨_, rfl⟩
      exact ⟨T.reads 1, by simp only [onInitialize, slots, announced]⟩
  | some slot =>
    have put : s.afterHook b = { s.atHook b with currentSlotValue := some slot } := by
      rw [afterHook, announced, Option.some_or]
    have current : (s.atHook b).currentSlot = s.currentSlot := beside.currentSlot
    rw [onInitialize_ok_iff (beside.filled filled) (slots.trans announced), put, current]
    simp [and_assoc]

theorem execute_ok_iff (filled : s.authorities ≠ []) (b : Block T clock) (s' : Storage T) :
    s.execute b = .ok s' ↔ s.Accepts b ∧ s' = (s.afterHook b).writes b.after := by
  rw [execute_iff]
  constructor
  · rintro ⟨before, middle, w, initialized, after, rfl⟩
    obtain ⟨hook, rfl⟩ := (initialize_iff filled b middle).mp ⟨w, initialized⟩
    rw [afterHook_currentSlot] at after
    exact ⟨⟨before, fun slot told => (hook slot told).1, fun slot told => (hook slot told).2,
      after⟩, rfl⟩
  · rintro ⟨accepts, rfl⟩
    obtain ⟨w, initialized⟩ := (initialize_iff filled b _).mpr
      ⟨fun slot told => ⟨accepts.later slot told, accepts.enabled slot told⟩, rfl⟩
    refine ⟨accepts.before, _, w, initialized, ?_, rfl⟩
    rw [afterHook_currentSlot]
    exact accepts.after

theorem doTryState_eq (filled : s.authorities ≠ []) (isDisabled : UInt32 → Bool) :
    s.doTryState isDisabled =
      let current := s.currentSlotFromDigests.getD s.currentSlot
      if ¬ T.allowMultipleBlocksPerSlot ∧ ¬ current < 18446744073709551615 then .error slotExhausted
      else if isDisabled (s.authorIndex current) then .error authorDisabled
      else .ok () := by
  have positive : s.authorities.length ≠ 0 := fun zero => filled (List.length_eq_zero_iff.mp zero)
  unfold doTryState
  simp only [decodeLen_eq filled, if_neg positive]
  rfl

end Storage

namespace Ledger

variable {l : Ledger T}

/-- The last slot there is ends the slots of a ledger. -/
theorem exhausted_run (one : T.allowMultipleBlocksPerSlot = false)
    (top : ¬ l.storage.currentSlot < 18446744073709551615) (later : List (Block T clock)) :
    (l.run later).slots = l.slots := by
  suffices both : (l.run later).slots = l.slots ∧
      ¬ (l.run later).storage.currentSlot < 18446744073709551615 from both.1
  refine run_invariant (P := fun l' => l'.slots = l.slots ∧
    ¬ l'.storage.currentSlot < 18446744073709551615) ⟨rfl, top⟩ ?_ later
  rintro l' b s ⟨sofar, full⟩ executed
  rw [slots_snoc executed]
  rcases (Storage.execute_ok executed).slot with ⟨silent, same⟩ | ⟨slot, _, after, _⟩
  · rw [silent, Option.toList_none, List.append_nil]
    refine ⟨sofar, ?_⟩
    change ¬ s.currentSlot < _
    rw [Storage.currentSlot, same]
    exact full
  · rw [Later, one] at after
    have high : slot ≤ 18446744073709551615 :=
      UInt64.le_iff_toNat_le.mpr (Nat.le_of_lt_succ slot.toNat_lt)
    exact absurd (UInt64.lt_of_lt_of_le after high) full

theorem headerSlot_preDigest (scaled : T.DecodesSlots) (slot : Slot) (front : List DigestItem)
    (others : ∀ data, DigestItem.preRuntime hotstuffEngineId data ∉ front)
    (back : List DigestItem) :
    Storage.headerSlot T (front ++ hotstuffPreDigest slot :: back) = some slot := by
  induction front with
  | nil =>
    have read : Format.u64.decode (Format.u64.encode slot) = some (slot, []) := by
      simpa using Format.u64.decode_encode (Format.u64_fits slot) []
    simp [Storage.headerSlot, hotstuffPreDigest, DigestItem.asPreRuntime, Storage.slotFrom,
      scaled _, read]
  | cons item front ih =>
    have rest := ih fun data member => others data (List.mem_cons_of_mem _ member)
    cases item with
    | preRuntime id data =>
      have other : id ≠ hotstuffEngineId := by
        rintro rfl
        exact others data (List.mem_cons_self ..)
      change Storage.slotFrom (T := T) ((id, data) :: _) = some slot
      rw [Storage.slotFrom, if_neg other]
      exact rest
    | _ => exact rest

/-- As long as there is a slot left, some block can take one. -/
theorem exists_next (scaled : T.DecodesSlots) (filled : l.storage.authorities ≠ []) {slot : Slot}
    (later : Later T l.storage.currentSlot slot) :
    ∃ b : Block T clock, (l.importBlock b).slots = l.slots ++ [slot] := by
  let b : Block T clock := ⟨[hotstuffPreDigest slot], fun _ => false, [], []⟩
  have announced : Storage.headerSlot T b.header = some slot :=
    headerSlot_preDigest scaled slot [] (fun _ => List.not_mem_nil) []
  have accepts : l.storage.Accepts b := by
    refine ⟨by simp [b], ?_, fun _ _ => rfl, by simp [b]⟩
    rw [announced]
    rintro _ ⟨⟩
    exact later
  have executed := (Storage.execute_ok_iff filled b _).mpr ⟨accepts, rfl⟩
  refine ⟨b, ?_⟩
  rw [importBlock_ok executed, slots_snoc executed, announced, Option.toList_some]

end Ledger

/-- On every chain with authorities `do_try_state` finds one of two things wrong. The slots are used
up, exactly if no later chain of blocks announces another one; or the author of the current slot is
disabled. -/
theorem try_state_exact (scaled : T.DecodesSlots) (authorities : List T.AuthorityId)
    (nonempty : authorities ≠ []) (l : Ledger T) (genesis : l.Genesis authorities)
    (blocks : List (Block T clock)) (isDisabled : UInt32 → Bool) :
    let s := (l.run blocks).storage
    (s.doTryState isDisabled = .error Storage.slotExhausted ↔
      ∀ later : List (Block T clock), ((l.run blocks).run later).slots = (l.run blocks).slots) ∧
    (s.doTryState isDisabled ≠ .error Storage.slotExhausted →
      s.doTryState isDisabled = if isDisabled (s.authorIndex s.currentSlot)
        then .error Storage.authorDisabled else .ok ()) := by
  intro s
  have filled : s.authorities ≠ [] := by
    refine Ledger.run_filled ?_ blocks
    rw [genesis.storage.2.2]
    exact nonempty
  have slotted := genesis.slotted.run blocks
  have current : s.currentSlotFromDigests.getD s.currentSlot = s.currentSlot := by
    cases told : s.currentSlotFromDigests with
    | none => rfl
    | some slot => exact slotted.digest slot told
  rw [Storage.doTryState_eq filled]
  dsimp only
  rw [current]
  by_cases exhausted : ¬ T.allowMultipleBlocksPerSlot = true ∧
      ¬ s.currentSlot < 18446744073709551615
  · rw [if_pos exhausted]
    refine ⟨⟨fun _ later => ?_, fun _ => rfl⟩, fun other => absurd rfl other⟩
    exact Ledger.exhausted_run (Bool.eq_false_iff.mpr exhausted.1) exhausted.2 later
  · rw [if_neg exhausted]
    have other : (if isDisabled (s.authorIndex s.currentSlot) = true then
        Except.error Storage.authorDisabled else Except.ok ()) ≠ .error Storage.slotExhausted := by
      split
      · decide
      · nofun
    refine ⟨⟨fun same => absurd same other, fun stuck => ?_⟩, fun _ => rfl⟩
    obtain ⟨slot, later⟩ := exists_later fun one => not_not.mp fun top => exhausted ⟨one, top⟩
    obtain ⟨b, more⟩ : ∃ b : Block T clock,
        ((l.run blocks).importBlock b).slots = (l.run blocks).slots ++ [slot] :=
      Ledger.exists_next scaled filled later
    have same : ((l.run blocks).importBlock b).slots = (l.run blocks).slots := stuck [b]
    rw [more] at same
    simp at same

/- A block in the last slot ends the chain of slots. -/
theorem try_state_exact_last :
    let b : Block scaleRuntime seconds :=
      ⟨[hotstuffPreDigest 18446744073709551615], fun _ => false, [], []⟩
    (scaleLedger.run [b]).storage.doTryState (fun _ => false) = .error Storage.slotExhausted ∧
      ∀ later : List (Block scaleRuntime seconds),
        ((scaleLedger.run [b]).run later).slots = [18446744073709551615] := by
  intro b
  have found : (scaleLedger.run [b]).storage.doTryState (fun _ => false) =
      .error Storage.slotExhausted := by decide +kernel
  have slots : (scaleLedger.run [b]).slots = [18446744073709551615] := by decide +kernel
  have stuck := (try_state_exact (T := scaleRuntime) scaleRuntime_decodesSlots [1, 2] (by decide)
    scaleLedger scaleLedger_genesis [b] fun _ => false).1.mp found
  exact ⟨found, fun later => (stuck later).trans slots⟩

end Hotstuff.Pallet
