import Hotstuff.Traffic

/-! The way of a message into a worker: the bytes of a peer pass the validator, wait as
notifications until the network task is polled, and are handed as messages through a bounded
channel to the task of the worker. -/
namespace Hotstuff

open ConsensusWorker

/-- The size of the channel that `start_hotstuff` makes. -/
def channelCapacity : Nat := 1000

/-- How `try_send` words that the channel is full. -/
def fullError : String := "no available capacity"

/-- The two tasks of `start_hotstuff` and what is between them. -/
structure Endpoint (B : BlockT) where
  node : Node B
  /-- What the gossip engine has put into `message_recv`. -/
  notifications : List (List B.Byte)
  /-- `consensus_msg_rx` -/
  channel : List (ConsensusMessage B)
  /-- The errors `poll` has logged. -/
  errors : List (HotstuffError B)

/-- What can happen next, in any order. The view is the one the validator has when the bytes arrive,
which may be in the middle of a handler. -/
inductive Turn (B : BlockT) where
  | arrive (view : ViewNumber) (data : List B.Byte)
  | poll (ready : Nat)
  | receive
  | timer
  | resume
  | environment (env : Environment B)

variable {B : BlockT}

namespace Endpoint

section Tasks

variable (codec : MessageCodec B)

def validator (view : ViewNumber) : GossipValidator B :=
  ⟨codec.decode, codec.topicName, view⟩

/-- The engine notifies of the messages of a topic that the validator keeps. -/
def notifies (view : ViewNumber) (data : List B.Byte) : Bool :=
  (validator codec view).validate data =
    some (.processAndKeep (validator codec view).gossipTopic)

def incomingMessageHandler (s : Endpoint B) (data : List B.Byte) :
    Endpoint B × Except (HotstuffError B) Unit :=
  match codec.decode data with
  | .error e => (s, .error (.other e))
  | .ok message =>
    if s.channel.length < channelCapacity then
      ({ s with channel := s.channel ++ [message] }, .ok ())
    else (s, .error (.other fullError))

/-- One round of the loop in `poll`. -/
def pollNext (s : Endpoint B) (data : List B.Byte) : Endpoint B :=
  match s.incomingMessageHandler codec data with
  | (s, .ok _) => s
  | (s, .error e) => { s with errors := s.errors ++ [e] }

/-- `poll` takes what the stream has ready; the queue of blocks it polls as well is part of the
surroundings of the worker. -/
def poll (s : Endpoint B) (ready : Nat) : Endpoint B :=
  (s.notifications.take ready).foldl (pollNext codec)
    { s with notifications := s.notifications.drop ready }

def step (s : Endpoint B) : Turn B → Endpoint B
  | .arrive view data =>
    if notifies codec view data then { s with notifications := s.notifications ++ [data] } else s
  | .poll ready => s.poll codec ready
  | .receive =>
    if s.node.pending.isNone then
      match s.channel with
      | [] => s
      | message :: rest => { s with node := s.node.step (.receive message), channel := rest }
    else s
  | .timer => { s with node := s.node.step .timer }
  | .resume => { s with node := s.node.step .resume }
  | .environment env => { s with node := s.node.step (.environment env) }

def start (g : Setup B) : Endpoint B := ⟨g.start, [], [], []⟩

def run (g : Setup B) (turns : List (Turn B)) : Endpoint B :=
  Runs.run (step codec) (start g) turns

theorem run_snoc (g : Setup B) (turns : List (Turn B)) (t : Turn B) :
    run codec g (turns ++ [t]) = (run codec g turns).step codec t :=
  Runs.run_snoc (step codec) (start g) turns t

/-- The bytes of a run that the validator keeps. -/
def arrivals (turns : List (Turn B)) : List (List B.Byte) :=
  turns.filterMap fun
    | .arrive view data => if notifies codec view data then some data else none
    | _ => none

theorem arrivals_snoc (turns : List (Turn B)) (t : Turn B) :
    arrivals codec (turns ++ [t]) = arrivals codec turns ++ arrivals codec [t] :=
  List.filterMap_append

end Tasks

variable {codec : MessageCodec B}

theorem notifies_decodes {view : ViewNumber} {data : List B.Byte}
    (kept : notifies codec view data = true) : ∃ message, codec.decode data = .ok message := by
  have verdict : (validator codec view).validate data =
      some (.processAndKeep (validator codec view).gossipTopic) := of_decide_eq_true kept
  rcases (validate_iff (validator codec view) data _).mp verdict with
    ⟨message, decoded, _⟩ | ⟨_, other⟩
  · exact ⟨message, decoded⟩
  · cases other

theorem arrivals_decode {turns : List (Turn B)} :
    ∀ data ∈ arrivals codec turns, ∃ message, codec.decode data = .ok message := by
  intro data member
  obtain ⟨t, _, here⟩ := List.mem_filterMap.mp member
  cases t with
  | arrive view bytes =>
    dsimp only at here
    split at here
    · rename_i kept
      cases here
      exact notifies_decodes kept
    · cases here
  | _ => cases here

/-! ### Polling -/

theorem foldl_pollNext (items : List (List B.Byte)) (messages : List (ConsensusMessage B))
    (decoded : items.map codec.decode = messages.map .ok) (s : Endpoint B) :
    items.foldl (pollNext codec) s = { s with
      channel := s.channel ++ messages.take (channelCapacity - s.channel.length)
      errors := s.errors ++ List.replicate
        (messages.length - (channelCapacity - s.channel.length)) (.other fullError) } := by
  induction items generalizing messages s with
  | nil =>
    cases messages with
    | nil => simp
    | cons => cases decoded
  | cons data items ih =>
    cases messages with
    | nil => cases decoded
    | cons message messages =>
      obtain ⟨first, others⟩ := List.cons.inj decoded
      rw [List.foldl_cons]
      by_cases room : s.channel.length < channelCapacity
      · have next : s.pollNext codec data = { s with channel := s.channel ++ [message] } := by
          simp only [pollNext, incomingMessageHandler, first, if_pos room]
        obtain ⟨free, some⟩ : ∃ free, channelCapacity - s.channel.length = free + 1 :=
          ⟨channelCapacity - s.channel.length - 1, by omega⟩
        have less : channelCapacity - (s.channel ++ [message]).length = free := by
          rw [List.length_append, List.length_singleton]
          omega
        rw [next, ih messages others]
        dsimp only
        rw [less, some, List.take_succ_cons, List.append_assoc, List.singleton_append,
          List.length_cons, Nat.add_sub_add_right]
      · have next : s.pollNext codec data =
            { s with errors := s.errors ++ [.other fullError] } := by
          simp only [pollNext, incomingMessageHandler, first, if_neg room]
        have none : channelCapacity - s.channel.length = 0 := by omega
        rw [next, ih messages others]
        dsimp only
        rw [none, List.take_zero, List.take_zero, Nat.sub_zero, Nat.sub_zero, List.length_cons,
          List.replicate_succ, List.append_assoc, List.singleton_append]

theorem poll_all (s : Endpoint B) {messages : List (ConsensusMessage B)} {ready : Nat}
    (decoded : s.notifications.map codec.decode = messages.map .ok)
    (every : s.notifications.length ≤ ready)
    (room : s.channel.length + messages.length ≤ channelCapacity) :
    s.poll codec ready = { s with notifications := [], channel := s.channel ++ messages } := by
  have space : messages.length ≤ channelCapacity - s.channel.length := by omega
  rw [poll, List.take_of_length_le every, List.drop_of_length_le every,
    foldl_pollNext _ messages decoded]
  dsimp only
  rw [List.take_of_length_le space, Nat.sub_eq_zero_of_le space, List.replicate_zero,
    List.append_nil]

/-! ### The way of the messages -/

def received (actions : List (Action B)) : List (ConsensusMessage B) :=
  actions.filterMap fun
    | .receive message => some message
    | _ => none

theorem received_append (first second : List (Action B)) :
    received (first ++ second) = received first ++ received second :=
  List.filterMap_append

/-- Each notification taken off the stream has gone into the channel or been refused, and the worker
has received what it took off the channel. -/
structure Delivered (codec : MessageCodec B) (g : Setup B) (kept : List (List B.Byte))
    (s : Endpoint B) (actions : List (Action B)) (fates : List (List B.Byte × Bool)) : Prop where
  node : s.node = g.run actions
  bounded : s.channel.length ≤ channelCapacity
  taken : fates.map Prod.fst ++ s.notifications = kept
  sent : ((fates.filter Prod.snd).map fun x => codec.decode x.1) =
    (received actions ++ s.channel).map .ok
  refused : s.errors = List.replicate (fates.filter fun x => !x.2).length (.other fullError)

variable {g : Setup B} {kept : List (List B.Byte)} {s : Endpoint B}
  {actions : List (Action B)} {fates : List (List B.Byte × Bool)}

theorem Delivered.act (delivered : Delivered codec g kept s actions fates) {a : Action B}
    (other : ∀ message, a ≠ .receive message) :
    Delivered codec g kept { s with node := s.node.step a } (actions ++ [a]) fates where
  node := by
    rw [g.run_snoc, ← delivered.node]
  bounded := delivered.bounded
  taken := delivered.taken
  sent := by
    have none : received [a] = [] := by
      cases a with
      | receive message => exact absurd rfl (other message)
      | _ => rfl
    rw [delivered.sent, received_append, none, List.append_nil]
  refused := delivered.refused

theorem Delivered.receive (delivered : Delivered codec g kept s actions fates)
    {message : ConsensusMessage B} {rest : List (ConsensusMessage B)}
    (next : s.channel = message :: rest) :
    Delivered codec g kept { s with node := s.node.step (.receive message), channel := rest }
      (actions ++ [.receive message]) fates where
  node := by
    rw [g.run_snoc, ← delivered.node]
  bounded := by
    have bounded := delivered.bounded
    rw [next, List.length_cons] at bounded
    exact Nat.le_of_succ_le bounded
  taken := delivered.taken
  sent := by
    rw [delivered.sent, next, received_append, List.append_assoc]
    rfl
  refused := delivered.refused

theorem decode_all {items : List (List B.Byte)}
    (decode : ∀ data ∈ items, ∃ message, codec.decode data = .ok message) :
    ∃ messages : List (ConsensusMessage B),
      items.map codec.decode = messages.map .ok := by
  induction items with
  | nil => exact ⟨[], rfl⟩
  | cons data items ih =>
    obtain ⟨message, first⟩ := decode data (List.mem_cons_self ..)
    obtain ⟨messages, others⟩ := ih fun x member => decode x (List.mem_cons_of_mem _ member)
    exact ⟨message :: messages, by rw [List.map_cons, first, others, List.map_cons]⟩

/-- The fates of what one poll takes: the channel gets what fits, the rest is refused. -/
def fatesOf (items : List (List B.Byte)) (free : Nat) : List (List B.Byte × Bool) :=
  (items.take free).map (·, true) ++ (items.drop free).map (·, false)

theorem fatesOf_fst (items : List (List B.Byte)) (free : Nat) :
    (fatesOf items free).map Prod.fst = items := by
  simp [fatesOf, Function.comp_def]

theorem fatesOf_sent (items : List (List B.Byte)) (free : Nat) :
    (fatesOf items free).filter Prod.snd = (items.take free).map (·, true) := by
  rw [fatesOf, List.filter_append, List.filter_map, List.filter_map]
  simp [Function.comp_def]

theorem fatesOf_refused (items : List (List B.Byte)) (free : Nat) :
    ((fatesOf items free).filter fun x => !x.2).length = items.length - free := by
  rw [fatesOf, List.filter_append, List.filter_map, List.filter_map]
  simp [Function.comp_def]

theorem Delivered.polled (delivered : Delivered codec g kept s actions fates)
    (decode : ∀ data ∈ kept, ∃ message, codec.decode data = .ok message) (ready : Nat) :
    ∃ messages : List (ConsensusMessage B),
      (s.notifications.take ready).map codec.decode = messages.map .ok ∧
      s.poll codec ready = { s with
        notifications := s.notifications.drop ready
        channel := s.channel ++ messages.take (channelCapacity - s.channel.length)
        errors := s.errors ++ List.replicate
          (messages.length - (channelCapacity - s.channel.length)) (.other fullError) } := by
  have inside : s.notifications.take ready ⊆ kept := by
    rw [← delivered.taken]
    exact fun data member => List.mem_append_right _ (List.mem_of_mem_take member)
  obtain ⟨messages, decoded⟩ := decode_all fun data member => decode data (inside member)
  exact ⟨messages, decoded, foldl_pollNext (s.notifications.take ready) messages decoded
    { s with notifications := s.notifications.drop ready }⟩

theorem Delivered.poll (delivered : Delivered codec g kept s actions fates)
    (decode : ∀ data ∈ kept, ∃ message, codec.decode data = .ok message) (ready : Nat) :
    Delivered codec g kept (s.poll codec ready) actions
      (fates ++ fatesOf (s.notifications.take ready) (channelCapacity - s.channel.length)) := by
  obtain ⟨messages, decoded, polled⟩ := delivered.polled decode ready
  have bounded := delivered.bounded
  have count : (s.notifications.take ready).length = messages.length := by
    have lengths := congrArg List.length decoded
    rwa [List.length_map, List.length_map] at lengths
  have now : ((s.notifications.take ready).take (channelCapacity - s.channel.length)).map
      codec.decode = (messages.take (channelCapacity - s.channel.length)).map .ok := by
    rw [List.map_take, decoded, List.map_take]
  rw [polled]
  refine ⟨delivered.node, ?_, ?_, ?_, ?_⟩
  · rw [List.length_append, List.length_take]
    omega
  · rw [List.map_append, fatesOf_fst, List.append_assoc, List.take_append_drop, delivered.taken]
  · rw [List.filter_append, fatesOf_sent, List.map_append, delivered.sent, List.map_map]
    refine (congrArg _ now).trans ?_
    rw [← List.map_append, List.append_assoc]
  · rw [List.filter_append, List.length_append, fatesOf_refused, count, List.replicate_add,
      delivered.refused]

/-- Something is refused only when the channel is full. -/
theorem Delivered.poll_errors (delivered : Delivered codec g kept s actions fates)
    (decode : ∀ data ∈ kept, ∃ message, codec.decode data = .ok message) {ready : Nat}
    (more : (s.poll codec ready).errors ≠ s.errors) :
    (s.poll codec ready).channel.length = channelCapacity := by
  obtain ⟨messages, _, polled⟩ := delivered.polled decode ready
  have bounded := delivered.bounded
  rw [polled] at more ⊢
  have short : messages.length - (channelCapacity - s.channel.length) ≠ 0 := by
    intro zero
    rw [zero, List.replicate_zero, List.append_nil] at more
    exact more rfl
  rw [List.length_append, List.length_take]
  omega

theorem Delivered.step (delivered : Delivered codec g kept s actions fates)
    (decode : ∀ data ∈ kept, ∃ message, codec.decode data = .ok message) (t : Turn B) :
    ∃ actions' fates',
      Delivered codec g (kept ++ arrivals codec [t]) (s.step codec t) actions' fates' := by
  cases t with
  | arrive view data =>
    refine ⟨actions, fates, ?_⟩
    by_cases notified : notifies codec view data = true
    · have stepped : s.step codec (.arrive view data) =
          { s with notifications := s.notifications ++ [data] } := if_pos notified
      have new : arrivals codec [.arrive view data] = [data] := by simp [arrivals, notified]
      rw [stepped, new]
      refine ⟨delivered.node, delivered.bounded, ?_, delivered.sent, delivered.refused⟩
      rw [← delivered.taken, List.append_assoc]
    · have stepped : s.step codec (.arrive view data) = s := if_neg notified
      have new : arrivals codec [.arrive view data] = [] := by simp [arrivals, notified]
      rw [stepped, new, List.append_nil]
      exact delivered
  | poll ready =>
    exact ⟨actions, _, (List.append_nil kept).symm ▸ delivered.poll decode ready⟩
  | receive =>
    rw [show kept ++ arrivals codec [.receive] = kept from List.append_nil kept]
    simp only [Endpoint.step]
    split
    · split
      · exact ⟨actions, fates, delivered⟩
      · rename_i next
        exact ⟨_, fates, delivered.receive next⟩
    · exact ⟨actions, fates, delivered⟩
  | timer =>
    have acted := delivered.act (a := .timer) nofun
    exact ⟨_, fates, (List.append_nil kept).symm ▸ acted⟩
  | resume =>
    have acted := delivered.act (a := .resume) nofun
    exact ⟨_, fates, (List.append_nil kept).symm ▸ acted⟩
  | environment env =>
    have acted := delivered.act (a := .environment env) nofun
    exact ⟨_, fates, (List.append_nil kept).symm ▸ acted⟩

theorem delivered_run (g : Setup B) (turns : List (Turn B)) :
    ∃ actions fates,
      Delivered codec g (arrivals codec turns) (run codec g turns) actions fates := by
  induction turns using List.reverseRecOn with
  | nil => exact ⟨[], [], rfl, Nat.zero_le _, rfl, rfl, rfl⟩
  | append_singleton turns t ih =>
    obtain ⟨actions, fates, delivered⟩ := ih
    rw [run_snoc, arrivals_snoc]
    exact delivered.step arrivals_decode t

theorem step_errors (g : Setup B) (turns : List (Turn B)) (t : Turn B)
    (more : ((run codec g turns).step codec t).errors ≠ (run codec g turns).errors) :
    ((run codec g turns).step codec t).channel.length = channelCapacity := by
  obtain ⟨actions, fates, delivered⟩ := delivered_run g turns
  cases t with
  | poll ready => exact delivered.poll_errors arrivals_decode more
  | arrive view data =>
    simp only [Endpoint.step] at more
    split at more <;> exact absurd rfl more
  | receive =>
    simp only [Endpoint.step] at more
    split at more
    · split at more <;> exact absurd rfl more
    · exact absurd rfl more
  | timer | resume | environment => exact absurd rfl more

end Endpoint

/-- Bytes, tasks and channel refine the node: in every run, whatever peers send and however the
turns interleave, the worker is where a run of the node has taken it. What that run receives and
what waits in the channel are, in their order, the messages the validator has kept, each once,
without those refused: one for every error logged, and only while a thousand wait. -/
theorem delivery_refines_node (codec : MessageCodec B) (g : Setup B) (turns : List (Turn B)) :
    let s := Endpoint.run codec g turns
    (∃ (actions : List (Action B)) (fates : List (List B.Byte × Bool)),
      s.node = g.run actions ∧
      fates.map Prod.fst ++ s.notifications = Endpoint.arrivals codec turns ∧
      ((fates.filter Prod.snd).map fun x => codec.decode x.1) =
        (Endpoint.received actions ++ s.channel).map .ok ∧
      s.errors = List.replicate (fates.filter fun x => !x.2).length (.other fullError)) ∧
    s.channel.length ≤ channelCapacity ∧
    ∀ t, (s.step codec t).errors ≠ s.errors →
      (s.step codec t).channel.length = channelCapacity := by
  intro s
  obtain ⟨actions, fates, delivered⟩ := Endpoint.delivered_run g turns
  exact ⟨⟨actions, fates, delivered.node, delivered.taken, delivered.sent, delivered.refused⟩,
    delivered.bounded, Endpoint.step_errors g turns⟩

/-- While there is room, what a node tells arrives: the bytes of its message, with anything behind
them, pass the validator of every endpoint that has not passed the view they were told in, and the
next poll puts the message behind what has come before it, without an error. -/
theorem told_message_delivered (codec : MessageCodec B) (limit : Nat)
    (lossless : codec.Lossless limit) (g : Setup B) (actions : List (Action B))
    (bound : Nat) (few : g.authorities.length ≤ bound) (readable : bound < limit)
    (received : ∀ message, .receive message ∈ actions → ∀ qc ∈ message.qc?,
      qc.votes.length ≤ bound) (m : Moment B) (message : ConsensusMessage B)
    (told : (m, .gossip message) ∈ (g.run actions).worker.trace)
    (peer : Setup B) (turns : List (Turn B)) (view : ViewNumber) (reached : view ≤ m.view)
    (rest : List B.Byte)
    (room : (Endpoint.run codec peer turns).channel.length +
      (Endpoint.run codec peer turns).notifications.length < channelCapacity) :
    let s := Endpoint.run codec peer turns
    let s' := (s.step codec (.arrive view (codec.encode message ++ rest))).step codec
      (.poll (s.notifications.length + 1))
    ∃ waiting, s.notifications.map codec.decode = waiting.map .ok ∧
      s' = { s with notifications := [], channel := s.channel ++ waiting ++ [message] } := by
  intro s s'
  obtain ⟨qc, tc⟩ := g.told_small few actions received told
  have read : codec.decode (codec.encode message ++ rest) = .ok message :=
    lossless message rest (Nat.lt_of_le_of_lt qc readable) (Nat.lt_of_le_of_lt tc readable)
  have notified : Endpoint.notifies codec view (codec.encode message ++ rest) = true := by
    have fresh := not_outdated (g.told_beside actions told).1 reached
    refine decide_eq_true ((validate_iff (Endpoint.validator codec view) _ _).mpr (.inl ?_))
    exact ⟨message, read, (if_neg fresh).symm⟩
  have arrived : s.step codec (.arrive view (codec.encode message ++ rest)) = { s with
      notifications := s.notifications ++ [codec.encode message ++ rest] } := if_pos notified
  obtain ⟨actions', fates, delivered⟩ : ∃ actions fates, Endpoint.Delivered codec peer
      (Endpoint.arrivals codec turns) s actions fates := Endpoint.delivered_run peer turns
  obtain ⟨waiting, decoded⟩ := Endpoint.decode_all fun data member =>
    Endpoint.arrivals_decode data (delivered.taken ▸ List.mem_append_right _ member)
  have count : s.notifications.length = waiting.length := by
    have lengths := congrArg List.length decoded
    rwa [List.length_map, List.length_map] at lengths
  refine ⟨waiting, decoded, ?_⟩
  have all : (s.notifications ++ [codec.encode message ++ rest]).map codec.decode =
      (waiting ++ [message]).map .ok := by
    rw [List.map_append, decoded, List.map_append, List.map_singleton, read, List.map_singleton]
  have space : s.channel.length + (waiting ++ [message]).length ≤ channelCapacity := by
    rw [List.length_append, List.length_singleton, ← count]
    exact room
  have every : (s.notifications ++ [codec.encode message ++ rest]).length ≤
      s.notifications.length + 1 := by simp
  have polled := Endpoint.poll_all { s with
    notifications := s.notifications ++ [codec.encode message ++ rest] } all every space
  change Endpoint.poll codec (s.step codec _) _ = _
  rw [arrived, polled, List.append_assoc]

/- Node 2 of four times out in its first view. When its bytes come to node 1, the timeout of node 0
is in the channel there and that of node 3 waits. -/
theorem told_message_delivered_timer :
    let codec := Wire.words.codec
    let timeout (id : Fin (256 ^ 32)) : ConsensusMessage Wire.words.blockT :=
      .timeout (Wire.wordsTimeout 0 id)
    let turns := [.arrive 0 (codec.encode (timeout 0)), .poll 1,
      .arrive 0 (codec.encode (timeout 3))]
    let s := Endpoint.run codec (Wire.wordsSetup 1) turns
    (∃ x ∈ ((Wire.wordsSetup 2).run [.timer]).worker.trace, x.2 = .gossip (timeout 2)) ∧
      ((s.step codec (.arrive 0 (codec.encode (timeout 2) ++ [7]))).step codec
        (.poll (s.notifications.length + 1))).channel = [timeout 0, timeout 3, timeout 2] := by
  intro codec timeout turns s
  have told : ∃ x ∈ ((Wire.wordsSetup 2).run [.timer]).worker.trace, x.2 = .gossip (timeout 2) := by
    decide +kernel
  have notified : s.notifications.map codec.decode = [.ok (timeout 3)] := by decide +kernel
  have channel : s.channel = [timeout 0] := by decide +kernel
  have room : s.channel.length + s.notifications.length < channelCapacity := by decide +kernel
  obtain ⟨⟨m, _⟩, entry, rfl⟩ := told
  obtain ⟨waiting, decoded, delivered⟩ := told_message_delivered codec _
    (Wire.codec_lossless Wire.words) (Wire.wordsSetup 2) [.timer] 4 (by decide) (by decide)
    (by simp) m (timeout 2) entry (Wire.wordsSetup 1) turns 0 UInt64.zero_le [7] room
  have one : waiting = [timeout 3] := by
    obtain ⟨x, rfl, same⟩ := List.map_eq_singleton_iff.mp (decoded.symm.trans notified)
    cases same
    rfl
  refine ⟨⟨_, entry, rfl⟩, (congrArg Endpoint.channel delivered).trans ?_⟩
  change s.channel ++ waiting ++ [timeout 2] = _
  rw [channel, one]
  rfl

end Hotstuff
