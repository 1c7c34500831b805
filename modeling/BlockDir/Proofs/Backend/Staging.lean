import BlockDir.Proofs.Backend.Reading

/-!
# Work in steps

The work of a client between whose calls others may work (`Staged`). A step is one action of the
client that touches the stores at most once, and what it comes to decides how the work goes on; nothing
else is carried from one step to the next. A round trip is no such action: its commands are applied
one by one, and others may come between them. Commits are told apart from other actions, as they alone
change stores. Done without a break, a batched read in steps is the batched read
(`Client.run_fetching`).
-/

namespace BlockDir

/-- Work of a client that is cut into steps. -/
inductive Staged (α : Type) : Type 1 where
  /-- The work is over. -/
  | ended (result : Except Error α)
  /-- One action, and the work that follows on what it comes to. -/
  | next {β : Type} (act : ClientM β) (rest : Except Error β → Staged α)
  /-- A batch is committed, and other work follows. -/
  | commit (batch : Batch) (interval : Nat) (rest : Except Error Unit → Staged α)

namespace Staged

variable {α β : Type}

/-- Work that follows on other work, unless that fails. -/
protected def bind : Staged α → (α → Staged β) → Staged β
  | ended (.ok a), f => f a
  | ended (.error e), _ => ended (.error e)
  | next act rest, f => next act fun result => (rest result).bind f
  | commit batch interval rest, f => commit batch interval fun result => (rest result).bind f

instance : Monad Staged where
  pure a := ended (.ok a)
  bind := Staged.bind

/-- A result at which nothing is done. -/
def settle (result : Except Error α) : Staged α := ended result

/-- A single action. -/
def step (act : ClientM α) : Staged α := next act ended

/-- A single commit. -/
def send (batch : Batch) (interval : Nat) : Staged Unit := commit batch interval ended

/-- What is left of the work after its next step, and the client then. -/
def advance : Staged α → Client → Staged α × Client
  | ended result, client => (ended result, client)
  | next act rest, client => (rest (outcome (act client)), finalState (act client))
  | commit batch interval rest, client =>
    (rest (outcome (Client.commit batch interval client)),
      finalState (Client.commit batch interval client))

/-- The steps in turn, without a break. -/
def run : Staged α → ClientM α
  | ended result => give result
  | next act rest => fun client => (rest (outcome (act client))).run (finalState (act client))
  | commit batch interval rest => fun client =>
    (rest (outcome (Client.commit batch interval client))).run
      (finalState (Client.commit batch interval client))

/-- Work whose failure is handed on like a result. -/
def attempt : Staged α → Staged (Except Error α)
  | ended result => ended (.ok result)
  | next act rest => next act fun result => (rest result).attempt
  | commit batch interval rest => commit batch interval fun result => (rest result).attempt

/-- A step without a break after it changes nothing of what is done. -/
theorem run_advance (work : Staged α) (client : Client) :
    (work.advance client).1.run (work.advance client).2 = work.run client := by
  cases work <;> rfl

@[simp] theorem run_pure (a : α) : (pure a : Staged α).run = pure a := rfl

@[simp] theorem run_settle (result : Except Error α) : (settle result).run = give result := rfl

theorem give_outcome (act : ClientM α) (client : Client) :
    give (outcome (act client)) (finalState (act client)) = act client := by
  cases act client <;> rfl

@[simp] theorem run_step (act : ClientM α) : (step act).run = act := by
  funext client
  exact give_outcome act client

@[simp] theorem run_send (batch : Batch) (interval : Nat) :
    (send batch interval).run = Client.commit batch interval := by
  funext client
  exact give_outcome (Client.commit batch interval) client

@[simp] theorem run_bind (x : Staged α) (f : α → Staged β) :
    (x >>= f).run = x.run >>= fun a => (f a).run := by
  induction x with
  | ended result => cases result <;> rfl
  | next act rest ih =>
    funext client
    show (rest (outcome (act client)) >>= f).run (finalState (act client)) = _
    rw [ih]
    rfl
  | commit batch interval rest ih =>
    funext client
    show (rest (outcome (Client.commit batch interval client)) >>= f).run
      (finalState (Client.commit batch interval client)) = _
    rw [ih]
    rfl

@[simp] theorem run_attempt (work : Staged α) :
    work.attempt.run = fun client =>
      .ok (outcome (work.run client)) (finalState (work.run client)) := by
  induction work with
  | ended result => cases result <;> rfl
  | next act rest ih =>
    funext client
    show (rest (outcome (act client))).attempt.run (finalState (act client)) = _
    rw [ih]
    rfl
  | commit batch interval rest ih =>
    funext client
    show (rest (outcome (Client.commit batch interval client))).attempt.run
      (finalState (Client.commit batch interval client)) = _
    rw [ih]
    rfl

end Staged

namespace Client

/-! ## Links in steps -/

/-- An action on the wire. -/
def onWire {α : Type} (act : WireM α) : ClientM α := fun client =>
  match act client.wire with
  | .ok a wire => .ok a { client with wire }
  | .error e wire => .error e { client with wire }

theorem route_lt (n : Nat) (key : Bytes) : (route n key : Nat) < n + 1 := (route n key).isLt

/-- Takes a link that serves a key. -/
def take (key : Bytes) : ClientM Link := fun client =>
  match client.backend with
  | .single link closed =>
    if closed then .error (.closed .singleBackend) client else .ok link client
  | .pooled pool =>
    match Pool.checkout (pool, client.wire) with
    | .ok link (pool, wire) => .ok link { client with backend := .pooled pool, wire }
    | .error e (pool, wire) => .error e { client with backend := .pooled pool, wire }
  | @Backend.sharded n shards =>
    have hplace := route_lt n key
    match Pool.checkout (shards[route n key], client.wire) with
    | .ok link (pool, wire) =>
      .ok link { client with backend := .sharded (shards.set (route n key) pool), wire }
    | .error e (pool, wire) =>
      .error e { client with backend := .sharded (shards.set (route n key) pool), wire }
  | @Backend.cluster n nodes closed =>
    have hplace := route_lt n key
    if closed then .error (.closed .clusterBackend) client else .ok nodes[route n key] client

/-- Gives a link back that was taken for a key. -/
def putBack (key : Bytes) (link : Link) (spoiled : Bool) : ClientM Unit := fun client =>
  match client.backend with
  | .single .. => .ok () client
  | .pooled pool =>
    let (pool, wire) := pool.giveBack link spoiled client.wire
    .ok () { client with backend := .pooled pool, wire }
  | @Backend.sharded n shards =>
    have hplace := route_lt n key
    let (pool, wire) := shards[route n key].giveBack link spoiled client.wire
    .ok () { client with backend := .sharded (shards.set (route n key) pool), wire }
  | .cluster .. => .ok () client

theorem putBack_total (key : Bytes) (link : Link) (spoiled : Bool) (client : Client) :
    ∃ after, putBack key link spoiled client = .ok () after := by
  obtain ⟨backend, wire, window⟩ := client
  cases backend <;> exact ⟨_, rfl⟩

/-- A link that is taken is open and leads to the store of the key. -/
theorem take_spec (key : Bytes) {client : Client} (hsound : client.backend.Sound) :
    client.Kept (finalState (take key client)) ∧
      ∀ link, outcome (take key client) = .ok link →
        link.isOpen = true ∧ link.store = client.backend.storeOf key := by
  have hsame : client.Kept client := .refl hsound
  obtain ⟨backend, wire, window⟩ := client
  cases backend with
  | single link closed =>
    cases closed with
    | true => exact ⟨hsame, by rintro _ ⟨⟩⟩
    | false =>
      refine ⟨hsame, ?_⟩
      rintro _ ⟨⟩
      exact ⟨hsound rfl, rfl⟩
  | pooled pool =>
    obtain ⟨e, after, herror, hquiet⟩ |
      ⟨link, lending, after, hok, hopen, hlink, hlending, hplace, hquiet⟩ :=
      Pool.checkout_spec hsound wire
    · simp only [take, herror]
      exact ⟨⟨.refl hsound, hquiet.stores, hquiet.threats⟩, by rintro _ ⟨⟩⟩
    · simp only [take, hok]
      refine ⟨⟨⟨rfl, rfl, ?_, hlending⟩, hquiet.stores, hquiet.threats⟩, ?_⟩
      · funext other
        exact hplace
      · rintro _ ⟨⟩
        exact ⟨hopen, hlink⟩
  | @sharded n shards =>
    have hpool : shards[route n key].Sound := hsound (route n key)
    obtain ⟨e, after, herror, hquiet⟩ |
      ⟨link, lending, after, hok, hopen, hlink, hlending, hplace, hquiet⟩ :=
      Pool.checkout_spec hpool wire
    · simp only [take, herror]
      exact ⟨⟨Backend.kept_set hsound _ hpool rfl, hquiet.stores, hquiet.threats⟩, by rintro _ ⟨⟩⟩
    · simp only [take, hok]
      refine ⟨⟨Backend.kept_set hsound _ hlending hplace, hquiet.stores, hquiet.threats⟩, ?_⟩
      rintro _ ⟨⟩
      exact ⟨hopen, hlink⟩
  | @cluster n nodes closed =>
    cases closed with
    | true => exact ⟨hsame, by rintro _ ⟨⟩⟩
    | false =>
      refine ⟨hsame, ?_⟩
      rintro _ ⟨⟩
      exact ⟨hsound rfl _, rfl⟩

/-- A link that was taken may be given back at any time. -/
theorem putBack_spec (key : Bytes) {client : Client} (hsound : client.backend.Sound) {link : Link}
    (hopen : link.isOpen = true) (hlink : link.store = client.backend.storeOf key) (spoiled : Bool) :
    client.Kept (finalState (putBack key link spoiled client)) := by
  have hsame : client.Kept client := .refl hsound
  obtain ⟨backend, wire, window⟩ := client
  cases backend with
  | single link closed | cluster nodes closed => exact hsame
  | pooled pool =>
    obtain ⟨hback, -, hplace, hspared⟩ := Pool.giveBack_spec hsound hopen hlink spoiled wire
    refine ⟨⟨rfl, rfl, ?_, hback⟩, hspared.stores, hspared.threats⟩
    funext other
    exact hplace
  | @sharded n shards =>
    have hpool : shards[route n key].Sound := hsound (route n key)
    obtain ⟨hback, -, hplace, hspared⟩ := Pool.giveBack_spec hpool hopen hlink spoiled wire
    exact ⟨Backend.kept_set hsound _ hback hplace, hspared.stores, hspared.threats⟩

/-- To lend a link is to take it, to use it and to give it back, for an action that does not fail. -/
theorem lend_eq {α : Type} (key : Bytes) (spoils : α → Bool) {act : Link → WireM α}
    (hact : ∀ link wire, ∃ a after, act link wire = .ok a after) :
    lend key spoils act = do
      let link ← take key
      let a ← onWire (act link)
      putBack key link (spoils a)
      return a := by
  funext client
  obtain ⟨backend, wire, window⟩ := client
  cases backend with
  | single link closed =>
    cases closed with
    | true => rfl
    | false =>
      obtain ⟨a, after, hok⟩ := hact link wire
      simp [lend, take, onWire, putBack, bind, EStateM.bind, pure, EStateM.pure, hok]
  | pooled pool =>
    simp only [lend, Pool.lend, take, bind, EStateM.bind]
    cases Pool.checkout (pool, wire) with
    | error e state => rfl
    | ok link state =>
      obtain ⟨a, after, hok⟩ := hact link state.2
      simp [onWire, putBack, pure, EStateM.pure, hok]
  | @sharded n shards =>
    simp only [lend, Pool.lend, take, bind, EStateM.bind]
    cases Pool.checkout (shards[route n key], wire) with
    | error e state => rfl
    | ok link state =>
      obtain ⟨a, after, hok⟩ := hact link state.2
      simp [onWire, putBack, pure, EStateM.pure, hok]
  | @cluster n nodes closed =>
    cases closed with
    | true => rfl
    | false =>
      obtain ⟨a, after, hok⟩ := hact nodes[route n key] wire
      simp only [lend, take, onWire, putBack, bind, EStateM.bind, pure, EStateM.pure, hok,
        Bool.false_eq_true, if_false]

/-! ## Round trips in steps -/

/-- Applies commands over a link, one after the other. -/
def applying (link : Link) : List Command → Staged (List Reply)
  | [] => Staged.step (onWire (link.apply .pipeline []))
  | command :: rest => do
    let first ← Staged.step (onWire (link.apply .pipeline [command]))
    return first ++ (← applying link rest)

/-- Notes a round trip; answers the fault that strikes it. -/
def noting (link : Link) (commands : List Command) : WireM (Option Fault) := fun wire =>
  let (fault, wire) := wire.note (.send .pipeline link commands) (.send .pipeline)
  .ok fault wire

/-- What becomes of a round trip that a fault strikes, if any. -/
def sendingUnder (link : Link) (commands : List Command) : Option Fault → Staged (List Reply)
  | none => applying link commands
  | some (.failing none error) => do
    let _ ← applying link commands
    Staged.settle (.error error)
  | some (.failing (some count) error) => do
    let _ ← applying link (commands.take count)
    Staged.settle (.error error)
  | some (.garbled change) => do return change (← applying link commands)
  | some (.refused answer) => do
    let _ ← applying link []
    return answer commands

/-- Sends commands in one round trip. -/
def sending (link : Link) (commands : List Command) : Staged (List Reply) := do
  sendingUnder link commands (← Staged.step (onWire (noting link commands)))

theorem run_applying (link : Link) (commands : List Command) :
    (applying link commands).run = onWire (link.apply .pipeline commands) := by
  induction commands with
  | nil => exact Staged.run_step _
  | cons command rest ih =>
    rw [Link.apply_cons]
    simp only [applying, Staged.run_bind, Staged.run_step, Staged.run_pure, ih]
    funext client
    simp only [bind, EStateM.bind, onWire]
    cases link.apply .pipeline [command] client.wire with
    | error e after => rfl
    | ok first after =>
      simp only [pure, EStateM.pure]
      cases link.apply .pipeline rest after <;> rfl

/-- A round trip in steps, done without a break, is the round trip. -/
theorem run_sending (link : Link) (commands : List Command) :
    (sending link commands).run = onWire (link.send .pipeline commands) := by
  funext client
  rw [sending, Staged.run_bind, Staged.run_step, onWire, Link.send]
  simp only [bind, EStateM.bind, onWire, noting]
  obtain ⟨fault, noted⟩ := client.wire.note (.send .pipeline link commands) (.send .pipeline)
  rcases fault with _ | ⟨_ | count, error⟩ | change | answer
  · simp only [sendingUnder, run_applying]
    rfl
  · simp only [sendingUnder, Staged.run_bind, run_applying, Staged.run_settle]
    simp only [bind, EStateM.bind, onWire, SeqRight.seqRight, EStateM.seqRight]
    cases link.apply .pipeline commands noted <;> rfl
  · simp only [sendingUnder, Staged.run_bind, run_applying, Staged.run_settle]
    simp only [bind, EStateM.bind, onWire, SeqRight.seqRight, EStateM.seqRight]
    cases link.apply .pipeline (commands.take count) noted <;> rfl
  · simp only [sendingUnder, Staged.run_bind, run_applying, Staged.run_pure]
    simp only [bind, EStateM.bind, onWire, Functor.map, EStateM.map]
    cases link.apply .pipeline commands noted <;> rfl
  · simp only [sendingUnder, Staged.run_bind, run_applying, Staged.run_pure]
    simp only [bind, EStateM.bind, onWire, Functor.map, EStateM.map]
    cases link.apply .pipeline [] noted <;> rfl

/-! ## Batched reads in steps -/

/-- The slots of a round that brought replies, or failed. -/
def slotsOf (fields : List Bytes) : Except Error (List Reply) → List Slot
  | .ok replies =>
    if replies.length = fields.length then replies.map Slot.ofReply else fields.map fun _ => none
  | .error _ => fields.map fun _ => none

/-- Reads fields in one round trip. -/
def fetchingRound (link : Link) (key : Bytes) (fields : List Bytes) : Staged (List Slot) := do
  return slotsOf fields (← (sending link (fields.map fun field => .ask key (.get field))).attempt)

/-- Reads fields over a link, round by round. -/
def rounds (link : Link) (key : Bytes) : List (List Bytes) → Staged (List Slot)
  | [] => pure []
  | round :: rest => do
    let slots ← fetchingRound link key round
    return slots ++ (← rounds link key rest)

/-- Reads fields in rounds over a link that was taken for it, and gives it back. -/
def roundsOver (link : Link) (key : Bytes) (fields : List Bytes) (interval : Nat) :
    Staged (List Slot) := do
  let slots ← rounds link key (chunks interval fields)
  Staged.step (putBack key link (slots.any Option.isNone))
  return slots

/-- The slots of many fields, in rounds over one link. -/
def fetching (key : Bytes) (fields : List Bytes) (interval : Nat) : Staged (List Slot) :=
  .next (take key) fun
    | .error _ => pure (List.replicate fields.length none)
    | .ok link => roundsOver link key fields interval

theorem fetchRound_total (link : Link) (key : Bytes) (fields : List Bytes) (wire : Wire) :
    ∃ slots after, link.fetchRound key fields wire = .ok slots after := by
  simp only [Link.fetchRound]
  split
  · exact ⟨_, _, rfl⟩
  · exact ⟨_, _, rfl⟩

theorem run_fetchingRound (link : Link) (key : Bytes) (fields : List Bytes) :
    (fetchingRound link key fields).run = onWire (link.fetchRound key fields) := by
  rw [fetchingRound, Staged.run_bind, Staged.run_attempt, run_sending]
  funext client
  simp only [Staged.run_pure, bind, EStateM.bind, onWire, Link.fetchRound]
  cases link.send .pipeline (fields.map fun field => .ask key (.get field)) client.wire <;> rfl

/-- Rounds in steps are the rounds in turn, none of which fails. -/
theorem run_rounds (link : Link) (key : Bytes) (pieces : List (List Bytes)) (client : Client) :
    ∃ slots after, pieces.mapM (link.fetchRound key) client.wire = .ok slots after ∧
      (rounds link key pieces).run client = .ok slots.flatten { client with wire := after } := by
  induction pieces generalizing client with
  | nil => exact ⟨[], client.wire, rfl, rfl⟩
  | cons round rest ih =>
    obtain ⟨first, middle, hfirst⟩ := fetchRound_total link key round client.wire
    obtain ⟨more, after, hmore, hrun⟩ := ih { client with wire := middle }
    have hstep : onWire (link.fetchRound key round) client =
        .ok first { client with wire := middle } := by
      simp only [onWire, hfirst]
    refine ⟨first :: more, after, ?_, ?_⟩
    · rw [List.mapM_cons]
      simp [bind, EStateM.bind, hfirst, hmore, pure, EStateM.pure]
    · simp only [rounds, Staged.run_bind, run_fetchingRound, Staged.run_pure]
      simp [bind, EStateM.bind, hstep, hrun, pure, EStateM.pure]

/-- Off the cluster a batched read takes one link, and without one it finds nothing. -/
theorem fetchSlots_eq_lend (key : Bytes) (fields : List Bytes) (interval : Nat) {client : Client}
    (hkind : client.backend.kind ≠ .cluster) :
    fetchSlots key fields interval client =
      match lend key (·.any Option.isNone) (·.fetchSlots key interval fields) client with
      | .ok slots client => .ok slots client
      | .error _ client => .ok (List.replicate fields.length none) client := by
  obtain ⟨backend, wire, window⟩ := client
  cases backend with
  | cluster nodes closed => exact absurd rfl hkind
  | single link closed | pooled pool | sharded shards => rfl

/-- A batched read in steps, done without a break, is the batched read. -/
theorem run_fetching (key : Bytes) (fields : List Bytes) (interval : Nat) {client : Client}
    (hkind : client.backend.kind ≠ .cluster) :
    (fetching key fields interval).run client = fetchSlots key fields interval client := by
  have hfetch : ∀ (link : Link) (client : Client), ∃ slots after,
      link.fetchSlots key interval fields client.wire = .ok slots after ∧
        (rounds link key (chunks interval fields)).run client =
          .ok slots { client with wire := after } := by
    intro link client
    obtain ⟨slots, after, hok, hrun⟩ := run_rounds link key (chunks interval fields) client
    exact ⟨slots.flatten, after, by simp [Link.fetchSlots, bind, EStateM.bind, hok, pure, EStateM.pure],
      hrun⟩
  have htotal : ∀ (link : Link) (wire : Wire), ∃ slots after,
      link.fetchSlots key interval fields wire = .ok slots after := by
    intro link wire
    obtain ⟨slots, after, hok, -⟩ := hfetch link ⟨.single link false, wire, none⟩
    exact ⟨slots, after, hok⟩
  have hlend := lend_eq key (fun slots : List Slot => slots.any Option.isNone) htotal
  rw [fetchSlots_eq_lend key fields interval hkind, hlend]
  show (match outcome (take key client) with
    | .error _ => pure (List.replicate fields.length none)
    | .ok link => roundsOver link key fields interval : Staged (List Slot)).run
      (finalState (take key client)) = _
  simp only [bind, EStateM.bind]
  cases take key client with
  | error e after => rfl
  | ok link middle =>
    obtain ⟨slots, after, hok, hrun⟩ := hfetch link middle
    have hwire : onWire (link.fetchSlots key interval fields) middle =
        .ok slots { middle with wire := after } := by
      simp only [onWire, hok]
    simp only [outcome, finalState, roundsOver, Staged.run_bind, Staged.run_step, Staged.run_pure]
    simp only [bind, EStateM.bind, hrun, hwire, pure, EStateM.pure]
    obtain ⟨last, hback⟩ :=
      putBack_total key link (slots.any Option.isNone) { middle with wire := after }
    simp only [hback]

end Client

end BlockDir
