import BlockDir.Proofs.Backend.Courses
import BlockDir.Proofs.Link.Tracing

/-!
# What passes between a backend and its stores

A batched read asks for its fields in order, in pipelines that are no longer than the interval, and goes
on after those that fail. A commit is one transaction, a row of such pipelines or a row of single
commands, which carry its writes in order. `Client.calls_of_fetch_and_commit` says which of these it is,
for any failures; it is told from the record of all calls (`Wire.Sends`).
-/

namespace BlockDir

/-- A call that passed over a link, whatever became of it. -/
structure Sending where
  mode : Mode
  link : Link
  commands : List Command

/-- The call that an event is, unless a link was opened or closed. -/
def Event.sending? : Event → Option Sending
  | send mode link commands => some ⟨mode, link, commands⟩
  | connect _ | close _ => none

namespace Wire

/-- Between two wires these calls passed, in this order and no others. -/
def Sends (before : Wire) (calls : List Sending) (after : Wire) : Prop :=
  ∃ events : List Event, after.record = events.reverse ++ before.record ∧
    events.filterMap Event.sending? = calls

theorem Sends.refl (wire : Wire) : wire.Sends [] wire := ⟨[], rfl, rfl⟩

theorem Sends.append {a b c : Wire} {calls more : List Sending} (h : a.Sends calls b)
    (h' : b.Sends more c) : a.Sends (calls ++ more) c := by
  obtain ⟨events, hrecord, rfl⟩ := h
  obtain ⟨others, hrecord', rfl⟩ := h'
  refine ⟨events ++ others, ?_, List.filterMap_append⟩
  rw [hrecord', hrecord, List.reverse_append, List.append_assoc]

theorem Quiet.sends {a b : Wire} (h : a.Quiet b) : a.Sends [] b := by
  obtain ⟨events, hrecord, hnone⟩ := h.record
  refine ⟨events.reverse, by rw [List.reverse_reverse, hrecord], ?_⟩
  rw [List.filterMap_eq_nil_iff]
  intro event hmem
  cases event with
  | send mode link commands =>
    exact absurd (List.mem_reverse.1 hmem) (hnone mode link commands)
  | connect store | close link => rfl

/-- What passes before and after calls without a call of its own. -/
theorem Sends.amid {a b c d : Wire} {calls : List Sending} (h : b.Sends calls c) (hbefore : a.Quiet b)
    (hafter : c.Quiet d) : a.Sends calls d := by
  have hall := (hbefore.sends.append h).append hafter.sends
  rwa [List.nil_append, List.append_nil] at hall

end Wire

/-! ## Over one link -/

namespace Link

theorem send_sends (link : Link) (mode : Mode) (commands : List Command) (wire : Wire) :
    wire.Sends [⟨mode, link, commands⟩] (finalState (link.send mode commands wire)) :=
  ⟨[.send mode link commands], (link.send_does mode commands wire).1, rfl⟩

/-- The command that asks for a field. -/
def inquiry (key field : Bytes) : Command := .ask key (.get field)

/-- A round that fails is answered all the same. -/
theorem fetchRound_sends (link : Link) (key : Bytes) (fields : List Bytes) (wire : Wire) :
    ∃ slots after, link.fetchRound key fields wire = .ok slots after ∧
      wire.Sends [⟨.pipeline, link, fields.map (inquiry key)⟩] after := by
  have hsend := link.send_sends .pipeline (fields.map (inquiry key)) wire
  have hcommands : (fields.map fun field => Command.ask key (.get field)) =
      fields.map (inquiry key) := rfl
  unfold fetchRound
  rw [hcommands]
  cases hresult : link.send .pipeline (fields.map (inquiry key)) wire with
  | ok replies after | error e after =>
    rw [hresult] at hsend
    exact ⟨_, after, rfl, hsend⟩

theorem fetchRounds_sends (link : Link) (key : Bytes) (rounds : List (List Bytes)) (wire : Wire) :
    ∃ slots after, rounds.mapM (link.fetchRound key) wire = .ok slots after ∧
      wire.Sends (rounds.map fun round => ⟨.pipeline, link, round.map (inquiry key)⟩) after := by
  induction rounds generalizing wire with
  | nil => exact ⟨[], wire, rfl, .refl wire⟩
  | cons round rest ih =>
    obtain ⟨slots, middle, hround, hsends⟩ := link.fetchRound_sends key round wire
    obtain ⟨more, after, hrest, hsends'⟩ := ih middle
    refine ⟨slots :: more, after, ?_, hsends.append hsends'⟩
    rw [List.mapM_cons]
    simp [bind, EStateM.bind, hround, hrest, pure, EStateM.pure]

/-- Calls that ask for fields in order, in pipelines over one link that are no longer than the interval. -/
def AsksInRounds (link : Link) (key : Bytes) (fields : List Bytes) (interval : Nat)
    (calls : List Sending) : Prop :=
  ∃ rounds : List (List Bytes), rounds.flatten = fields ∧
    (∀ round ∈ rounds, round ≠ [] ∧ round.length ≤ max 1 interval) ∧
    calls = rounds.map fun round => ⟨.pipeline, link, round.map (inquiry key)⟩

/-- Rounds go on after those that fail, until all fields were asked for. -/
theorem fetchSlots_sends (link : Link) (key : Bytes) (interval : Nat) (fields : List Bytes)
    (wire : Wire) :
    ∃ calls, wire.Sends calls (finalState (link.fetchSlots key interval fields wire)) ∧
      link.AsksInRounds key fields interval calls := by
  obtain ⟨slots, after, hrounds, hsends⟩ :=
    link.fetchRounds_sends key (chunks interval fields) wire
  have hslots : link.fetchSlots key interval fields wire = .ok slots.flatten after := by
    simp [fetchSlots, bind, EStateM.bind, hrounds, pure, EStateM.pure]
  rw [hslots]
  exact ⟨_, hsends, chunks interval fields, flatten_chunks interval fields,
    fun round hmem => mem_chunks hmem, rfl⟩

theorem getField_sends (link : Link) (key field : Bytes) (wire : Wire) :
    wire.Sends [⟨.execute, link, [inquiry key field]⟩] (finalState (link.getField key field wire)) := by
  have hsend := link.send_sends .execute [inquiry key field] wire
  simp only [getField, bind, EStateM.bind, execute, Functor.map, EStateM.map]
  have hcommand : Command.ask key (.get field) = inquiry key field := rfl
  rw [hcommand]
  cases hresult : link.send .execute [inquiry key field] wire with
  | ok replies after =>
    rw [hresult] at hsend
    simp only [finalState_give]
    exact hsend
  | error e after =>
    rw [hresult] at hsend
    exact hsend

/-- Rounds of writes are sent up to the first that fails, and all if none does. -/
theorem posts_sends (link : Link) (mode : Mode) (rounds : List Batch) (wire : Wire) :
    ∃ done left, rounds = done ++ left ∧
      wire.Sends (done.map fun round => ⟨mode, link, round.commands⟩)
        (finalState (rounds.forM (link.post mode) wire)) ∧
      (outcome (rounds.forM (link.post mode) wire) = .ok () → left = []) := by
  induction rounds generalizing wire with
  | nil => exact ⟨[], [], rfl, .refl wire, fun _ => rfl⟩
  | cons round rest ih =>
    have hsend := link.send_sends mode round.commands wire
    rw [← finalState_post] at hsend
    have hrun : (round :: rest).forM (link.post mode) wire =
        (do link.post mode round; rest.forM (link.post mode)) wire := rfl
    rw [hrun]
    cases hround : link.post mode round wire with
    | error e middle =>
      rw [hround] at hsend
      simp only [bind, EStateM.bind, hround]
      exact ⟨[round], rest, rfl, hsend, fun hok => nomatch hok⟩
    | ok _ middle =>
      rw [hround] at hsend
      obtain ⟨done, left, rfl, hsends, hall⟩ := ih middle
      simp only [bind, EStateM.bind, hround]
      exact ⟨round :: done, left, rfl, hsend.append hsends, hall⟩

end Link

/-! ## Over a link of a backend -/

/-- Whether a link is one over which a backend reaches the table under a key. -/
def Backend.Leads (backend : Backend) (key : Bytes) (link : Link) : Prop :=
  match backend with
  | single own _ => link = own
  | pooled pool => link.store = pool.store
  | @sharded n shards => link.store = (shards.get (route n key)).store
  | @cluster n nodes _ => link = nodes.get (route n key)

/-- Other pools for the same stores lead to the same links. -/
theorem Backend.leads_of_stores {n : Nat} {shards others : Vector Pool (n + 1)}
    (h : ∀ slot, (others.get slot).store = (shards.get slot).store) :
    (sharded others).Leads = (sharded shards).Leads := by
  funext key link
  simp only [Leads, h]

/-- The link that a client comes to have to the table under a key, or why it has none. -/
def Client.obtain (key : Bytes) (client : Client) : Except Error Link :=
  match client.backend with
  | .single link closed => if closed then .error (.closed .singleBackend) else .ok link
  | .pooled pool => outcome (Pool.checkout (pool, client.wire))
  | @Backend.sharded n shards => outcome (Pool.checkout (shards.get (route n key), client.wire))
  | @Backend.cluster n nodes closed =>
    if closed then .error (.closed .clusterBackend) else .ok (nodes.get (route n key))

/-- Nothing but the action is sent when a pool lends a link. -/
theorem Pool.lend_calls {α : Type} {pool : Pool} (hsound : pool.Sound) (wire : Wire)
    (spoils : α → Bool) (act : Link → WireM α) :
    match outcome (checkout (pool, wire)) with
    | .error e => ∃ after, Pool.lend spoils act (pool, wire) = .error e (pool, after) ∧
        wire.Quiet after
    | .ok link => link.store = pool.store ∧ ∃ first next last, next.store = pool.store ∧
        wire.Quiet first ∧ (finalState (act link first)).Quiet last ∧
        Pool.lend spoils act (pool, wire) = withState (next, last) (act link first) := by
  obtain ⟨e, after, hcheckout, hquiet⟩ |
    ⟨link, lending, first, hcheckout, hopen, hlink, hlending, hplace, hquiet⟩ :=
    checkout_spec hsound wire
  · rw [hcheckout]
    exact ⟨after, by simp only [Pool.lend, hcheckout], hquiet⟩
  · rw [hcheckout]
    refine ⟨hlink, first, ?_⟩
    have hback (spoiled : Bool) (middle : Wire) :=
      giveBack_spec hlending hopen (hlink.trans hplace.symm) spoiled middle
    cases hact : act link first with
    | ok a middle =>
      obtain ⟨-, -, hstore, hspared⟩ := hback (spoils a) middle
      exact ⟨_, _, hstore.trans hplace, hquiet, hspared.toQuiet,
        by simp only [Pool.lend, hcheckout, hact, withState]⟩
    | error e middle =>
      obtain ⟨-, -, hstore, hspared⟩ := hback e.isTransport middle
      exact ⟨_, _, hstore.trans hplace, hquiet, hspared.toQuiet,
        by simp only [Pool.lend, hcheckout, hact, withState]⟩

namespace Client

/-- If a link is had, the action runs on it, and nothing else is sent. -/
theorem lend_calls {α : Type} {client : Client} (hsound : client.backend.Sound) (key : Bytes)
    (spoils : α → Bool) (act : Link → WireM α) :
    (finalState (lend key spoils act client)).backend.Leads = client.backend.Leads ∧
      match client.obtain key with
      | .error e => ∃ after, lend key spoils act client = .error e after ∧
          client.wire.Quiet after.wire
      | .ok link => client.backend.Leads key link ∧ ∃ first after, client.wire.Quiet first ∧
          (finalState (act link first)).Quiet after.wire ∧
          lend key spoils act client = withState after (act link first) := by
  obtain ⟨backend, wire, window⟩ := client
  cases backend with
  | single link closed =>
    cases closed with
    | true => exact ⟨rfl, _, rfl, .refl wire⟩
    | false =>
      rw [lend_single, finalState_withState]
      exact ⟨rfl, rfl, wire, _, .refl wire, .refl _, rfl⟩
  | pooled pool =>
    have hlend := Pool.lend_calls hsound wire spoils act
    rw [lend_pooled, finalState_withState]
    simp only [obtain]
    cases hcheckout : outcome (Pool.checkout (pool, wire)) with
    | error e =>
      rw [hcheckout] at hlend
      obtain ⟨after, hpool, hquiet⟩ := hlend
      rw [hpool]
      exact ⟨rfl, _, rfl, hquiet⟩
    | ok link =>
      rw [hcheckout] at hlend
      obtain ⟨hlink, first, next, last, hplace, hfirst, hlast, hpool⟩ := hlend
      have hleads : (Backend.pooled next).Leads = (Backend.pooled pool).Leads := by
        funext other link
        simp only [Backend.Leads, hplace]
      rw [hpool]
      simp only [finalState_withState, withState_withState]
      exact ⟨hleads, hlink, first, _, hfirst, hlast, rfl⟩
  | @sharded n shards =>
    have hshard : (shards.get (route n key)).Sound := hsound (route n key)
    have hlend := Pool.lend_calls hshard wire spoils act
    have hleads (next : Pool) (hplace : next.store = (shards.get (route n key)).store) :
        (Backend.sharded (shards.set (route n key) next)).Leads = (Backend.sharded shards).Leads := by
      refine Backend.leads_of_stores fun slot => ?_
      rw [Backend.get_set]
      split
      · rename_i hslot
        subst hslot
        exact hplace
      · rfl
    rw [lend_sharded key spoils act wire window shards rfl, finalState_withState]
    simp only [obtain]
    cases hcheckout : outcome (Pool.checkout (shards.get (route n key), wire)) with
    | error e =>
      rw [hcheckout] at hlend
      obtain ⟨after, hpool, hquiet⟩ := hlend
      rw [hpool]
      exact ⟨hleads _ rfl, _, rfl, hquiet⟩
    | ok link =>
      rw [hcheckout] at hlend
      obtain ⟨hlink, first, next, last, hplace, hfirst, hlast, hpool⟩ := hlend
      rw [hpool]
      simp only [finalState_withState, withState_withState]
      exact ⟨hleads next hplace, hlink, first, _, hfirst, hlast, rfl⟩
  | @cluster n nodes closed =>
    cases closed with
    | true => exact ⟨rfl, _, rfl, .refl wire⟩
    | false =>
      rw [lend_cluster, finalState_withState]
      exact ⟨rfl, rfl, wire, _, .refl wire, .refl _, rfl⟩

theorem lend_later {α : Type} {client : Client} (hsound : client.backend.Sound) (key : Bytes)
    (spoils : α → Bool) (act : Link → WireM α) :
    client.backend.Later (finalState (lend key spoils act client)).backend := by
  obtain ⟨-, e, herror⟩ | ⟨e, after, herror, hlater, -⟩ |
    ⟨link, first, after, -, -, -, -, -, hlater, -, hresult⟩ := lend_spec hsound key spoils act
  · rw [herror]
    exact .refl hsound
  · rw [herror]
    exact hlater.backend
  · rw [hresult, finalState_withState]
    exact hlater

/-! ## Batched reads -/

/-- The calls of a batched read. A cluster is asked for each field by itself, on the node that owns the
key. Any other backend is asked, once it has a link, for all fields in pipelines over that link. -/
def AsksFor (key : Bytes) (fields : List Bytes) (interval : Nat) (client : Client)
    (calls : List Sending) : Prop :=
  match client.backend with
  | @Backend.cluster n nodes closed =>
    calls = if closed then []
      else fields.map fun field => ⟨.execute, nodes.get (route n key), [Link.inquiry key field]⟩
  | _ =>
    match client.obtain key with
    | .error _ => calls = []
    | .ok link => link.AsksInRounds key fields interval calls

theorem finalState_fetch (key : Bytes) (fields : List Bytes) (interval : Nat) (client : Client) :
    finalState (fetch key fields interval client) =
      finalState (fetchSlots key fields interval client) := by
  simp only [fetch, bind, EStateM.bind]
  cases fetchSlots key fields interval client with
  | error e after => rfl
  | ok slots after =>
    simp only [get, getThe, MonadStateOf.get, EStateM.get]
    cases after.window <;> rfl

theorem fetchSingly_sends {n : Nat} (nodes : Vector Link (n + 1)) (closed : Bool) (key field : Bytes)
    (wire : Wire) (window : Option Nat) :
    ∃ slot after, fetchSingly key field ⟨.cluster nodes closed, wire, window⟩ =
        .ok slot ⟨.cluster nodes closed, after, window⟩ ∧
      wire.Sends (if closed then []
        else [⟨.execute, nodes.get (route n key), [Link.inquiry key field]⟩]) after := by
  cases closed with
  | true => exact ⟨none, wire, rfl, .refl wire⟩
  | false =>
    have hsend := nodes[route n key].getField_sends key field wire
    simp only [fetchSingly, getField, onLink, lend]
    cases hget : nodes[route n key].getField key field wire with
    | ok value middle | error e middle =>
      rw [hget] at hsend
      exact ⟨_, middle, rfl, hsend⟩

/-- A cluster goes on after fields that it fails to read. -/
theorem fetchEach_sends {n : Nat} (nodes : Vector Link (n + 1)) (closed : Bool) (key : Bytes)
    (fields : List Bytes) (wire : Wire) (window : Option Nat) :
    ∃ slots after, fields.mapM (fetchSingly key) ⟨.cluster nodes closed, wire, window⟩ =
        .ok slots ⟨.cluster nodes closed, after, window⟩ ∧
      wire.Sends (if closed then [] else fields.map fun field =>
        ⟨.execute, nodes.get (route n key), [Link.inquiry key field]⟩) after := by
  induction fields generalizing wire with
  | nil => exact ⟨[], wire, rfl, by cases closed <;> exact .refl wire⟩
  | cons field rest ih =>
    obtain ⟨slot, middle, hslot, hsends⟩ := fetchSingly_sends nodes closed key field wire window
    obtain ⟨slots, after, hslots, hsends'⟩ := ih middle
    refine ⟨slot :: slots, after, ?_, ?_⟩
    · rw [List.mapM_cons]
      simp [bind, EStateM.bind, hslot, hslots, pure, EStateM.pure]
    · have hall := hsends.append hsends'
      cases closed <;> exact hall

/-- A backend that is no cluster asks for its fields over one link. -/
theorem fetchRounds_calls {client : Client} (hsound : client.backend.Sound) (key : Bytes)
    (fields : List Bytes) (interval : Nat) :
    ∃ calls, client.wire.Sends calls (finalState (lend key (fun slots => slots.any Option.isNone)
        (·.fetchSlots key interval fields) client)).wire ∧
      match client.obtain key with
      | .error _ => calls = []
      | .ok link => link.AsksInRounds key fields interval calls := by
  obtain ⟨-, hlend⟩ := lend_calls hsound key (fun slots => slots.any Option.isNone)
    (·.fetchSlots key interval fields)
  cases hlink : client.obtain key with
  | error e =>
    rw [hlink] at hlend
    obtain ⟨after, hlent, hquiet⟩ := hlend
    rw [hlent]
    exact ⟨[], hquiet.sends, rfl⟩
  | ok link =>
    rw [hlink] at hlend
    obtain ⟨-, first, after, hfirst, hlast, hlent⟩ := hlend
    rw [hlent, finalState_withState]
    obtain ⟨calls, hsends, hasks⟩ := link.fetchSlots_sends key interval fields first
    exact ⟨calls, hsends.amid hfirst hlast, hasks⟩

theorem fetch_calls {client : Client} (hsound : client.backend.Sound) (key : Bytes)
    (fields : List Bytes) (interval : Nat) :
    ∃ calls, client.wire.Sends calls (finalState (fetch key fields interval client)).wire ∧
      client.AsksFor key fields interval calls := by
  rw [finalState_fetch]
  have hrounds := fetchRounds_calls hsound key fields interval
  obtain ⟨backend, wire, window⟩ := client
  cases backend with
  | cluster nodes closed =>
    obtain ⟨slots, after, hslots, hsends⟩ := fetchEach_sends nodes closed key fields wire window
    refine ⟨_, ?_, rfl⟩
    simp only [fetchSlots, hslots]
    exact hsends
  | single link closed | pooled pool | sharded shards =>
    obtain ⟨calls, hsends, hasks⟩ := hrounds
    refine ⟨calls, ?_, hasks⟩
    simp only [fetchSlots]
    cases hlent : lend key (fun slots => slots.any Option.isNone) (·.fetchSlots key interval fields)
        ⟨_, wire, window⟩ with
    | ok slots after | error e after =>
      rw [hlent] at hsends
      exact hsends

end Client

/-! ## Commits -/

/-- A call as it is planned: writes that are sent in some way to the store of a key. -/
structure Errand where
  mode : Mode
  key : Bytes
  writes : Batch

/-- The calls of a leg. -/
def Leg.errands (leg : Leg) : List Errand := leg.rounds.map fun round => ⟨leg.mode, leg.key, round⟩

/-- Whether a call is one that was planned, over a link to where it belongs. -/
structure Sending.Runs (leads : Bytes → Link → Prop) (call : Sending) (errand : Errand) : Prop where
  mode : call.mode = errand.mode
  commands : call.commands = errand.writes.commands
  link : leads errand.key call.link

/-- The planned calls passed in their order, up to one that failed, and all if the whole succeeded. -/
def Client.Passes (client : Client) (errands : List Errand)
    (result : EStateM.Result Error Client Unit) (calls : List Sending) : Prop :=
  ∃ done left, errands = done ++ left ∧ client.wire.Sends calls (finalState result).wire ∧
    List.Forall₂ (Sending.Runs client.backend.Leads) calls done ∧
    (outcome result = .ok () → left = [])

namespace Client

theorem pass_calls {client : Client} (hsound : client.backend.Sound) (leg : Leg) :
    (∃ calls, client.Passes leg.errands (leg.pass client) calls) ∧
      (finalState (leg.pass client)).backend.Leads = client.backend.Leads ∧
      (finalState (leg.pass client)).backend.Sound := by
  unfold Leg.pass onLink
  obtain ⟨hkept, hlend⟩ := lend_calls hsound leg.key (fun _ => false)
    fun link => leg.rounds.forM (link.post leg.mode)
  refine ⟨?_, hkept, (lend_later hsound leg.key _ _).sound⟩
  cases hlink : client.obtain leg.key with
  | error e =>
    rw [hlink] at hlend
    obtain ⟨after, hlent, hquiet⟩ := hlend
    rw [hlent]
    exact ⟨[], [], leg.errands, rfl, hquiet.sends, .nil, fun hok => nomatch hok⟩
  | ok link =>
    rw [hlink] at hlend
    obtain ⟨hleads, first, after, hfirst, hlast, hlent⟩ := hlend
    obtain ⟨done, left, hrounds, hsends, hall⟩ := link.posts_sends leg.mode leg.rounds first
    rw [hlent]
    refine ⟨done.map fun round => ⟨leg.mode, link, round.commands⟩,
      done.map fun round => ⟨leg.mode, leg.key, round⟩,
      left.map fun round => ⟨leg.mode, leg.key, round⟩, ?_, ?_, ?_, ?_⟩
    · rw [Leg.errands, hrounds, List.map_append]
    · rw [finalState_withState]
      exact hsends.amid hfirst hlast
    · rw [List.forall₂_map_left_iff, List.forall₂_map_right_iff]
      exact List.forall₂_same.2 fun round _ => ⟨rfl, rfl, hleads⟩
    · rw [outcome_withState]
      intro hok
      rw [hall hok, List.map_nil]

theorem legs_calls (legs : List Leg) {client : Client} (hsound : client.backend.Sound) :
    ∃ calls, client.Passes (legs.flatMap Leg.errands) (legs.forM Leg.pass client) calls := by
  induction legs generalizing client with
  | nil => exact ⟨[], [], [], rfl, .refl _, .nil, fun _ => rfl⟩
  | cons leg rest ih =>
    obtain ⟨⟨calls, done, left, hleg, hsends, hruns, hall⟩, hleads, hsound'⟩ := pass_calls hsound leg
    have hrun : (leg :: rest).forM Leg.pass client =
        (do leg.pass; rest.forM Leg.pass) client := rfl
    rw [hrun, List.flatMap_cons]
    cases hpass : leg.pass client with
    | error e middle =>
      rw [hpass] at hsends
      simp only [bind, EStateM.bind, hpass]
      refine ⟨calls, done, left ++ rest.flatMap Leg.errands, ?_, hsends, hruns, fun hok => nomatch hok⟩
      rw [hleg, List.append_assoc]
    | ok _ middle =>
      rw [hpass] at hsends hall hleads hsound'
      dsimp only [finalState] at hleads hsound'
      obtain ⟨more, done', left', hrest, hsends', hruns', hall'⟩ := ih hsound'
      rw [hleads] at hruns'
      obtain rfl := hall rfl
      simp only [bind, EStateM.bind, hpass]
      refine ⟨calls ++ more, done ++ done', left', ?_, hsends.append hsends',
        List.rel_append hruns hruns', hall'⟩
      rw [hleg, hrest, List.append_nil, List.append_assoc]

end Client

theorem Leg.writes_errands (leg : Leg) : leg.errands.flatMap Errand.writes = leg.writes := by
  rw [errands, writes, List.flatMap_map, List.flatMap_id']

/-- Calls that were planned carry the writes that were planned for them. -/
theorem Sending.commands_of_runs {leads : Bytes → Link → Prop} {calls : List Sending}
    {errands : List Errand} (h : List.Forall₂ (Sending.Runs leads) calls errands) :
    calls.flatMap Sending.commands = Batch.commands (errands.flatMap Errand.writes) := by
  induction h with
  | nil => rfl
  | cons hfirst _ ih =>
    rw [List.flatMap_cons, List.flatMap_cons, hfirst.commands, ih, Batch.commands, Batch.commands,
      Batch.commands, List.map_append]

/-- At most one call, a transaction that carries the whole batch. -/
def Batch.InOneTransaction (batch : Batch) (calls : List Sending) : Prop :=
  calls = [] ∨ ∃ link, calls = [⟨.transaction, link, batch.commands⟩]

theorem Batch.inOneTransaction_of_runs {leads : Bytes → Link → Prop} {batch : Batch}
    {calls : List Sending} {done left : List Errand}
    (hplan : (Leg.whole batch).errands = done ++ left)
    (hruns : List.Forall₂ (Sending.Runs leads) calls done) : batch.InOneTransaction calls := by
  cases hruns with
  | nil => exact .inl rfl
  | @cons call errand calls done hfirst hrest =>
    have hone : errand = ⟨.transaction, batch.leadingKey, batch⟩ ∧ done = [] := by
      simp only [Leg.errands, Leg.whole] at hplan
      split at hplan
      · cases hplan
      · rw [List.map_singleton, List.cons_append] at hplan
        obtain ⟨rfl, hnil⟩ := List.cons.inj hplan
        exact ⟨rfl, (List.append_eq_nil_iff.1 hnil.symm).1⟩
    obtain ⟨rfl, rfl⟩ := hone
    cases hrest
    obtain ⟨mode, link, commands⟩ := call
    obtain rfl : mode = .transaction := hfirst.mode
    obtain rfl : commands = batch.commands := hfirst.commands
    exact .inr ⟨link, rfl⟩

namespace Backend

/-- The calls of a commit. With one store they are one transaction, as they are if the batch stays on one
shard. Over several shards they are pipelines, each to the shard that all its writes belong to and no
longer than the interval. A cluster is sent each write by itself, on the node that owns its key. -/
def Carries (backend : Backend) (batch : Batch) (interval : Nat) (calls : List Sending) : Prop :=
  match backend with
  | single .. => batch.InOneTransaction calls
  | pooled _ => batch.InOneTransaction calls
  | @sharded n shards =>
    ((∃ slot, ∀ w ∈ batch, route n w.key = slot) → batch.InOneTransaction calls) ∧
      ((¬ ∃ slot, ∀ w ∈ batch, route n w.key = slot) → ∀ call ∈ calls, call.mode = .pipeline ∧
        call.commands.length ≤ max 1 interval ∧ ∃ slot, call.link.store = (shards.get slot).store ∧
          ∀ command ∈ call.commands, route n command.key = slot)
  | @cluster n nodes _ =>
    ∀ call ∈ calls, ∃ w, call = ⟨.execute, nodes.get (route n w.key), [.write w]⟩

/-- Of a batch that does not stay on one shard, every call is a pipeline to one shard. -/
theorem errands_of_spread {n : Nat} {shards : Vector Pool (n + 1)} {interval : Nat} {batch : Batch}
    (hspread : ¬ ∃ slot, ∀ w ∈ batch, route n w.key = slot) {errand : Errand}
    (h : errand ∈ ((sharded shards).legs interval batch).flatMap Leg.errands) :
    errand.mode = .pipeline ∧ errand.writes.length ≤ max 1 interval ∧
      ∀ w ∈ errand.writes, route n w.key = route n errand.key := by
  obtain ⟨leg, hleg, herrand⟩ := List.mem_flatMap.1 h
  simp only [legs] at hleg
  split at hleg
  · rename_i one hone
    exact absurd ⟨one.1, (Batch.eq_of_stretches hone).2⟩ hspread
  · obtain ⟨⟨slot, stretch⟩, hmem, rfl⟩ := List.mem_map.1 hleg
    obtain ⟨round, hround, rfl⟩ := List.mem_map.1 herrand
    obtain ⟨hne, hroute⟩ := Batch.mem_stretches hmem
    obtain ⟨first, hfirst, hleading⟩ := Batch.leadingKey_mem hne
    refine ⟨rfl, (mem_chunks hround).2, fun w hw => ?_⟩
    have hstretch : w ∈ stretch := by
      rw [← flatten_chunks interval stretch]
      exact List.mem_flatten.2 ⟨round, hround, hw⟩
    show route n w.key = route n stretch.leadingKey
    rw [hroute w hstretch, hleading, hroute first hfirst]

theorem carries_of_runs {backend : Backend} {batch : Batch} {interval : Nat} {calls : List Sending}
    {done left : List Errand}
    (hplan : (backend.legs interval batch).flatMap Leg.errands = done ++ left)
    (hruns : List.Forall₂ (Sending.Runs backend.Leads) calls done) :
    backend.Carries batch interval calls := by
  have hplanned : ∀ call ∈ calls, ∃ errand ∈ (backend.legs interval batch).flatMap Leg.errands,
      call.Runs backend.Leads errand := by
    intro call hmem
    obtain ⟨place, hcall, rfl⟩ := List.getElem_of_mem hmem
    have hdone : place < done.length := hruns.length_eq ▸ hcall
    refine ⟨done[place], ?_, hruns.get hcall hdone⟩
    rw [hplan]
    exact List.mem_append_left left (List.getElem_mem hdone)
  cases backend with
  | single link closed | pooled pool =>
    simp only [legs, List.flatMap_singleton] at hplan
    exact Batch.inOneTransaction_of_runs hplan hruns
  | @sharded n shards =>
    refine ⟨fun hone => ?_, fun hspread call hmem => ?_⟩
    · obtain ⟨slot, hslot⟩ := hone
      by_cases hempty : batch = []
      · subst hempty
        obtain rfl : done = [] := (List.append_eq_nil_iff.1 hplan.symm).1
        cases hruns
        exact .inl rfl
      · simp only [legs, Batch.stretches_of_single hempty hslot, List.flatMap_singleton] at hplan
        exact Batch.inOneTransaction_of_runs hplan hruns
    · obtain ⟨errand, herrand, hcall⟩ := hplanned call hmem
      obtain ⟨hmode, hlength, hroute⟩ := errands_of_spread hspread herrand
      refine ⟨hcall.mode.trans hmode, ?_, route n errand.key, hcall.link, ?_⟩
      · rw [hcall.commands, Batch.commands, List.length_map]
        exact hlength
      · rw [hcall.commands]
        intro command hcommand
        obtain ⟨w, hw, rfl⟩ := List.mem_map.1 hcommand
        exact hroute w hw
  | @cluster n nodes closed =>
    intro call hmem
    obtain ⟨errand, herrand, hmode, hcommands, hlink⟩ := hplanned call hmem
    obtain ⟨leg, hleg, herrand⟩ := List.mem_flatMap.1 herrand
    obtain ⟨w, -, rfl⟩ := List.mem_map.1 hleg
    obtain rfl := List.mem_singleton.1 herrand
    obtain ⟨mode, link, commands⟩ := call
    obtain rfl : mode = .execute := hmode
    obtain rfl : commands = [.write w] := hcommands
    obtain rfl : link = nodes.get (route n w.key) := hlink
    exact ⟨w, rfl⟩

end Backend

namespace Client

/-- What passes over the wire when a backend reads many fields or commits a batch, whatever fails. A
batched read asks for the fields in order, in pipelines of at most `interval` commands over one link, or
singly on a cluster, and asks for all of them once it has a link. A commit is one transaction, or a row of
such pipelines, or singly sent writes, as the stores of its keys decide. Its calls carry the writes in
order, none twice, and it succeeds only if they carried all. -/
theorem calls_of_fetch_and_commit {client : Client} (hsound : client.backend.Sound) (key : Bytes)
    (fields : List Bytes) (batch : Batch) (interval : Nat) :
    (∃ calls, client.wire.Sends calls (finalState (fetch key fields interval client)).wire ∧
      client.AsksFor key fields interval calls) ∧
    ∃ calls, client.wire.Sends calls (finalState (commit batch interval client)).wire ∧
      client.backend.Carries batch interval calls ∧
      calls.flatMap Sending.commands <+: batch.commands ∧
      (outcome (commit batch interval client) = .ok () →
        calls.flatMap Sending.commands = batch.commands) := by
  refine ⟨fetch_calls hsound key fields interval, ?_⟩
  obtain ⟨calls, done, left, hplan, hsends, hruns, hall⟩ :=
    legs_calls (client.backend.legs interval batch) hsound
  rw [← commit_eq] at hsends hall
  have hwrites : done.flatMap Errand.writes ++ left.flatMap Errand.writes = batch := by
    rw [← List.flatMap_append, ← hplan, List.flatMap_assoc]
    simp only [Leg.writes_errands]
    exact client.backend.writes_legs interval batch
  have hcommands := Sending.commands_of_runs hruns
  refine ⟨calls, hsends, Backend.carries_of_runs hplan hruns, ?_, fun hok => ?_⟩
  · rw [hcommands, ← hwrites, Batch.commands, Batch.commands, List.map_append]
    exact List.prefix_append _ _
  · rw [hall hok, List.flatMap_nil, List.append_nil] at hwrites
    rw [hcommands, hwrites]

/-- Two shards that were just opened: the second pipeline fails, and a batch goes from one shard to the
other and back. -/
theorem calls_of_fetch_and_commit_spread :
    let pool : Nat → Pool := fun store => ⟨⟨1, 0⟩, store, [], 0, false⟩
    let client : Client :=
      ⟨.sharded #v[pool 4, pool 5], Wire.new.arm ⟨.send .pipeline, .lost, 2⟩, none⟩
    let fields : List Bytes := [[7], [8], [9]]
    let batch : Batch := [⟨[1], .set [7] [70]⟩, ⟨[4], .set [7] [71]⟩, ⟨[4], .delete [[7]]⟩,
      ⟨[4], .set [8] [80]⟩, ⟨[1], .delete [[7]]⟩]
    client.backend.Sound ∧
      (∃ calls, client.wire.Sends calls (finalState (fetch [1] fields 2 client)).wire ∧
        client.AsksFor [1] fields 2 calls) ∧
      ∃ calls, client.wire.Sends calls (finalState (commit batch 2 client)).wire ∧
        client.backend.Carries batch 2 calls ∧ calls.flatMap Sending.commands <+: batch.commands ∧
        (outcome (commit batch 2 client) = .ok () →
          calls.flatMap Sending.commands = batch.commands) := by
  intro pool client fields batch
  have hnew : ∀ store, Pool.new ⟨1, 0⟩ store = .ok (pool store) := fun _ => rfl
  have hsound : client.backend.Sound := by
    intro slot
    fin_cases slot
    · exact (Backend.new_ready (hnew 4)).1
    · exact (Backend.new_ready (hnew 5)).1
  exact ⟨hsound, calls_of_fetch_and_commit hsound [1] fields batch 2⟩

end Client

end BlockDir
