import BlockDir.Proofs.Backend.Committing

/-!
# The course of a commit

Every backend sends the writes of a batch in order, in calls of its own cut, and stops at the first
call that fails (`Course`). As long as nothing is answered that was not applied, a batch is therefore
applied up to some write, and to the last one if its commit succeeds
(`Client.commit_applies_prefix`).
-/

namespace BlockDir

/-- Nothing is answered for commands that were not applied. -/
def Fault.Honest (_ : Moment) (fault : Fault) : Prop := ∀ answer, fault ≠ .refused answer

theorem forM_singleton {ε σ α : Type} (f : α → EStateM ε σ Unit) (a : α) : [a].forM f = f a := by
  simp only [List.forM_eq_forM, List.forM_cons, List.forM_nil, bind_pure_unit]

/-! ## Calls -/

/-- What the replies to writes are taken for: a single reply must be a number, and several must be as
many as the writes and all of them numbers. -/
def Mode.judge (mode : Mode) (writes : Batch) (replies : List Reply) : Except Error Unit :=
  match mode with
  | .execute => (replies.headD .nil).toInteger.map fun _ => ()
  | .pipeline | .transaction => writes.verify replies

namespace Link

/-- Sends writes in one call, which fails if it is not answered as it should be. -/
def post (link : Link) (mode : Mode) (writes : Batch) : WireM Unit := do
  give (mode.judge writes (← link.send mode writes.commands))

theorem finalState_post (link : Link) (mode : Mode) (writes : Batch) (wire : Wire) :
    finalState (link.post mode writes wire) = finalState (link.send mode writes.commands wire) := by
  simp only [post, bind, EStateM.bind]
  cases link.send mode writes.commands wire with
  | ok replies after => exact finalState_give _ _
  | error e after => rfl

/-- A call applies some first writes, and all if it succeeds. -/
theorem post_wrote {link : Link} (hopen : link.isOpen = true) (mode : Mode) (writes : Batch)
    {wire : Wire} (hhonest : wire.Suffers Fault.Honest) :
    ∃ count, link.Wrote writes wire (finalState (link.post mode writes wire)) count ∧
      (outcome (link.post mode writes wire) = .ok () → count = writes.length) := by
  obtain ⟨hsent, hthreats⟩ := send_sent hopen mode writes.commands wire
  have hfailed : ∀ {e after}, link.send mode writes.commands wire = .error e after →
      outcome (link.post mode writes wire) ≠ .ok () := by
    intro e after herror
    simp [post, bind, EStateM.bind, herror, outcome]
  rw [finalState_post]
  generalize hresult : link.send mode writes.commands wire = result at hsent hthreats hfailed ⊢
  cases hsent with
  | answered stores | garbled threat stores =>
    exact ⟨writes.length, .all hthreats stores, fun _ => rfl⟩
  | failed threat stores => exact ⟨writes.length, .all hthreats stores, fun _ => rfl⟩
  | @cut after count error threat stores =>
    refine ⟨min count writes.length, ⟨Nat.min_le_right _ _, hthreats, ?_⟩, fun hok => ?_⟩
    · rw [← List.take_eq_take_min, ← storesAfter_take]
      exact stores
    · exact absurd hok (hfailed rfl)
  | @refused after answer threat stores => exact absurd rfl (hhonest _ threat answer)

theorem transact_eq_posts (batch : Batch) (link : Link) :
    link.transact batch = (if batch.isEmpty then [] else [batch]).forM (link.post .transaction) := by
  rw [transact]
  split
  · rfl
  · rw [forM_singleton]
    rfl

theorem execute_eq_posts (w : Write) (link : Link) :
    (do let _ ← give (← link.execute (.write w)).toInteger : WireM Unit) =
      [[w]].forM (link.post .execute) := by
  rw [forM_singleton]
  funext wire
  have hcommands : Batch.commands [w] = [.write w] := rfl
  simp only [post, Mode.judge, hcommands, execute, Functor.map, EStateM.map, bind, EStateM.bind, pure,
    EStateM.pure]
  cases link.send .execute [.write w] wire with
  | error e after => rfl
  | ok replies after =>
    dsimp only
    cases (replies.headD .nil).toInteger <;> rfl

end Link

/-! ## How a batch is cut -/

/-- Writes that go over one link to the store of a key, in rounds of one call each. -/
structure Leg where
  key : Bytes
  mode : Mode
  rounds : List Batch

namespace Leg

/-- The writes of all rounds. -/
def writes (leg : Leg) : Batch := leg.rounds.flatten

/-- Sends the rounds, up to the first call that fails. -/
def pass (leg : Leg) : ClientM Unit :=
  Client.onLink leg.key fun link => leg.rounds.forM (link.post leg.mode)

/-- A batch in one transaction. -/
def whole (batch : Batch) : Leg :=
  ⟨batch.leadingKey, .transaction, if batch.isEmpty then [] else [batch]⟩

theorem writes_whole (batch : Batch) : (whole batch).writes = batch := by
  cases batch with
  | nil => rfl
  | cons w rest => simp [whole, writes]

theorem pass_whole (batch : Batch) :
    (whole batch).pass = Client.onLink batch.leadingKey (·.transact batch) := by
  rw [pass]
  congr 1
  funext link
  exact (link.transact_eq_posts batch).symm

end Leg

namespace Backend

/-- How a backend cuts a batch. -/
def legs (backend : Backend) (interval : Nat) (batch : Batch) : List Leg :=
  match backend with
  | single .. => [.whole batch]
  | pooled _ => [.whole batch]
  | @sharded n _ =>
    match batch.stretches n with
    | [_] => [.whole batch]
    | stretches => stretches.map fun (_, stretch) =>
      ⟨stretch.leadingKey, .pipeline, chunks interval stretch⟩
  | cluster .. => batch.map fun w => ⟨w.key, .execute, [[w]]⟩

/-- Nothing is lost by the cut, and nothing changes its place. -/
theorem writes_legs (backend : Backend) (interval : Nat) (batch : Batch) :
    (backend.legs interval batch).flatMap Leg.writes = batch := by
  cases backend with
  | single link closed | pooled pool => simp [legs, Leg.writes_whole]
  | @sharded n shards =>
    simp only [legs]
    split
    · simp [Leg.writes_whole]
    · rw [List.flatMap_map, List.flatMap_def]
      simp only [Leg.writes, flatten_chunks]
      exact Batch.flatten_stretches n batch
  | cluster nodes closed =>
    simp only [legs, List.flatMap_map]
    exact List.flatMap_singleton' batch

/-- All writes of a leg belong to the store that it goes to. -/
theorem place_legs (backend : Backend) (interval : Nat) (batch : Batch) :
    ∀ leg ∈ backend.legs interval batch, ∀ w ∈ leg.writes,
      backend.storeOf w.key = backend.storeOf leg.key := by
  intro leg hleg w hw
  cases backend with
  | single link closed | pooled pool => rfl
  | @sharded n shards =>
    have hstretch : ∀ slot stretch, (slot, stretch) ∈ batch.stretches n → ∀ v ∈ stretch,
        (sharded shards).storeOf v.key = (sharded shards).storeOf stretch.leadingKey := by
      intro slot stretch hmem v hv
      obtain ⟨hne, hroute⟩ := Batch.mem_stretches hmem
      obtain ⟨first, hfirst, hleading⟩ := Batch.leadingKey_mem hne
      rw [hleading]
      simp only [storeOf, hroute v hv, hroute first hfirst]
    simp only [legs] at hleg
    split at hleg
    · rename_i one hone
      obtain rfl := List.mem_singleton.1 hleg
      obtain ⟨rfl, -⟩ := Batch.eq_of_stretches hone
      rw [Leg.writes_whole] at hw
      exact hstretch one.1 one.2 (hone ▸ List.mem_cons_self) w hw
    · obtain ⟨⟨slot, stretch⟩, hmem, rfl⟩ := List.mem_map.1 hleg
      rw [Leg.writes, flatten_chunks] at hw
      exact hstretch slot stretch hmem w hw
  | cluster nodes closed =>
    obtain ⟨v, -, rfl⟩ := List.mem_map.1 hleg
    obtain rfl : w = v := by simpa [Leg.writes] using hw
    rfl

/-- A batch on tables that are kept together is not cut. -/
theorem legs_of_together {backend : Backend} {keys : List Bytes}
    (htogether : ∀ a ∈ keys, ∀ b ∈ keys, backend.Together a b) {batch : Batch} (hne : batch ≠ [])
    (hkeys : ∀ w ∈ batch, w.key ∈ keys) (interval : Nat) :
    backend.legs interval batch = [.whole batch] := by
  obtain ⟨first, hfirst, -⟩ := Batch.leadingKey_mem hne
  have hall := htogether first.key (hkeys first hfirst)
  cases backend with
  | single link closed | pooled pool => rfl
  | @sharded n shards =>
    have hstretches := Batch.stretches_of_single (n := n) hne fun w hmem =>
      (hall w.key (hkeys w hmem)).2.symm
    simp only [legs]
    unfold width at hstretches
    rw [hstretches]
  | cluster nodes closed => exact absurd rfl (hall first.key (hkeys first hfirst)).1

end Backend

/-- A commit passes its legs in turn. -/
theorem Client.commit_eq (batch : Batch) (interval : Nat) (client : Client) :
    commit batch interval client = ((client.backend.legs interval batch).forM Leg.pass) client := by
  have hwhole : [Leg.whole batch].forM Leg.pass = onLink batch.leadingKey (·.transact batch) := by
    rw [forM_singleton, Leg.pass_whole]
  obtain ⟨backend, wire, window⟩ := client
  cases backend with
  | single link closed | pooled pool =>
    simp only [Backend.legs, hwhole]
    rfl
  | @sharded n shards =>
    simp only [commit, Backend.legs]
    cases batch.stretches n with
    | nil => rfl
    | cons one more =>
      cases more with
      | nil => rw [hwhole]
      | cons two rest =>
        simp only [List.forM_eq_forM, List.forM_map]
        rfl
  | cluster nodes closed =>
    have hsingle : writeSingly = fun w => Leg.pass ⟨w.key, .execute, [[w]]⟩ := by
      funext w
      simp only [writeSingly, Leg.pass, Link.execute_eq_posts]
    simp only [commit, Backend.legs]
    rw [List.forM_eq_forM, List.forM_eq_forM, List.forM_map, hsingle]

/-! ## Courses -/

/-- How a batch may fare between two wires, when its keys lead to the stores that `place` says, with
what it comes to. Writes are sent in order, in calls of rounds that belong to one store each, and
nothing is sent between the calls or after one that fails. -/
inductive Course (place : Bytes → Nat) : Wire → Batch → Except Error Unit → Wire → Prop where
  /-- Nothing is left to be sent. -/
  | done {before after : Wire} (quiet : before.Quiet after) : Course place before [] (.ok ()) after
  /-- No link is had over which to send the rest. -/
  | stopped {before after : Wire} {rest : Batch} {e : Error} (quiet : before.Quiet after) :
      Course place before rest (.error e) after
  /-- The next call fails. -/
  | failed {before first middle after : Wire} {link : Link} {mode : Mode} {round rest : Batch}
      {e : Error} (quiet : before.Quiet first) (opened : link.isOpen = true)
      (placed : ∀ w ∈ round, place w.key = link.store)
      (call : link.post mode round first = .error e middle) (last : middle.Quiet after) :
      Course place before (round ++ rest) (.error e) after
  /-- The next call succeeds. -/
  | passed {before first middle after : Wire} {link : Link} {mode : Mode} {round rest : Batch}
      {result : Except Error Unit} (quiet : before.Quiet first) (opened : link.isOpen = true)
      (placed : ∀ w ∈ round, place w.key = link.store)
      (call : link.post mode round first = .ok () middle)
      (next : Course place middle rest result after) :
      Course place before (round ++ rest) result after

namespace Course

variable {place : Bytes → Nat} {a b c : Wire} {batch more : Batch} {result : Except Error Unit}

theorem of_quiet (hquiet : a.Quiet b) (h : Course place b batch result c) :
    Course place a batch result c := by
  cases h with
  | done quiet => exact .done (hquiet.trans quiet)
  | stopped quiet => exact .stopped (hquiet.trans quiet)
  | failed quiet opened placed call last =>
    exact .failed (hquiet.trans quiet) opened placed call last
  | passed quiet opened placed call next =>
    exact .passed (hquiet.trans quiet) opened placed call next

theorem then_quiet (h : Course place a batch result b) (hquiet : b.Quiet c) :
    Course place a batch result c := by
  induction h with
  | done quiet => exact .done (quiet.trans hquiet)
  | stopped quiet => exact .stopped (quiet.trans hquiet)
  | failed quiet opened placed call last =>
    exact .failed quiet opened placed call (last.trans hquiet)
  | passed quiet opened placed call _ ih => exact .passed quiet opened placed call (ih hquiet)

/-- A batch that fails on the way leaves what follows it unsent. -/
theorem stop {e : Error} (h : Course place a batch (.error e) b) :
    Course place a (batch ++ more) (.error e) b := by
  generalize hresult : (.error e : Except Error Unit) = result at h
  induction h with
  | done quiet => cases hresult
  | stopped quiet => exact .stopped quiet
  | failed quiet opened placed call last =>
    rw [List.append_assoc]
    exact .failed quiet opened placed call last
  | passed quiet opened placed call _ ih =>
    rw [List.append_assoc]
    exact .passed quiet opened placed call (ih hresult)

theorem append (h : Course place a batch (.ok ()) b) (h' : Course place b more result c) :
    Course place a (batch ++ more) result c := by
  generalize hok : (.ok () : Except Error Unit) = first at h
  induction h with
  | done quiet => exact h'.of_quiet quiet
  | stopped quiet => cases hok
  | failed quiet opened placed call last => cases hok
  | passed quiet opened placed call _ ih =>
    rw [List.append_assoc]
    exact .passed quiet opened placed call (ih h' hok)

/-- As long as nothing is answered that was not applied, the writes are applied up to one of them, and
all are if the batch comes to success. -/
theorem applied (h : Course place a batch result b) (hhonest : a.Suffers Fault.Honest) :
    ∃ count ≤ batch.length,
      b.store = Batch.onStores place (batch.take count) a.store ∧
      (result = .ok () → count = batch.length) := by
  induction h with
  | done quiet => exact ⟨0, Nat.le_refl _, quiet.stores, fun _ => rfl⟩
  | stopped quiet => exact ⟨0, Nat.zero_le _, quiet.stores, fun hok => nomatch hok⟩
  | @failed before first middle after link mode round rest e quiet opened placed call last =>
    obtain ⟨count, hwrote, -⟩ := Link.post_wrote opened mode round (hhonest.mono quiet.threats)
    rw [call] at hwrote
    have hbound := hwrote.bound
    refine ⟨count, by rw [List.length_append]; omega, ?_, fun hok => nomatch hok⟩
    rw [last.stores, List.take_append_of_le_length hbound, Batch.onStores_of_single
      (fun w hmem => placed w (List.mem_of_mem_take hmem)), ← quiet.stores]
    exact hwrote.stores
  | @passed before first middle after link mode round rest result quiet opened placed call next ih =>
    obtain ⟨count, hwrote, hall⟩ := Link.post_wrote opened mode round (hhonest.mono quiet.threats)
    rw [call] at hwrote hall
    obtain rfl := hall rfl
    have hmiddle : middle.Suffers Fault.Honest :=
      (hhonest.mono quiet.threats).mono hwrote.threats
    obtain ⟨more, hbound, hstores, hwhole⟩ := ih hmiddle
    refine ⟨round.length + more, ?_, ?_, fun hok => ?_⟩
    · rw [List.length_append]
      omega
    · have hround : middle.store = Batch.onStores place round before.store := by
        rw [Batch.onStores_of_single placed, ← quiet.stores]
        have hstores := hwrote.stores
        rw [List.take_length] at hstores
        exact hstores
      rw [hstores, hround, List.take_length_add_append, Batch.onStores_append]
    · rw [hwhole hok, List.length_append]

/-- Rounds that are sent over an open link. -/
theorem of_rounds {link : Link} (hopen : link.isOpen = true) (mode : Mode) (rounds : List Batch)
    (hplaced : ∀ w ∈ rounds.flatten, place w.key = link.store) (wire : Wire) :
    Course place wire rounds.flatten (outcome (rounds.forM (link.post mode) wire))
      (finalState (rounds.forM (link.post mode) wire)) := by
  induction rounds generalizing wire with
  | nil => exact .done (.refl wire)
  | cons round rest ih =>
    rw [List.flatten_cons] at hplaced ⊢
    have hround : ∀ w ∈ round, place w.key = link.store := by
      intro w hmem
      exact hplaced w (List.mem_append_left _ hmem)
    have hrest : ∀ w ∈ rest.flatten, place w.key = link.store := by
      intro w hmem
      exact hplaced w (List.mem_append_right _ hmem)
    have hrun : (round :: rest).forM (link.post mode) wire =
        (do link.post mode round; rest.forM (link.post mode)) wire := rfl
    rw [hrun]
    cases hcall : link.post mode round wire with
    | error e middle =>
      simp only [bind, EStateM.bind, hcall]
      exact .failed (.refl wire) hopen hround hcall (.refl middle)
    | ok _ middle =>
      simp only [bind, EStateM.bind, hcall]
      exact .passed (.refl wire) hopen hround hcall (ih hrest middle)

end Course

namespace Client

/-- A leg is passed over one link, or stopped because none is had. -/
theorem pass_course (leg : Leg) {client : Client} (hsound : client.backend.Sound)
    (hplaced : ∀ w ∈ leg.writes, client.backend.storeOf w.key = client.backend.storeOf leg.key) :
    Course client.backend.storeOf client.wire leg.writes (outcome (leg.pass client))
        (finalState (leg.pass client)).wire ∧
      client.backend.Later (finalState (leg.pass client)).backend := by
  unfold Leg.pass onLink
  obtain ⟨-, e, herror⟩ | ⟨e, after, herror, hlater, hstruck⟩ |
    ⟨link, first, after, -, hopen, hlink, hfirst, hlast, hlater, -, hresult⟩ :=
    lend_spec hsound leg.key (fun _ => false) fun link => leg.rounds.forM (link.post leg.mode)
  · rw [herror]
    exact ⟨.stopped (.refl _), .refl hsound⟩
  · rw [herror]
    exact ⟨.stopped hstruck.toQuiet, hlater.backend⟩
  · rw [hresult, outcome_withState, finalState_withState]
    have hcourse := Course.of_rounds hopen leg.mode leg.rounds
      (fun w hmem => (hplaced w hmem).trans hlink.symm) first
    exact ⟨(hcourse.of_quiet hfirst.toQuiet).then_quiet hlast.toQuiet, hlater⟩

theorem legs_course (legs : List Leg) {client : Client} (hsound : client.backend.Sound)
    (hplaced : ∀ leg ∈ legs, ∀ w ∈ leg.writes,
      client.backend.storeOf w.key = client.backend.storeOf leg.key) :
    Course client.backend.storeOf client.wire (legs.flatMap Leg.writes)
      (outcome (legs.forM Leg.pass client)) (finalState (legs.forM Leg.pass client)).wire := by
  induction legs generalizing client with
  | nil => exact .done (.refl _)
  | cons leg rest ih =>
    obtain ⟨hfirst, hlater⟩ := pass_course leg hsound (hplaced leg List.mem_cons_self)
    have hrun : (leg :: rest).forM Leg.pass client =
        (do leg.pass; rest.forM Leg.pass) client := rfl
    rw [hrun, List.flatMap_cons]
    cases hpass : leg.pass client with
    | error e middle =>
      rw [hpass] at hfirst
      simp only [bind, EStateM.bind, hpass]
      exact hfirst.stop
    | ok _ middle =>
      rw [hpass] at hfirst hlater
      dsimp only [finalState] at hfirst hlater
      have hplace := hlater.place
      have hnext := ih hlater.sound fun other hother => by
        rw [hplace]
        exact hplaced other (List.mem_cons_of_mem _ hother)
      rw [hplace] at hnext
      simp only [bind, EStateM.bind, hpass]
      exact hfirst.append hnext

/-- Whatever fails, a commit takes a course in which the writes of its batch are sent in order and
none after a call that failed. As long as nothing is answered that was not applied, some first writes
of the batch are applied and nothing else is, and they are the whole batch if the commit succeeds. -/
theorem commit_applies_prefix (batch : Batch) (interval : Nat) {client : Client}
    (hsound : client.backend.Sound) (hhonest : client.wire.Suffers Fault.Honest) :
    let result := commit batch interval client
    Course client.backend.storeOf client.wire batch (outcome result) (finalState result).wire ∧
      ∃ count ≤ batch.length,
        (finalState result).wire.store =
          Batch.onStores client.backend.storeOf (batch.take count) client.wire.store ∧
        (outcome result = .ok () → count = batch.length) := by
  intro result
  have hcourse : Course client.backend.storeOf client.wire batch (outcome result)
      (finalState result).wire := by
    have hlegs := legs_course (client.backend.legs interval batch) hsound
      (client.backend.place_legs interval batch)
    rw [Backend.writes_legs, ← commit_eq] at hlegs
    exact hlegs
  exact ⟨hcourse, hcourse.applied hhonest⟩

/-- A batch that goes from one shard to the other and back in rounds of two writes, of which the third
is cut after its first write. -/
theorem commit_applies_prefix_cut :
    let pool : Nat → Pool := fun store => ⟨⟨1, 0⟩, store, [], 0, false⟩
    let wire := Wire.new.arm ⟨.send .pipeline, Fault.cut 1, 3⟩
    let client : Client := ⟨.sharded #v[pool 4, pool 5], wire, none⟩
    let batch : Batch := [⟨[1], .set [7] [70]⟩, ⟨[4], .set [7] [71]⟩, ⟨[4], .delete [[7]]⟩,
      ⟨[4], .set [8] [80]⟩, ⟨[4], .set [9] [90]⟩, ⟨[1], .delete [[7]]⟩]
    let result := commit batch 2 client
    Course client.backend.storeOf client.wire batch (outcome result) (finalState result).wire ∧
      ∃ count ≤ batch.length,
        (finalState result).wire.store =
          Batch.onStores client.backend.storeOf (batch.take count) client.wire.store ∧
        (outcome result = .ok () → count = batch.length) := by
  intro pool wire client batch
  have hpool : ∀ store, (pool store).Sound := by
    intro store
    exact ⟨fun _ hmem => absurd hmem List.not_mem_nil, Nat.one_pos, Nat.zero_le 1⟩
  have hsound : client.backend.Sound := by
    intro slot
    fin_cases slot
    · exact hpool 4
    · exact hpool 5
  have hhonest : wire.Suffers Fault.Honest := by
    have hnone : Wire.new.Suffers Fault.Honest := Wire.suffers_of_threats_nil rfl _
    apply hnone.arm
    intro answer heq
    cases heq
  exact commit_applies_prefix batch 2 hsound hhonest

end Client

end BlockDir
