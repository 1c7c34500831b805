import BlockDir.Proofs.Backend.Committing

/-!
# Mutations

A mutation reads what it needs and then commits one batch. What it is to answer and to commit is a
function of the tables that it finds, its plan; and whatever strikes it, its outcome is that of
committing the planned batch (`Client.Mutates`). A mutation whose tables are kept together is all or
nothing (`Client.Mutates.whole`).
-/

namespace BlockDir

/-- What a mutation does, told from the tables that it finds: the batch that it commits, and what it
answers after that. -/
abbrev Plan (α : Type) := (Bytes → Table) → Except Error (α × Batch)

namespace Plan

variable {α : Type}

/-- What is answered if nothing goes wrong. -/
def answer (plan : Plan α) (tables : Bytes → Table) : Except Error α := (plan tables).map (·.1)

/-- What is committed; a plan that refuses commits nothing. -/
def batch (plan : Plan α) (tables : Bytes → Table) : Batch :=
  match plan tables with
  | .ok (_, batch) => batch
  | .error _ => []

/-- The stores after the plan was carried out. -/
def onStores (plan : Plan α) (client : Client) : Nat → Store :=
  Batch.onStores client.backend.storeOf (plan.batch client.table) client.wire.store

/-- The stores when the first `count` writes of the plan were carried out. -/
def storesAt (plan : Plan α) (client : Client) (count : Nat) : Nat → Store :=
  Batch.onStores client.backend.storeOf ((plan.batch client.table).take count) client.wire.store

end Plan

namespace Client

variable {α β : Type} {keys : List Bytes}

/-- As long as reads are truthful, `act` does what `plan` says of the tables, up to the place where
it is stopped. -/
def Mutates (keys : List Bytes) (act : ClientM α) (plan : Plan α) : Prop :=
  ∀ client : Client, client.Sound → client.wire.Suffers Fault.Truthful →
    ∃ after count,
      Outcome keys (client.wire.Suffers Fault.Fair) client (plan.batch client.table)
        (plan.answer client.table) (act client) after count ∧
      (client.Whole keys → count = 0 ∨ count = (plan.batch client.table).length)

theorem Outcome.of_later {client middle after : Client} {batch : Batch} {answer : Except Error α}
    {result : EStateM.Result Error Client α} {count : Nat} (hlater : client.Later middle)
    (hstore : middle.wire.store = client.wire.store)
    (h : Outcome keys (middle.wire.Suffers Fault.Fair) middle batch answer result after count) :
    Outcome keys (client.wire.Suffers Fault.Fair) client batch answer result after count where
  bound := h.bound
  later := hlater.trans h.later
  stores := by rw [h.stores, hstore, hlater.backend.place]
  result := by
    rcases h.result with ⟨hok, hall⟩ | ⟨hsteady, herror⟩
    · exact .inl ⟨hok, fun hfair => hall (hlater.suffers hfair)⟩
    · exact .inr ⟨fun hsteady' => hsteady (hlater.steady hsteady'), herror⟩
  served := by
    rcases h.served with hzero | ⟨key, hkey, hserves⟩
    · exact .inl hzero
    · exact .inr ⟨key, hkey, (hlater.backend.serves key).1 hserves⟩

theorem Later.whole {client later : Client} (hlater : client.Later later) (h : client.Whole keys) :
    later.Whole keys :=
  ⟨hlater.suffers h.1, fun a ha b hb => (hlater.backend.together a b).2 (h.2 a ha b hb)⟩

theorem mutates_give (result : Except Error α) :
    Mutates keys (give result) fun _ => result.map fun a => (a, []) := by
  intro client hsound _
  refine ⟨client, 0, ?_, fun _ => .inl rfl⟩
  cases result with
  | ok a => exact .idle hsound (.ok a)
  | error e => exact .idle hsound (.error e)

theorem mutates_pure (a : α) : Mutates keys (pure a) fun _ => .ok (a, []) :=
  mutates_give (.ok a)

theorem mutates_throw (e : Error) : Mutates keys (throw e : ClientM α) fun _ => .error e :=
  mutates_give (.error e)

theorem mutates_commit {batch : Batch} (hne : batch ≠ []) (hkeys : ∀ w ∈ batch, w.key ∈ keys)
    (interval : Nat) : Mutates keys (commit batch interval) fun _ => .ok ((), batch) :=
  fun _ hsound htrue => commit_spec hne hkeys interval hsound htrue

/-- What is read first only goes into the plan. -/
theorem Reads.mutates {act : ClientM α} {f : (Bytes → Table) → Except Error α}
    {next : α → ClientM β} {p : α → Plan β} (hact : Reads keys act f)
    (hnext : ∀ a, Mutates keys (next a) (p a)) :
    Mutates keys (act >>= next) fun tables => f tables >>= fun a => p a tables := by
  intro client hsound htrue
  obtain ⟨middle, hlater, hstore, hok | ⟨hsteady, e, herror⟩⟩ := hact client hsound htrue
  · cases hf : f client.table with
    | error e =>
      have hrun : (act >>= next) client = .error e middle := by
        simp [Bind.bind, EStateM.bind, hok, hf]
      have hbatch : Plan.batch (fun tables => f tables >>= fun a => p a tables) client.table = [] := by
        simp [Plan.batch, hf, Bind.bind, Except.bind]
      have hanswer : Plan.answer (fun tables => f tables >>= fun a => p a tables) client.table =
          .error e := by
        simp [Plan.answer, hf, Bind.bind, Except.bind, Except.map]
      rw [hrun, hbatch, hanswer]
      exact ⟨middle, 0, ⟨Nat.le_refl _, hlater, hstore, .inl ⟨rfl, fun _ => rfl⟩, .inl rfl⟩,
        fun _ => .inl rfl⟩
    | ok a =>
      have hrun : (act >>= next) client = next a middle := by
        simp [Bind.bind, EStateM.bind, hok, hf]
      have hplan : (f client.table >>= fun a => p a client.table) = p a client.table := by
        simp [hf, Bind.bind, Except.bind]
      obtain ⟨after, count, houtcome, hwhole⟩ :=
        hnext a middle (hlater.sound hsound) (hlater.suffers htrue)
      rw [hlater.table hstore] at houtcome hwhole
      rw [hrun, Plan.batch, Plan.answer, hplan]
      exact ⟨after, count, houtcome.of_later hlater hstore, fun h => hwhole (hlater.whole h)⟩
  · have hrun : (act >>= next) client = .error e middle := by
      simp [Bind.bind, EStateM.bind, herror]
    rw [hrun]
    exact ⟨middle, 0, .failed hlater hstore hsteady, fun _ => .inl rfl⟩

/-- Another answer to the same mutation. -/
theorem Mutates.map {act : ClientM α} {plan : Plan α} (h : Mutates keys act plan) (f : α → β) :
    Mutates keys (act >>= fun a => pure (f a)) fun tables =>
      (plan tables).map fun (a, batch) => (f a, batch) := by
  intro client hsound htrue
  obtain ⟨after, count, houtcome, hwhole⟩ := h client hsound htrue
  have hbatch : Plan.batch (fun tables => (plan tables).map fun (a, batch) => (f a, batch))
      client.table = plan.batch client.table := by
    rw [Plan.batch, Plan.batch]
    cases plan client.table <;> rfl
  have hanswer : Plan.answer (fun tables => (plan tables).map fun (a, batch) => (f a, batch))
      client.table = (plan.answer client.table).map f := by
    rw [Plan.answer, Plan.answer]
    cases plan client.table <;> rfl
  rw [hbatch, hanswer]
  refine ⟨after, count, ⟨houtcome.bound, houtcome.later, houtcome.stores, ?_, houtcome.served⟩, hwhole⟩
  rcases houtcome.result with ⟨hok, hcount⟩ | ⟨hsteady, e, herror⟩
  · refine .inl ⟨?_, hcount⟩
    cases ha : plan.answer client.table <;>
      simp [bind, EStateM.bind, hok, ha, pure, EStateM.pure, Except.map]
  · exact .inr ⟨hsteady, e, by simp [bind, EStateM.bind, herror]⟩

/-- What is seen of the stores between two writes of a plan. -/
theorem Sees.table_storesAt {plan : Plan α} {client observer : Client} {count : Nat}
    (h : observer.Sees client.backend.storeOf keys (plan.storesAt client count)) {key : Bytes}
    (hkey : key ∈ keys) :
    observer.table key = Batch.onTables ((plan.batch client.table).take count) client.table key := by
  rw [h.table hkey, Plan.storesAt, Batch.tables_onStores]
  rfl

/-- Without faults, and with all keys served, the plan is carried out. -/
theorem Mutates.steady {act : ClientM α} {plan : Plan α} (h : Mutates keys act plan)
    {client : Client} (hsound : client.Sound) (hsteady : client.Steady keys) :
    ∃ after, act client = give (plan.answer client.table) after ∧ client.Later after ∧
      after.wire.store = plan.onStores client := by
  have hnone := Wire.suffers_of_threats_nil hsteady.threats
  obtain ⟨after, count, houtcome, -⟩ := h client hsound (hnone _)
  rcases houtcome.result with ⟨hok, hcount⟩ | ⟨hno, -⟩
  · refine ⟨after, hok, houtcome.later, ?_⟩
    rw [houtcome.stores, hcount (hnone _), List.take_length]
    rfl
  · exact absurd hsteady hno

/-- A mutation of tables that are kept together is all or nothing, and all if it succeeds and
success confirms what was applied. -/
theorem Mutates.whole {act : ClientM α} {plan : Plan α} (h : Mutates keys act plan)
    {client : Client} (hsound : client.Sound) (htrue : client.wire.Suffers Fault.Truthful)
    (hwhole : client.Whole keys) :
    ∃ after, finalState (act client) = after ∧ client.Later after ∧
      (after.wire.store = client.wire.store ∨ after.wire.store = plan.onStores client) ∧
      (act client = give (plan.answer client.table) after ∧
          (client.wire.Suffers Fault.Fair → after.wire.store = plan.onStores client) ∨
        ∃ e, act client = .error e after) := by
  obtain ⟨after, count, houtcome, hends⟩ := h client hsound htrue
  have hall : count = (plan.batch client.table).length →
      after.wire.store = plan.onStores client := by
    intro hcount
    rw [houtcome.stores, hcount, List.take_length]
    rfl
  refine ⟨after, houtcome.finalState, houtcome.later, ?_, ?_⟩
  · rcases hends hwhole with hzero | hcount
    · left
      rw [houtcome.stores, hzero, List.take_zero, Batch.onStores_nil]
    · exact .inr (hall hcount)
  · rcases houtcome.result with ⟨hok, hcount⟩ | ⟨-, herror⟩
    · exact .inl ⟨hok, fun hfair => hall (hcount hfair)⟩
    · exact .inr herror

/-- A mutation that succeeds has carried out its plan, if success confirms what was applied. -/
theorem Mutates.stores_of_ok {act : ClientM α} {plan : Plan α} (h : Mutates keys act plan)
    {client after : Client} {a : α} (hsound : client.Sound)
    (htrue : client.wire.Suffers Fault.Truthful) (hfair : client.wire.Suffers Fault.Fair)
    (hok : act client = .ok a after) :
    ∃ batch, plan client.table = .ok (a, batch) ∧ client.Later after ∧
      after.wire.store = Batch.onStores client.backend.storeOf batch client.wire.store := by
  obtain ⟨last, count, houtcome, -⟩ := h client hsound htrue
  obtain rfl : after = last := by
    rw [← houtcome.finalState, hok]
    rfl
  rcases houtcome.result with ⟨hgive, hall⟩ | ⟨-, e, herror⟩
  · rw [hgive, Plan.answer] at hok
    cases hplan : plan client.table with
    | error e =>
      rw [hplan] at hok
      cases hok
    | ok planned =>
      rw [hplan] at hok
      obtain ⟨rfl, -⟩ := EStateM.Result.ok.inj hok
      refine ⟨planned.2, rfl, houtcome.later, ?_⟩
      rw [houtcome.stores, hall hfair, List.take_length, Plan.batch, hplan]
  · rw [herror] at hok
    cases hok

/-- A mutation that reaches no store changes none. -/
theorem Mutates.unserved {act : ClientM α} {plan : Plan α} (h : Mutates keys act plan)
    {client : Client} (hsound : client.Sound) (htrue : client.wire.Suffers Fault.Truthful)
    (hserves : ∀ key ∈ keys, ¬ client.backend.Serves key) :
    (finalState (act client)).wire.store = client.wire.store := by
  obtain ⟨after, count, houtcome, -⟩ := h client hsound htrue
  have hzero : count = 0 := by
    rcases houtcome.served with hzero | ⟨key, hkey, hserved⟩
    · exact hzero
    · exact absurd hserved (hserves key hkey)
  rw [houtcome.finalState, houtcome.stores, hzero, List.take_zero, Batch.onStores_nil]

/-- No fault waits and all keys are served, or reads are truthful and mutations all or nothing. -/
def Reliable (keys : List Bytes) (client : Client) : Prop :=
  client.Steady keys ∨ client.wire.Suffers Fault.Truthful ∧ client.Whole keys

theorem Reliable.truthful {client : Client} (h : client.Reliable keys) :
    client.wire.Suffers Fault.Truthful := by
  rcases h with hsteady | h
  · exact Wire.suffers_of_threats_nil hsteady.threats _
  · exact h.1

theorem Later.reliable {client later : Client} (hlater : client.Later later)
    (h : client.Reliable keys) : later.Reliable keys := by
  rcases h with hsteady | ⟨htrue, hwhole⟩
  · exact .inl (hlater.steady hsteady)
  · exact .inr ⟨hlater.suffers htrue, hlater.whole hwhole⟩

/-- Where mutations are reliable, nothing is done or all that was planned. -/
theorem Mutates.reliable {act : ClientM α} {plan : Plan α} (h : Mutates keys act plan)
    {client : Client} (hsound : client.Sound) (hreliable : client.Reliable keys) :
    client.Later (finalState (act client)) ∧
      ((finalState (act client)).wire.store = client.wire.store ∨
        (finalState (act client)).wire.store = plan.onStores client) := by
  rcases hreliable with hsteady | ⟨htrue, hwhole⟩
  · obtain ⟨after, hok, hlater, hstore⟩ := h.steady hsound hsteady
    rw [hok, finalState_give]
    exact ⟨hlater, .inr hstore⟩
  · obtain ⟨after, hfinal, hlater, hends, -⟩ := h.whole hsound htrue hwhole
    rw [hfinal]
    exact ⟨hlater, hends⟩

end Client

end BlockDir
