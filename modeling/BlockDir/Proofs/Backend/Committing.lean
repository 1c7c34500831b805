import BlockDir.Proofs.Backend.Reading

/-!
# Committing through a backend

Whatever the backend, a commit applies the writes of its batch in order up to some place, and as long
as replies arrive only for what was applied, it succeeds only if it applied all of them
(`Client.commit_spec`). If the tables that it writes are kept together and faults spare transactions
from being torn, it stops at one of the two ends.
-/

namespace BlockDir

namespace Batch

theorem flatten_stretches (n : Nat) (batch : Batch) :
    ((stretches n batch).map (·.2)).flatten = batch := by
  induction batch with
  | nil => rfl
  | cons w rest ih =>
    rw [stretches]
    cases hrest : stretches n rest with
    | nil =>
      rw [hrest] at ih
      simpa using ih
    | cons first more =>
      obtain ⟨slot, stretch⟩ := first
      rw [hrest] at ih
      simp only [List.map_cons, List.flatten_cons] at ih
      dsimp only
      split <;> simp [← ih]

/-- A stretch is not empty, and stays on its store. -/
theorem mem_stretches {n : Nat} {batch : Batch} {slot : Fin (n + 1)} {stretch : Batch}
    (h : (slot, stretch) ∈ stretches n batch) :
    stretch ≠ [] ∧ ∀ w ∈ stretch, route n w.key = slot := by
  induction batch generalizing slot stretch with
  | nil => exact absurd h List.not_mem_nil
  | cons w rest ih =>
    rw [stretches] at h
    cases hrest : stretches n rest with
    | nil =>
      rw [hrest] at h
      obtain ⟨rfl, rfl⟩ := Prod.mk.inj (List.mem_singleton.1 h)
      simp
    | cons first more =>
      obtain ⟨place, front⟩ := first
      rw [hrest] at h ih
      dsimp only at h
      split at h
      · rename_i hroute
        rcases List.mem_cons.1 h with heq | hmem
        · obtain ⟨rfl, rfl⟩ := Prod.mk.inj heq
          refine ⟨by simp, ?_⟩
          intro other hother
          rcases List.mem_cons.1 hother with rfl | hother
          · exact hroute
          · exact (ih List.mem_cons_self).2 other hother
        · exact ih (List.mem_cons_of_mem _ hmem)
      · rcases List.mem_cons.1 h with heq | hmem
        · obtain ⟨rfl, rfl⟩ := Prod.mk.inj heq
          simp
        · exact ih hmem

/-- A batch that stays on one store is one stretch. -/
theorem stretches_of_single {n : Nat} {slot : Fin (n + 1)} {batch : Batch} (hne : batch ≠ [])
    (h : ∀ w ∈ batch, route n w.key = slot) : stretches n batch = [(slot, batch)] := by
  induction batch with
  | nil => exact absurd rfl hne
  | cons w rest ih =>
    have hw : route n w.key = slot := h w List.mem_cons_self
    rw [stretches]
    by_cases hrest : rest = []
    · subst hrest
      simp [stretches, hw]
    · rw [ih hrest fun w hmem => h w (List.mem_cons_of_mem _ hmem)]
      simp [hw]

/-- A batch that is one stretch stays on one store. -/
theorem eq_of_stretches {n : Nat} {batch : Batch} {one : Fin (n + 1) × Batch}
    (h : stretches n batch = [one]) : one.2 = batch ∧ ∀ w ∈ batch, route n w.key = one.1 := by
  have hflat := flatten_stretches n batch
  rw [h] at hflat
  obtain rfl : one.2 = batch := by simpa using hflat
  exact ⟨rfl, (mem_stretches (h ▸ List.mem_cons_self)).2⟩

theorem leadingKey_mem {batch : Batch} (h : batch ≠ []) :
    ∃ w ∈ batch, batch.leadingKey = w.key := by
  cases batch with
  | nil => exact absurd rfl h
  | cons w rest => exact ⟨w, List.mem_cons_self, rfl⟩

end Batch

namespace Client

variable {α : Type} {keys : List Bytes} {confirms : Prop}

/-- What became of an action that was to commit `batch` and answer `answer`: its first `count`
writes were applied, all of them if it came to its answer and success confirms what was applied, and
none unless some key is served. -/
structure Outcome (keys : List Bytes) (confirms : Prop) (before : Client) (batch : Batch)
    (answer : Except Error α) (result : EStateM.Result Error Client α) (after : Client)
    (count : Nat) : Prop where
  bound : count ≤ batch.length
  later : before.Later after
  stores : after.wire.store =
    Batch.onStores before.backend.storeOf (batch.take count) before.wire.store
  result : result = give answer after ∧ (confirms → count = batch.length) ∨
    ¬ before.Steady keys ∧ ∃ e, result = .error e after
  served : count = 0 ∨ ∃ key ∈ keys, before.backend.Serves key

/-- The tables after a batch was applied to the stores. -/
theorem table_of_onStores {client later : Client} {batch : Batch}
    (hplace : later.backend.storeOf = client.backend.storeOf)
    (hstore : later.wire.store = Batch.onStores client.backend.storeOf batch client.wire.store) :
    later.table = Batch.onTables batch client.table := by
  funext key
  rw [Client.table, hstore, hplace, Batch.tables_onStores]
  rfl

theorem Outcome.finalState {before after : Client} {batch : Batch} {answer : Except Error α}
    {result : EStateM.Result Error Client α} {count : Nat}
    (h : Outcome keys confirms before batch answer result after count) :
    BlockDir.finalState result = after := by
  rcases h.result with ⟨hok, -⟩ | ⟨-, e, herror⟩
  · rw [hok, finalState_give]
  · rw [herror]
    rfl

theorem Outcome.mono {other : Prop} {before after : Client} {batch : Batch}
    {answer : Except Error α} {result : EStateM.Result Error Client α} {count : Nat}
    (h : Outcome keys confirms before batch answer result after count) (himp : other → confirms) :
    Outcome keys other before batch answer result after count :=
  ⟨h.bound, h.later, h.stores, h.result.imp_left fun hok => ⟨hok.1, fun ho => hok.2 (himp ho)⟩,
    h.served⟩

/-- Nothing to commit is committed by doing nothing. -/
theorem Outcome.idle {client : Client} (hsound : client.Sound) (answer : Except Error α) :
    Outcome keys confirms client [] answer (give answer client) client 0 :=
  ⟨Nat.le_refl _, .refl hsound, rfl, .inl ⟨rfl, fun _ => rfl⟩, .inl rfl⟩

/-- An action that fails before anything is sent. -/
theorem Outcome.failed {before after : Client} {batch : Batch} {answer : Except Error α} {e : Error}
    (hlater : before.Later after) (hstore : after.wire.store = before.wire.store)
    (hsteady : ¬ before.Steady keys) :
    Outcome keys confirms before batch answer (.error e after) after 0 :=
  ⟨Nat.zero_le _, hlater, hstore, .inr ⟨hsteady, e, rfl⟩, .inl rfl⟩

/-- Two batches committed one after the other are one batch committed, if the second follows only on
the whole first. -/
theorem Outcome.seq {first : ClientM Unit} {second : ClientM α} {client middle : Client}
    {a b : Batch} {answer : Except Error α} {n : Nat}
    (h : Outcome keys True client a (.ok ()) (first client) middle n)
    (hnext : ∃ after m, Outcome keys confirms middle b answer (second middle) after m) :
    ∃ after m, Outcome keys confirms client (a ++ b) answer ((do first; second) client) after m := by
  rcases h.result with ⟨hok, hall⟩ | ⟨hsteady, e, herror⟩
  · obtain rfl := hall trivial
    obtain ⟨after, m, hnext⟩ := hnext
    have hrun : (do first; second) client = second middle := by
      simp [bind, EStateM.bind, hok]
    refine ⟨after, a.length + m, ?_, h.later.trans hnext.later, ?_, ?_, ?_⟩
    · have hbound := hnext.bound
      rw [List.length_append]
      omega
    · rw [hnext.stores, h.stores, h.later.backend.place, List.take_length,
        List.take_length_add_append, Batch.onStores_append]
    · rw [hrun]
      rcases hnext.result with ⟨hok, hall⟩ | ⟨hsteady, herror⟩
      · refine .inl ⟨hok, fun hconfirms => ?_⟩
        rw [hall hconfirms, List.length_append]
      · exact .inr ⟨fun hsteady' => hsteady (h.later.steady hsteady'), herror⟩
    · rcases h.served with hzero | hserved
      · rcases hnext.served with hzero' | ⟨key, hkey, hserves⟩
        · left
          omega
        · exact .inr ⟨key, hkey, (h.later.backend.serves key).1 hserves⟩
      · exact .inr hserved
  · have hrun : (do first; second) client = .error e middle := by
      simp [bind, EStateM.bind, herror]
    have hbound := h.bound
    refine ⟨middle, n, by rw [List.length_append]; omega, h.later, ?_, .inr ⟨hsteady, e, hrun⟩,
      h.served⟩
    rw [h.stores, List.take_append_of_le_length hbound]

/-- Committing a batch over the link that serves a key, when the whole batch belongs on the store of
that key. `stops` says where the link may stop; at the start it always may. -/
theorem onLink_commits {key : Bytes} (hkey : key ∈ keys) {act : Link → WireM Unit} {batch : Batch}
    {client : Client} (hsound : client.Sound)
    (hplace : ∀ w ∈ batch, client.backend.storeOf w.key = client.backend.storeOf key)
    (stops : Nat → Prop) (hstart : stops 0)
    (hact : ∀ (link : Link) (wire : Wire), link.isOpen = true → wire.threats ⊆ client.wire.threats →
      ∃ after count, link.Wrote batch wire after count ∧ stops count ∧
        (act link wire = .ok () after ∧ (confirms → count = batch.length) ∨
          wire.threats ≠ [] ∧ ∃ e, act link wire = .error e after)) :
    ∃ after count, Outcome keys confirms client batch (.ok ()) (onLink key act client) after count ∧
      stops count := by
  unfold onLink
  obtain ⟨hserves, e, herror⟩ | ⟨e, after, herror, hlater, hstruck⟩ |
    ⟨link, first, after, hserves, hopen, hlink, hfirst, hlast, hlater, hwindow, hresult⟩ :=
    lend_spec hsound.backend key (fun _ => false) act
  · rw [herror]
    exact ⟨client, 0, .failed (.refl hsound) rfl fun h => hserves (h.serves key hkey), hstart⟩
  · rw [herror]
    exact ⟨after, 0, .failed hlater hstruck.stores fun h => hstruck.threats_ne_nil h.threats, hstart⟩
  · obtain ⟨last, count, hwrote, hstops, hrun⟩ := hact link first hopen hfirst.threats
    have hfinal : finalState (act link first) = last := by
      rcases hrun with ⟨hok, -⟩ | ⟨-, e, herror⟩
      · rw [hok]
        rfl
      · rw [herror]
        rfl
    rw [hfinal] at hlast
    refine ⟨after, count, ⟨hwrote.bound,
      ⟨hlater, hwindow, fun t ht => hfirst.threats (hwrote.threats (hlast.threats ht))⟩, ?_, ?_,
      .inr ⟨key, hkey, hserves⟩⟩, hstops⟩
    · rw [hlast.stores, hwrote.stores, hfirst.stores, hlink]
      exact (Batch.onStores_of_single
        (fun w hmem => hplace w (List.mem_of_mem_take hmem)) _).symm
    · rw [hresult]
      rcases hrun with ⟨hok, hlength⟩ | ⟨hne, e, herror⟩
      · exact .inl ⟨by rw [hok]; rfl, hlength⟩
      · refine .inr ⟨fun h => hne ?_, e, by rw [herror]; rfl⟩
        exact List.subset_nil.1 (h.threats ▸ hfirst.threats)

theorem outcome_onLink {key : Bytes} (hkey : key ∈ keys) {act : Link → WireM Unit} {batch : Batch}
    (hact : Link.Commits act batch) {client : Client} (hsound : client.Sound)
    (htrue : client.wire.Suffers Fault.Truthful)
    (hplace : ∀ w ∈ batch, client.backend.storeOf w.key = client.backend.storeOf key) :
    ∃ after count, Outcome keys True client batch (.ok ()) (onLink key act client) after count := by
  obtain ⟨after, count, houtcome, -⟩ :=
    onLink_commits hkey hsound hplace (fun _ => True) trivial
      fun link wire hopen hthreats => by
        obtain ⟨last, count, hwrote, hrun⟩ := hact link wire hopen (htrue.mono hthreats)
        exact ⟨last, count, hwrote, trivial, hrun.imp_left fun h => ⟨h.1, fun _ => h.2⟩⟩
  exact ⟨after, count, houtcome⟩

/-- One transaction. -/
theorem outcome_transact {batch : Batch} (hne : batch ≠ []) (hkeys : ∀ w ∈ batch, w.key ∈ keys)
    {client : Client} (hsound : client.Sound)
    (hplace : ∀ w ∈ batch,
      client.backend.storeOf w.key = client.backend.storeOf batch.leadingKey) :
    ∃ after count, Outcome keys (client.wire.Suffers Fault.Fair) client batch (.ok ())
        (onLink batch.leadingKey (·.transact batch) client) after count ∧
      (client.wire.Suffers Fault.Atomic → count = 0 ∨ count = batch.length) := by
  obtain ⟨first, hfirst, hkey⟩ := Batch.leadingKey_mem hne
  have hmem : batch.leadingKey ∈ keys := hkey ▸ hkeys first hfirst
  refine onLink_commits hmem hsound hplace
    (fun count => client.wire.Suffers Fault.Atomic → count = 0 ∨ count = batch.length)
    (fun _ => .inl rfl) fun link wire hopen hthreats => ?_
  obtain ⟨last, count, hwrote, hrun, hwhole⟩ := Link.transact_spec hne hopen wire
  refine ⟨last, count, hwrote, fun hatomic => hwhole (hatomic.mono hthreats), ?_⟩
  exact hrun.imp_left fun h => ⟨h.1, fun hfair => h.2 (hfair.mono hthreats)⟩

/-- Batches that are committed one by one, each on the store of its first key. -/
theorem outcome_stretches {n : Nat} (slots : List (Fin (n + 1) × Batch)) (interval : Nat)
    {client : Client} (hkeys : ∀ p ∈ slots, ∀ w ∈ p.2, w.key ∈ keys) (hsound : client.Sound)
    (htrue : client.wire.Suffers Fault.Truthful)
    (hplace : ∀ p ∈ slots, p.2 ≠ [] ∧ ∀ w ∈ p.2,
      client.backend.storeOf w.key = client.backend.storeOf p.2.leadingKey) :
    ∃ after count, Outcome keys True client (slots.map (·.2)).flatten (.ok ())
      ((slots.forM fun (_, stretch) =>
        onLink stretch.leadingKey (·.commitRounds interval stretch)) client) after count := by
  induction slots generalizing client with
  | nil => exact ⟨client, 0, .idle hsound _⟩
  | cons first rest ih =>
    obtain ⟨slot, stretch⟩ := first
    obtain ⟨hne, hsame⟩ := hplace _ List.mem_cons_self
    obtain ⟨w, hw, hkey⟩ := Batch.leadingKey_mem hne
    have hmem : stretch.leadingKey ∈ keys := hkey ▸ hkeys _ List.mem_cons_self w hw
    obtain ⟨middle, n, hfirst⟩ :=
      outcome_onLink hmem (Link.commits_commitRounds interval stretch) hsound htrue hsame
    rw [List.map_cons, List.flatten_cons]
    refine hfirst.seq (ih (fun p hp => hkeys p (List.mem_cons_of_mem _ hp))
      (hfirst.later.sound hsound) (hfirst.later.suffers htrue) fun p hp => ?_)
    rw [hfirst.later.backend.place]
    exact hplace p (List.mem_cons_of_mem _ hp)

/-- Writes that are sent one by one. -/
theorem outcome_writes {batch : Batch} {client : Client} (hkeys : ∀ w ∈ batch, w.key ∈ keys)
    (hsound : client.Sound) (htrue : client.wire.Suffers Fault.Truthful) :
    ∃ after count, Outcome keys True client batch (.ok ()) (batch.forM writeSingly client)
      after count := by
  induction batch generalizing client with
  | nil => exact ⟨client, 0, .idle hsound _⟩
  | cons w rest ih =>
    obtain ⟨middle, n, hfirst⟩ :=
      outcome_onLink (hkeys w List.mem_cons_self) (Link.commits_execute w) hsound htrue (by simp)
    exact hfirst.seq (ih (fun w hmem => hkeys w (List.mem_cons_of_mem _ hmem))
      (hfirst.later.sound hsound) (hfirst.later.suffers htrue))

/-- Whether batches on the tables under `keys` are applied as a whole or not at all. -/
def Whole (keys : List Bytes) (client : Client) : Prop :=
  client.wire.Suffers Fault.Atomic ∧ ∀ a ∈ keys, ∀ b ∈ keys, client.backend.Together a b

/-- Over shards, a batch that stays on one of them is one transaction, and any other is committed
stretch by stretch. -/
theorem commit_sharded_spec {batch : Batch} (hne : batch ≠ []) (hkeys : ∀ w ∈ batch, w.key ∈ keys)
    (interval : Nat) {n : Nat} {shards : Vector Pool (n + 1)} {wire : Wire} {window : Option Nat}
    (hsound : Client.Sound ⟨.sharded shards, wire, window⟩)
    (htrue : wire.Suffers Fault.Truthful) :
    ∃ after count, Outcome keys (wire.Suffers Fault.Fair) ⟨.sharded shards, wire, window⟩ batch
        (.ok ()) (commit batch interval ⟨.sharded shards, wire, window⟩) after count ∧
      (Whole keys ⟨.sharded shards, wire, window⟩ → count = 0 ∨ count = batch.length) := by
  obtain ⟨first, hfirst, hleading⟩ := Batch.leadingKey_mem hne
  by_cases hsingle : ∃ slot, ∀ w ∈ batch, route n w.key = slot
  · obtain ⟨slot, hslot⟩ := hsingle
    have hplace : ∀ w ∈ batch, (Backend.sharded shards).storeOf w.key =
        (Backend.sharded shards).storeOf batch.leadingKey := by
      intro w hmem
      rw [hleading]
      simp only [Backend.storeOf, hslot w hmem, hslot first hfirst]
    obtain ⟨after, count, houtcome, hwhole⟩ := outcome_transact hne hkeys hsound hplace
    refine ⟨after, count, ?_, fun h => hwhole h.1⟩
    simp only [commit, Batch.stretches_of_single hne hslot]
    exact houtcome
  · have hsplit : commit batch interval ⟨.sharded shards, wire, window⟩ =
        ((batch.stretches n).forM fun (_, stretch) =>
          onLink stretch.leadingKey (·.commitRounds interval stretch))
            ⟨.sharded shards, wire, window⟩ := by
      simp only [commit]
      split
      · rename_i one heq
        exact absurd ⟨one.1, (Batch.eq_of_stretches heq).2⟩ hsingle
      · rfl
    have hflat := Batch.flatten_stretches n batch
    have hmem : ∀ p ∈ batch.stretches n, ∀ w ∈ p.2, w ∈ batch := by
      intro p hp w hw
      rw [← hflat]
      exact List.mem_flatten.2 ⟨p.2, List.mem_map_of_mem hp, hw⟩
    obtain ⟨after, count, houtcome⟩ := outcome_stretches (batch.stretches n) interval
      (fun p hp w hw => hkeys w (hmem p hp w hw)) hsound htrue fun p hp => by
        obtain ⟨hne, hroute⟩ := Batch.mem_stretches hp
        obtain ⟨v, hv, hkey⟩ := Batch.leadingKey_mem hne
        refine ⟨hne, fun w hw => ?_⟩
        rw [hkey]
        simp only [Backend.storeOf, hroute w hw, hroute v hv]
    rw [hflat, ← hsplit] at houtcome
    refine ⟨after, count, houtcome.mono fun _ => trivial, fun h =>
      absurd ⟨route n first.key, ?_⟩ hsingle⟩
    intro w hw
    exact (h.2 _ (hkeys w hw) _ (hkeys first hfirst)).2

theorem commit_spec {batch : Batch} (hne : batch ≠ []) (hkeys : ∀ w ∈ batch, w.key ∈ keys)
    (interval : Nat) {client : Client} (hsound : client.Sound)
    (htrue : client.wire.Suffers Fault.Truthful) :
    ∃ after count, Outcome keys (client.wire.Suffers Fault.Fair) client batch (.ok ())
        (commit batch interval client) after count ∧
      (client.Whole keys → count = 0 ∨ count = batch.length) := by
  obtain ⟨first, hfirst, hleading⟩ := Batch.leadingKey_mem hne
  obtain ⟨backend, wire, window⟩ := client
  cases backend with
  | single link closed =>
    obtain ⟨after, count, houtcome, hwhole⟩ := outcome_transact hne hkeys hsound fun _ _ => rfl
    exact ⟨after, count, houtcome, fun h => hwhole h.1⟩
  | pooled pool =>
    obtain ⟨after, count, houtcome, hwhole⟩ := outcome_transact hne hkeys hsound fun _ _ => rfl
    exact ⟨after, count, houtcome, fun h => hwhole h.1⟩
  | sharded shards => exact commit_sharded_spec hne hkeys interval hsound htrue
  | cluster nodes closed =>
    obtain ⟨after, count, houtcome⟩ := outcome_writes hkeys hsound htrue
    refine ⟨after, count, houtcome.mono fun _ => trivial, fun h => ?_⟩
    exact absurd rfl (h.2 _ (hkeys first hfirst) _ (hkeys first hfirst)).1

end Client

end BlockDir
