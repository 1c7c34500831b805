import BlockDir.Proofs.Backend.Service

/-!
# Reading through a backend

An action of a client that only reads leaves the stores as they are, and answers what the tables say
unless a fault strikes it or a key it needs is not served (`Client.Reads`). Reads compose, so that
what a whole operation answers is a function of the tables, put together as the operation is.
-/

namespace BlockDir

namespace Client

/-- With truthful faults, `act` changes no store, and answers what `f` says of the tables unless a
fault waits or one of `keys` is not served. -/
def Reads {α : Type} (keys : List Bytes) (act : ClientM α)
    (f : (Bytes → Table) → Except Error α) : Prop :=
  ∀ client : Client, client.Sound → client.wire.Suffers Fault.Truthful →
    ∃ after, client.Later after ∧ after.wire.store = client.wire.store ∧
      (act client = give (f client.table) after ∨
        ¬ client.Steady keys ∧ ∃ e, act client = .error e after)

variable {α β : Type} {keys : List Bytes}

/-- What is left after a read. -/
theorem Reads.finalState {act : ClientM α} {f : (Bytes → Table) → Except Error α}
    (h : Reads keys act f) {client : Client} (hsound : client.Sound)
    (htrue : client.wire.Suffers Fault.Truthful) :
    client.Later (BlockDir.finalState (act client)) ∧
      (BlockDir.finalState (act client)).wire.store = client.wire.store := by
  obtain ⟨after, hlater, hstore, hok | ⟨-, e, herror⟩⟩ := h client hsound htrue
  · rw [hok, finalState_give]
    exact ⟨hlater, hstore⟩
  · rw [herror]
    exact ⟨hlater, hstore⟩

theorem Reads.mono {more : List Bytes} (hsub : keys ⊆ more) {act : ClientM α}
    {f : (Bytes → Table) → Except Error α} (h : Reads keys act f) : Reads more act f := by
  intro client hsound htrue
  obtain ⟨after, hlater, hstore, hok | ⟨hsteady, herror⟩⟩ := h client hsound htrue
  · exact ⟨after, hlater, hstore, .inl hok⟩
  · refine ⟨after, hlater, hstore, .inr ⟨fun hmore => hsteady ⟨hmore.threats, ?_⟩, herror⟩⟩
    exact fun key hmem => hmore.serves key (hsub hmem)

/-- Without faults, and with all keys served, what the tables say is answered. -/
theorem Reads.steady {act : ClientM α} {f : (Bytes → Table) → Except Error α}
    (h : Reads keys act f) {client : Client} (hsound : client.Sound) (hsteady : client.Steady keys) :
    ∃ after, act client = give (f client.table) after ∧ client.Later after ∧
      after.wire.store = client.wire.store := by
  have htrue := Wire.suffers_of_threats_nil hsteady.threats Fault.Truthful
  obtain ⟨after, hlater, hstore, hok | ⟨hno, -⟩⟩ := h client hsound htrue
  · exact ⟨after, hok, hlater, hstore⟩
  · exact absurd hsteady hno

theorem reads_give (result : Except Error α) : Reads keys (give result) fun _ => result := by
  intro client hsound _
  exact ⟨client, .refl hsound, rfl, .inl rfl⟩

theorem reads_pure (a : α) : Reads keys (pure a) fun _ => .ok a :=
  reads_give (.ok a)

theorem reads_throw (e : Error) : Reads keys (throw e : ClientM α) fun _ => .error e :=
  reads_give (.error e)

theorem Reads.bind {act : ClientM α} {f : (Bytes → Table) → Except Error α} {next : α → ClientM β}
    {g : α → (Bytes → Table) → Except Error β} (hact : Reads keys act f)
    (hnext : ∀ a, Reads keys (next a) (g a)) :
    Reads keys (act >>= next) fun tables => f tables >>= fun a => g a tables := by
  intro client hsound htrue
  obtain ⟨middle, hlater, hstore, hok | ⟨hsteady, e, herror⟩⟩ := hact client hsound htrue
  · cases hf : f client.table with
    | error e =>
      refine ⟨middle, hlater, hstore, .inl ?_⟩
      simp [Bind.bind, EStateM.bind, hok, hf, Except.bind]
    | ok a =>
      obtain ⟨after, hlater', hstore', hresult⟩ :=
        hnext a middle (hlater.sound hsound) (hlater.suffers htrue)
      rw [hlater.table hstore] at hresult
      refine ⟨after, hlater.trans hlater', hstore'.trans hstore, ?_⟩
      have hbind : (act >>= next) client = next a middle := by
        simp [Bind.bind, EStateM.bind, hok, hf]
      rw [hbind]
      rcases hresult with hresult | ⟨hsteady, e, herror⟩
      · exact .inl (by simpa [Bind.bind, Except.bind, hf] using hresult)
      · exact .inr ⟨fun h => hsteady (hlater.steady h), e, herror⟩
  · refine ⟨middle, hlater, hstore, .inr ⟨hsteady, e, ?_⟩⟩
    simp [Bind.bind, EStateM.bind, herror]

/-- Without faults, and with all keys served, `act` changes no store and answers what `f` says of the
tables. -/
def Finds {α : Type} (keys : List Bytes) (act : ClientM α)
    (f : (Bytes → Table) → Except Error α) : Prop :=
  ∀ client : Client, client.Sound → client.Steady keys →
    ∃ after, act client = give (f client.table) after ∧ client.Later after ∧
      after.wire.store = client.wire.store

theorem Reads.finds {act : ClientM α} {f : (Bytes → Table) → Except Error α} (h : Reads keys act f) :
    Finds keys act f :=
  fun _ hsound hsteady => h.steady hsound hsteady

theorem Finds.bind {act : ClientM α} {f : (Bytes → Table) → Except Error α} {next : α → ClientM β}
    {g : α → (Bytes → Table) → Except Error β} (hact : Finds keys act f)
    (hnext : ∀ a, Finds keys (next a) (g a)) :
    Finds keys (act >>= next) fun tables => f tables >>= fun a => g a tables := by
  intro client hsound hsteady
  obtain ⟨middle, hok, hlater, hstore⟩ := hact client hsound hsteady
  cases hf : f client.table with
  | error e =>
    refine ⟨middle, ?_, hlater, hstore⟩
    simp [Bind.bind, EStateM.bind, hok, hf, Except.bind]
  | ok a =>
    obtain ⟨after, hok', hlater', hstore'⟩ :=
      hnext a middle (hlater.sound hsound) (hlater.steady hsteady)
    rw [hlater.table hstore] at hok'
    refine ⟨after, ?_, hlater.trans hlater', hstore'.trans hstore⟩
    simpa [Bind.bind, EStateM.bind, hok, hf, Except.bind] using hok'

theorem reads_onLink {key : Bytes} (hkey : key ∈ keys) {act : Link → WireM α}
    {f : Table → Except Error α} (hact : Link.Reads act key f) :
    Reads keys (onLink key act) fun tables => f (tables key) := by
  intro client hsound htrue
  unfold onLink
  obtain ⟨hserves, e, herror⟩ | ⟨e, after, herror, hlater, hstruck⟩ |
    ⟨link, first, after, hserves, hopen, hlink, hfirst, hlast, hlater, hwindow, hresult⟩ :=
    lend_spec hsound.backend key (fun _ => false) act
  · exact ⟨client, .refl hsound, rfl, .inr ⟨fun h => hserves (h.serves key hkey), e, herror⟩⟩
  · exact ⟨after, hlater, hstruck.stores,
      .inr ⟨fun h => hstruck.threats_ne_nil h.threats, e, herror⟩⟩
  · obtain ⟨last, hstore, hsub, hok⟩ := hact link first hopen (htrue.mono hfirst.threats)
    rw [hfirst.stores, hlink] at hok
    have hfinal : finalState (act link first) = last := by
      rcases hok with hok | ⟨-, e, herror⟩
      · rw [hok, finalState_give]
      · rw [herror]
        rfl
    rw [hfinal] at hlast
    refine ⟨after, ⟨hlater, hwindow, fun t ht => hfirst.threats (hsub (hlast.threats ht))⟩,
      hlast.stores.trans (hstore.trans hfirst.stores), ?_⟩
    rw [hresult]
    rcases hok with hok | ⟨hne, e, herror⟩
    · left
      rw [hok]
      show _ = give (f ((client.wire.store (client.backend.storeOf key)).table key)) after
      cases f ((client.wire.store (client.backend.storeOf key)).table key) <;> rfl
    · refine .inr ⟨fun h => hne ?_, e, by rw [herror]; rfl⟩
      exact List.subset_nil.1 (h.threats ▸ hfirst.threats)

theorem reads_hasField {key : Bytes} (hkey : key ∈ keys) (field : Bytes) :
    Reads keys (hasField key field) fun tables => .ok (decide (field ∈ tables key)) :=
  reads_onLink hkey (Link.reads_hasField key field)

theorem reads_getField {key : Bytes} (hkey : key ∈ keys) (field : Bytes) :
    Reads keys (getField key field) fun tables => .ok (tables key)[field]? :=
  reads_onLink hkey (Link.reads_getField key field)

theorem reads_listFields {key : Bytes} (hkey : key ∈ keys) :
    Reads keys (listFields key) fun tables => .ok (tables key).keys :=
  reads_onLink hkey (Link.reads_listFields key)

/-- Without faults, a key that is not served is refused, and nothing changes. -/
theorem lend_of_not_serves {key : Bytes} {client : Client} (hsound : client.Sound)
    (hnone : client.wire.threats = []) (hserves : ¬ client.backend.Serves key) (spoils : α → Bool)
    (act : Link → WireM α) : ∃ e, lend key spoils act client = .error e client := by
  rcases lend_spec hsound.backend key spoils act with
    ⟨-, herror⟩ | ⟨-, after, -, -, hstruck⟩ | ⟨-, -, -, hserved, -⟩
  · exact herror
  · exact absurd hnone hstruck.threats_ne_nil
  · exact absurd hserved hserves

/-- The value of a field is found unless something comes in between. -/
theorem getField_spec (key field : Bytes) {client : Client} (hsound : client.Sound)
    (hovert : client.wire.Suffers Fault.Overt) :
    ∃ after, client.Unwritten after ∧
      (¬ client.Hindered key after ∧ getField key field client =
          .ok (client.table key)[field]? after ∨
        client.Hindered key after ∧ ∃ e, getField key field client = .error e after) := by
  unfold getField onLink
  obtain ⟨hserves, e, herror⟩ | ⟨e, after, herror, hlater, hstruck⟩ |
    ⟨link, first, after, hserves, hopen, hlink, hfirst, hlast, hlater, hwindow, hresult⟩ :=
    lend_spec hsound.backend key (fun _ => false) (·.getField key field)
  · exact ⟨client, .refl hsound, .inr ⟨.inl hserves, e, herror⟩⟩
  · exact ⟨after, ⟨hlater, hstruck.stores, hstruck.waiting.le⟩, .inr ⟨.inr hstruck.waiting, e, herror⟩⟩
  · obtain ⟨last, hstore, hsub, hrun⟩ :=
      Link.getField_spec hopen (hovert.mono hfirst.threats) key field
    rw [hfirst.waiting, hfirst.stores, hlink] at hrun
    rw [hresult]
    rcases hrun with ⟨hspared, hok⟩ | ⟨hstruck, e, herror⟩
    · rw [hok] at hlast ⊢
      have hwaiting : after.wire.waiting = client.wire.waiting := hlast.waiting.trans hspared
      refine ⟨after, ⟨⟨hlater, hwindow, fun t ht => hfirst.threats (hsub (hlast.threats ht))⟩,
        hlast.stores.trans (hstore.trans hfirst.stores), hwaiting.le⟩, .inl ⟨?_, rfl⟩⟩
      rintro (hno | hless)
      · exact hno hserves
      · exact absurd hless hwaiting.not_lt
    · rw [herror] at hlast ⊢
      have hwaiting : after.wire.waiting < client.wire.waiting := hlast.waiting.trans_lt hstruck
      exact ⟨after, ⟨⟨hlater, hwindow, fun t ht => hfirst.threats (hsub (hlast.threats ht))⟩,
        hlast.stores.trans (hstore.trans hfirst.stores), hwaiting.le⟩, .inr ⟨.inr hwaiting, e, rfl⟩⟩

theorem fetchSingly_spec (key field : Bytes) {client : Client} (hsound : client.Sound)
    (hovert : client.wire.Suffers Fault.Overt) :
    ∃ slot after, fetchSingly key field client = .ok slot after ∧ client.Unwritten after ∧
      (¬ client.Hindered key after ∧ slot = some (client.table key)[field]? ∨
        client.Hindered key after ∧ slot = none) := by
  obtain ⟨after, hunwritten, ⟨hclear, hok⟩ | ⟨hhindered, e, herror⟩⟩ :=
    getField_spec key field hsound hovert
  · exact ⟨_, after, by simp only [fetchSingly, hok], hunwritten, .inl ⟨hclear, rfl⟩⟩
  · exact ⟨none, after, by simp only [fetchSingly, herror], hunwritten, .inr ⟨hhindered, rfl⟩⟩

/-- Reads one at a time go on after those that are lost. What comes between any of them and its field
leaves a gap. -/
theorem fetchEach_spec (key : Bytes) (fields : List Bytes) {client : Client} (hsound : client.Sound)
    (hovert : client.wire.Suffers Fault.Overt) :
    ∃ slots after, fields.mapM (fetchSingly key) client = .ok slots after ∧
      client.Unwritten after ∧
      Link.Found (client.table key) fields slots (client.Hindered key after) ∧
      (after.wire.waiting < client.wire.waiting → none ∈ slots) ∧
      (fields ≠ [] → client.Hindered key after → none ∈ slots) := by
  induction fields generalizing client with
  | nil =>
    exact ⟨[], client, rfl, .refl hsound, Link.found_all _ [] _, fun h => absurd h (Nat.lt_irrefl _),
      fun hsome => absurd rfl hsome⟩
  | cons field rest ih =>
    obtain ⟨slot, middle, hslot, hfirst, hread⟩ := fetchSingly_spec key field hsound hovert
    obtain ⟨slots, after, hslots, hrest, hfound, hstruck, -⟩ :=
      ih (hfirst.toLater.sound hsound) (hfirst.toLater.suffers hovert)
    have hhindered : client.Hindered key after ↔
        client.Hindered key middle ∨ middle.Hindered key after := hfirst.hindered_iff hrest
    have hrun : (field :: rest).mapM (fetchSingly key) client = .ok (slot :: slots) after := by
      rw [List.mapM_cons]
      simp [Bind.bind, EStateM.bind, hslot, hslots, pure, EStateM.pure]
    rw [hfirst.table_eq] at hfound
    rcases hread with ⟨hclear, rfl⟩ | ⟨hhindrance, rfl⟩
    · have hlost : client.Hindered key after → none ∈ slots := by
        intro h
        rcases hhindered.1 h with h | hserves | hless
        · exact absurd h hclear
        · exact absurd (.inl fun hserved => hserves ((hfirst.backend.serves key).2 hserved)) hclear
        · exact hstruck hless
      refine ⟨_, after, hrun, hfirst.trans hrest, ?_,
        fun h => List.mem_cons_of_mem _ (hlost (.inr h)), fun _ h => List.mem_cons_of_mem _ (hlost h)⟩
      exact (Link.found_all _ [field] _).append (hfound.mono fun h => hhindered.2 (.inr h))
    · refine ⟨_, after, hrun, hfirst.trans hrest, ?_, fun _ => List.mem_cons_self,
        fun _ _ => List.mem_cons_self⟩
      have hwhole := hhindered.2 (.inl hhindrance)
      exact (Link.found_lost _ [field] hwhole).append (hfound.mono fun _ => hwhole)

/-- A batched read over the link that serves a key: what cannot be sent is lost. -/
theorem fetchLent_spec (key : Bytes) (fields : List Bytes) (interval : Nat) {client : Client}
    (hsound : client.Sound) (hovert : client.wire.Suffers Fault.Overt) :
    ∃ slots after,
      (match lend key (·.any Option.isNone) (·.fetchSlots key interval fields) client with
        | .ok slots client => .ok slots client
        | .error _ client => .ok (List.replicate fields.length none) client) =
      (.ok slots after : EStateM.Result Error Client (List Slot)) ∧
      client.Unwritten after ∧
      Link.Found (client.table key) fields slots (client.Hindered key after) ∧
      (fields ≠ [] → client.Hindered key after → none ∈ slots) := by
  have hlost : ∀ after, client.Hindered key after →
      Link.Found (client.table key) fields (List.replicate fields.length none)
        (client.Hindered key after) ∧
      (fields ≠ [] → client.Hindered key after →
        none ∈ (List.replicate fields.length none : List Slot)) := by
    intro after hhindered
    refine ⟨?_, fun hsome _ => ?_⟩
    · rw [← List.map_const']
      exact Link.found_lost _ fields hhindered
    · exact List.mem_replicate.2 ⟨List.length_eq_zero_iff.not.2 hsome, rfl⟩
  obtain ⟨hserves, e, herror⟩ | ⟨e, after, herror, hlater, hstruck⟩ |
    ⟨link, first, after, hserves, hopen, hlink, hfirst, hlast, hlater, hwindow, hresult⟩ :=
    lend_spec hsound.backend key (·.any Option.isNone) (·.fetchSlots key interval fields)
  · exact ⟨_, client, by simp only [herror], .refl hsound, hlost client (.inl hserves)⟩
  · exact ⟨_, after, by simp only [herror], ⟨hlater, hstruck.stores, hstruck.waiting.le⟩,
      hlost after (.inr hstruck.waiting)⟩
  · obtain ⟨slots, last, hok, hstore, hsub, hless, hfound, hgap⟩ :=
      Link.fetchSlots_spec hopen (hovert.mono hfirst.threats) key interval fields
    rw [hfirst.waiting] at hless hfound hgap
    rw [hfirst.stores, hlink] at hfound
    rw [hok] at hresult hlast
    have hwaiting : after.wire.waiting = last.waiting := hlast.waiting
    rw [← hwaiting] at hless hfound hgap
    refine ⟨slots, after, by simp only [hresult, withState],
      ⟨⟨hlater, hwindow, fun t ht => hfirst.threats (hsub (hlast.threats ht))⟩,
        hlast.stores.trans (hstore.trans hfirst.stores), hless⟩, hfound.mono .inr, ?_⟩
    rintro - (hno | hstruck)
    · exact absurd hserves hno
    · exact hgap hstruck

/-- A batched read answers for every field what the table says, or that it was lost. Whatever comes
between it and the table leaves a gap. -/
theorem fetchSlots_spec (key : Bytes) (fields : List Bytes) (interval : Nat) {client : Client}
    (hsound : client.Sound) (hovert : client.wire.Suffers Fault.Overt) :
    ∃ slots after, fetchSlots key fields interval client = .ok slots after ∧
      client.Unwritten after ∧
      Link.Found (client.table key) fields slots (client.Hindered key after) ∧
      (fields ≠ [] → client.Hindered key after → none ∈ slots) := by
  have hlent := fetchLent_spec key fields interval hsound hovert
  obtain ⟨backend, wire, window⟩ := client
  cases backend with
  | cluster nodes closed =>
    obtain ⟨slots, after, hok, hunwritten, hfound, -, hgap⟩ :=
      fetchEach_spec key fields hsound hovert
    exact ⟨slots, after, hok, hunwritten, hfound, hgap⟩
  | single link closed | pooled pool | sharded shards => exact hlent

/-- Without faults, a batched read from a key that is not served loses every field. -/
theorem fetchSlots_of_not_serves {key : Bytes} {client : Client} (hsound : client.Sound)
    (hnone : client.wire.threats = []) (hserves : ¬ client.backend.Serves key)
    (fields : List Bytes) (interval : Nat) :
    fetchSlots key fields interval client = .ok (List.replicate fields.length none) client := by
  have heach : fields.mapM (fetchSingly key) client =
      (.ok (List.replicate fields.length none) client : EStateM.Result Error Client (List Slot)) := by
    induction fields with
    | nil => rfl
    | cons field rest ih =>
      obtain ⟨e, herror⟩ := lend_of_not_serves hsound hnone hserves (fun _ => false)
        (·.getField key field)
      have hsingle : fetchSingly key field client = .ok none client := by
        simp only [fetchSingly, getField, onLink, herror]
      rw [List.mapM_cons]
      simp [Bind.bind, EStateM.bind, hsingle, ih, pure, EStateM.pure, List.replicate_succ]
  obtain ⟨e, herror⟩ := lend_of_not_serves hsound hnone hserves (·.any Option.isNone)
    (·.fetchSlots key interval fields)
  unfold fetchSlots
  split
  · exact heach
  · simp only [herror]

theorem fetch_slots (key : Bytes) (fields : List Bytes) (interval : Nat) {client : Client}
    (hsound : client.Sound) (hovert : client.wire.Suffers Fault.Overt) :
    ∃ slots after, fetch key fields interval client = .ok (Fetched.ofSlots slots) after ∧
      client.Unwritten after ∧
      Link.Found (client.table key) fields slots (client.Hindered key after) ∧
      (fields ≠ [] → client.Hindered key after → none ∈ slots) := by
  obtain ⟨slots, after, hok, hunwritten, hrest⟩ :=
    fetchSlots_spec key fields interval hsound hovert
  refine ⟨slots, after, ?_, hunwritten, hrest⟩
  have hwindow := hunwritten.window.trans hsound.window
  simp [fetch, Bind.bind, EStateM.bind, hok, get, getThe, MonadStateOf.get, EStateM.get, hwindow,
    pure, EStateM.pure]

theorem fetch_spec {key : Bytes} (hkey : key ∈ keys) (fields : List Bytes) (interval : Nat)
    {client : Client} (hsound : client.Sound) (htrue : client.wire.Suffers Fault.Truthful) :
    ∃ slots after, fetch key fields interval client = .ok (Fetched.ofSlots slots) after ∧
      client.Later after ∧ after.wire.store = client.wire.store ∧
      Link.Found (client.table key) fields slots (¬ client.Steady keys) := by
  obtain ⟨slots, after, hok, hunwritten, hfound, -⟩ :=
    fetch_slots key fields interval hsound htrue.overt
  exact ⟨slots, after, hok, hunwritten.toLater, hunwritten.stores,
    hfound.mono fun h => h.not_steady hkey⟩

/-- A client to which `keys` lead to the places in `stores` that `place` says, with nothing in its
way: no fault waits, and all of them are served. -/
structure Sees (place : Bytes → Nat) (keys : List Bytes) (stores : Nat → Store) (client : Client) :
    Prop where
  sound : client.Sound
  steady : client.Steady keys
  placed : ∀ key ∈ keys, client.backend.storeOf key = place key
  stores : client.wire.store = stores

variable {place : Bytes → Nat} {stores : Nat → Store} {client : Client}

theorem Sees.table (h : client.Sees place keys stores) {key : Bytes} (hkey : key ∈ keys) :
    client.table key = (stores (place key)).table key := by
  rw [Client.table, h.stores, h.placed key hkey]

end Client

end BlockDir
