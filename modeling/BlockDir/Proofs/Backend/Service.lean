import BlockDir.Backend.Commit
import BlockDir.Proofs.Link.Committing

/-!
# What a client can count on

A sound backend keeps open links to the right stores. Whether it serves a key at all is settled
before anything is sent (`Backend.Serves`): a backend that does not serve a key refuses every action
on it and stays as it was. A backend that does runs the action on an open link to the store of the
key, unless a fault keeps it from opening one. `Client.lend_spec` says so for all four kinds, and is
all that the rest of the proofs need to know of pools and links. That something came between an action
and the table under a key (`Client.Hindered`) is told by the faults that were spent.
-/

namespace BlockDir

theorem Wire.connect_spec (number : Nat) (wire : Wire) :
    (∃ link after, Wire.connect number wire = .ok link after ∧ link.isOpen = true ∧
        link.store = number ∧ wire.Spared after) ∨
      ∃ e after, Wire.connect number wire = .error e after ∧ wire.Struck after := by
  have hquiet := wire.note_quiet (.connect number) (fun _ _ _ heq => nomatch heq) .connect
  obtain ⟨hspared, hspent⟩ := wire.note_waiting (.connect number) .connect
  unfold connect
  generalize wire.note (.connect number) .connect = noted at hquiet hspared hspent ⊢
  obtain ⟨fault, noted⟩ := noted
  cases fault with
  | none =>
    exact .inl ⟨_, _, rfl, rfl, rfl, ⟨hquiet.stores, hquiet.threats, hquiet.record⟩,
      hspared (.inl rfl)⟩
  | some fault => exact .inr ⟨_, _, rfl, hquiet, hspent fault rfl fun heq => nomatch heq⟩

/-- Giving up a link is not hindered by a fault that strikes its closing. -/
theorem Link.abandon_spec (link : Link) (wire : Wire) : wire.Spared (link.abandon wire) := by
  have hquiet := wire.note_quiet (.close link) (fun _ _ _ heq => nomatch heq) .close
  have hspared := (wire.note_waiting (.close link) .close).1 (.inr rfl)
  rw [abandon, close]
  generalize wire.note (.close link) .close = noted at hquiet hspared ⊢
  obtain ⟨fault, noted⟩ := noted
  cases fault <;> exact ⟨hquiet, hspared⟩

/-! ## Pools -/

namespace Pool

/-- The links that wait are open and lead to the store of the pool, and there is room for a link. -/
structure Sound (pool : Pool) : Prop where
  idle : ∀ link ∈ pool.idle, link.isOpen = true ∧ link.store = pool.store
  room : 0 < pool.config.maxConnections
  limit : pool.live ≤ pool.config.maxConnections

/-- A link waits, or one may be opened. -/
def Serves (pool : Pool) : Prop :=
  pool.closed = false ∧ (pool.idle = [] → pool.live < pool.config.maxConnections)

/-- What a pool keeps while it is used. -/
structure Later (before after : Pool) : Prop where
  place : after.store = before.store
  sound : after.Sound
  serves : after.Serves ↔ before.Serves

theorem checkout_of_not_serves {pool : Pool} (h : ¬ pool.Serves) (wire : Wire) :
    ∃ e, checkout (pool, wire) = .error e (pool, wire) := by
  unfold checkout
  by_cases hclosed : pool.closed
  · exact ⟨_, if_pos hclosed⟩
  · have hidle : pool.idle = [] := by
      by_contra hne
      exact h ⟨by simpa using hclosed, fun hnil => absurd hnil hne⟩
    have hfull : ¬ pool.live < pool.config.maxConnections := by
      intro hlt
      exact h ⟨by simpa using hclosed, fun _ => hlt⟩
    simp [hclosed, hidle, hfull, endWait]

theorem checkout_of_serves {pool : Pool} (hsound : pool.Sound) (h : pool.Serves) (wire : Wire) :
    (∃ e after, checkout (pool, wire) = .error e (pool, after) ∧ wire.Struck after) ∨
      ∃ link lending after, checkout (pool, wire) = .ok link (lending, after) ∧
        link.isOpen = true ∧ link.store = pool.store ∧ lending.Sound ∧
        lending.store = pool.store ∧ lending.closed = false ∧ wire.Spared after := by
  obtain ⟨hclosed, hroom⟩ := h
  rw [checkout, if_neg (by simp [hclosed])]
  cases hidle : pool.idle with
  | nil =>
    have hlt := hroom hidle
    rw [if_pos (by simpa using hlt)]
    obtain ⟨link, after, hok, hopen, hstore, hspared⟩ | ⟨e, after, herror, hstruck⟩ :=
      Wire.connect_spec pool.store wire
    · refine .inr ⟨link, { pool with live := pool.live + 1 }, after, by simp only [hok, hidle], hopen,
        hstore, ⟨hsound.idle, hsound.room, hlt⟩, rfl, hclosed, hspared⟩
    · exact .inl ⟨e, after, by simp only [herror], hstruck⟩
  | cons link rest =>
    have hlink := hsound.idle link (by simp [hidle])
    refine .inr ⟨link, { pool with idle := rest }, wire, by simp [endWait, hidle], hlink.1, hlink.2,
      ⟨fun other hmem => hsound.idle other (by simp [hidle, hmem]), hsound.room, hsound.limit⟩, rfl,
      hclosed, .refl wire⟩

/-- Taking a link out changes nothing else of a pool. -/
theorem checkout_spec {pool : Pool} (hsound : pool.Sound) (wire : Wire) :
    (∃ e after, checkout (pool, wire) = .error e (pool, after) ∧ wire.Quiet after) ∨
      ∃ link lending after, checkout (pool, wire) = .ok link (lending, after) ∧
        link.isOpen = true ∧ link.store = pool.store ∧ lending.Sound ∧
        lending.store = pool.store ∧ wire.Quiet after := by
  by_cases hserves : pool.Serves
  · obtain ⟨e, after, herror, hstruck⟩ |
      ⟨link, lending, after, hok, hopen, hlink, hlending, hplace, -, hspared⟩ :=
      checkout_of_serves hsound hserves wire
    · exact .inl ⟨e, after, herror, hstruck.toQuiet⟩
    · exact .inr ⟨link, lending, after, hok, hopen, hlink, hlending, hplace, hspared.toQuiet⟩
  · obtain ⟨e, herror⟩ := checkout_of_not_serves hserves wire
    exact .inl ⟨e, wire, herror, .refl wire⟩

theorem giveBack_spec {pool : Pool} (hsound : pool.Sound) {link : Link} (hopen : link.isOpen = true)
    (hstore : link.store = pool.store) (spoiled : Bool) (wire : Wire) :
    (pool.giveBack link spoiled wire).1.Sound ∧
      (pool.closed = false → (pool.giveBack link spoiled wire).1.Serves) ∧
      (pool.giveBack link spoiled wire).1.store = pool.store ∧
      wire.Spared (pool.giveBack link spoiled wire).2 := by
  unfold giveBack
  split
  · refine ⟨⟨?_, hsound.room, hsound.limit⟩, fun hclosed => ⟨hclosed, fun hnil => absurd hnil ?_⟩,
      rfl, .refl wire⟩
    intro other hmem
    rcases List.mem_append.1 hmem with hmem | hmem
    · exact hsound.idle other hmem
    · rw [List.mem_singleton.1 hmem]
      exact ⟨hopen, hstore⟩
    · simp
  · have hroom := hsound.room
    have hlimit := hsound.limit
    have hless : pool.live - 1 < pool.config.maxConnections := by omega
    exact ⟨⟨hsound.idle, hroom, Nat.le_of_lt hless⟩, fun hclosed => ⟨hclosed, fun _ => hless⟩, rfl,
      link.abandon_spec wire⟩

end Pool

/-! ## Results -/

/-- A result with another final state. -/
def withState {ε σ τ α : Type} (state : τ) : EStateM.Result ε σ α → EStateM.Result ε τ α
  | .ok a _ => .ok a state
  | .error e _ => .error e state

theorem outcome_withState {ε σ τ α : Type} (state : τ) (result : EStateM.Result ε σ α) :
    outcome (withState state result) = outcome result := by
  cases result <;> rfl

theorem finalState_withState {ε σ τ α : Type} (state : τ) (result : EStateM.Result ε σ α) :
    finalState (withState state result) = state := by
  cases result <;> rfl

theorem withState_withState {ε σ τ υ α : Type} (state : τ) (last : υ)
    (result : EStateM.Result ε σ α) :
    withState last (withState state result) = withState last result := by
  cases result <;> rfl

theorem Pool.lend_spec {α : Type} {pool : Pool} (hsound : pool.Sound) (wire : Wire)
    (spoils : α → Bool) (act : Link → WireM α) :
    (¬ pool.Serves ∧ ∃ e, Pool.lend spoils act (pool, wire) = .error e (pool, wire)) ∨
      (∃ e after, Pool.lend spoils act (pool, wire) = .error e (pool, after) ∧
        wire.Struck after) ∨
      ∃ link first next last, pool.Serves ∧ link.isOpen = true ∧ link.store = pool.store ∧
        wire.Spared first ∧ (finalState (act link first)).Spared last ∧ pool.Later next ∧
        Pool.lend spoils act (pool, wire) = withState (next, last) (act link first) := by
  unfold Pool.lend
  rcases Classical.em pool.Serves with hserves | hserves
  · obtain ⟨e, after, herror, hstruck⟩ |
      ⟨link, lending, first, hok, hopen, hlink, hlending, hplace, hclosed, hspared⟩ :=
      checkout_of_serves hsound hserves wire
    · exact .inr (.inl ⟨e, after, by simp only [herror], hstruck⟩)
    · have hback := giveBack_spec hlending hopen (hlink.trans hplace.symm)
      simp only [hok]
      have hlent : ∀ spoiled middle, ∃ next last, lending.giveBack link spoiled middle = (next, last) ∧
          pool.Later next ∧ middle.Spared last := by
        intro spoiled middle
        obtain ⟨hnext, hserves', hplace', hspared'⟩ := hback spoiled middle
        exact ⟨_, _, rfl, ⟨hplace'.trans hplace, hnext, iff_of_true (hserves' hclosed) hserves⟩,
          hspared'⟩
      cases hact : act link first with
      | ok a middle =>
        obtain ⟨next, last, hgive, hlater, hspared'⟩ := hlent (spoils a) middle
        refine .inr (.inr ⟨link, first, next, last, hserves, hopen, hlink, hspared, ?_⟩)
        simp only [hact, hgive]
        exact ⟨hspared', hlater, rfl⟩
      | error e middle =>
        obtain ⟨next, last, hgive, hlater, hspared'⟩ := hlent e.isTransport middle
        refine .inr (.inr ⟨link, first, next, last, hserves, hopen, hlink, hspared, ?_⟩)
        simp only [hact, hgive]
        exact ⟨hspared', hlater, rfl⟩
  · obtain ⟨e, herror⟩ := checkout_of_not_serves hserves wire
    exact .inl ⟨hserves, e, by simp only [herror]⟩

/-! ## Backends -/

namespace Backend

/-- All links lead to their stores, and those that are in use are open. -/
def Sound : Backend → Prop
  | single link closed => closed = false → link.isOpen = true
  | pooled pool => pool.Sound
  | sharded shards => ∀ slot, (shards.get slot).Sound
  | cluster nodes closed => closed = false → ∀ slot, (nodes.get slot).isOpen = true

/-- Whether the backend takes actions on a key. -/
def Serves (backend : Backend) (key : Bytes) : Prop :=
  match backend with
  | single _ closed => closed = false
  | pooled pool => pool.Serves
  | @sharded n shards => (shards.get (route n key)).Serves
  | cluster _ closed => closed = false

/-- One less than the number of stores that the backend tells apart. -/
def width : Backend → Nat
  | single .. => 0
  | pooled _ => 0
  | @sharded n _ => n
  | @cluster n _ _ => n

/-- Whether a batch on the tables under two keys is one transaction. -/
def Together (backend : Backend) (a b : Bytes) : Prop :=
  backend.kind ≠ .cluster ∧ route backend.width a = route backend.width b

/-- What a backend keeps, even while links of it are out. -/
structure Kept (before after : Backend) : Prop where
  kind : after.kind = before.kind
  width : after.width = before.width
  place : after.storeOf = before.storeOf
  sound : after.Sound

/-- What a backend keeps while it is used. -/
structure Later (before after : Backend) : Prop extends before.Kept after where
  serves : ∀ key, after.Serves key ↔ before.Serves key

theorem Kept.refl {backend : Backend} (h : backend.Sound) : backend.Kept backend :=
  ⟨rfl, rfl, rfl, h⟩

theorem Later.refl {backend : Backend} (h : backend.Sound) : backend.Later backend :=
  ⟨.refl h, fun _ => .rfl⟩

theorem Later.trans {a b c : Backend} (h : a.Later b) (h' : b.Later c) : a.Later c where
  kind := h'.kind.trans h.kind
  width := h'.width.trans h.width
  place := h'.place.trans h.place
  sound := h'.sound
  serves key := (h'.serves key).trans (h.serves key)

theorem Kept.together {before after : Backend} (h : before.Kept after) (a b : Bytes) :
    after.Together a b ↔ before.Together a b := by
  rw [Together, Together, h.kind, h.width]

theorem get_set {n : Nat} (shards : Vector Pool (n + 1)) (slot other : Fin (n + 1)) (pool : Pool) :
    (shards.set slot pool).get other = if slot = other then pool else shards.get other := by
  simp only [Vector.get_eq_getElem, Vector.getElem_set, Fin.ext_iff]

theorem set_get {n : Nat} (shards : Vector Pool (n + 1)) (slot : Fin (n + 1)) :
    shards.set slot (shards.get slot) = shards := by
  simp [Vector.get_eq_getElem]

theorem kept_set {n : Nat} {shards : Vector Pool (n + 1)} (hsound : (sharded shards).Sound)
    (slot : Fin (n + 1)) {pool : Pool} (hpool : pool.Sound)
    (hplace : pool.store = (shards.get slot).store) :
    (sharded shards).Kept (sharded (shards.set slot pool)) := by
  refine ⟨rfl, rfl, ?_, ?_⟩
  · funext key
    show ((shards.set slot pool).get (route n key)).store = (shards.get (route n key)).store
    rw [get_set]
    split
    · rename_i heq
      rw [hplace, heq]
    · rfl
  · intro other
    rw [get_set]
    split
    · exact hpool
    · exact hsound other

theorem later_set {n : Nat} {shards : Vector Pool (n + 1)} (hsound : (sharded shards).Sound)
    (slot : Fin (n + 1)) {pool : Pool} (h : (shards.get slot).Later pool) :
    (sharded shards).Later (sharded (shards.set slot pool)) := by
  refine ⟨kept_set hsound slot h.sound h.place, ?_⟩
  intro key
  simp only [Serves, get_set]
  split
  · rename_i heq
    rw [h.serves, heq]
  · exact .rfl

end Backend

/-! ## Clients -/

namespace Client

/-- The table that a key leads to. -/
def table (client : Client) (key : Bytes) : Table :=
  (client.wire.store (client.backend.storeOf key)).table key

/-- The client with all faults gone. -/
def calm (client : Client) : Client := { client with wire := { client.wire with faults := [] } }

/-- A sound backend under a client that gets all that is read. -/
structure Sound (client : Client) : Prop where
  backend : client.backend.Sound
  window : client.window = none

/-- What a client keeps over an action that changes no store, even while links of it are out. -/
structure Kept (before after : Client) : Prop where
  backend : before.backend.Kept after.backend
  stores : after.wire.store = before.wire.store
  threats : after.wire.threats ⊆ before.wire.threats

/-- What a client keeps while it is used. -/
structure Later (before after : Client) : Prop where
  backend : before.backend.Later after.backend
  window : after.window = before.window
  threats : after.wire.threats ⊆ before.wire.threats

/-- What a client keeps over an action that writes nothing. Faults may have been spent on it. -/
structure Unwritten (before after : Client) : Prop extends before.Later after where
  stores : after.wire.store = before.wire.store
  waiting : after.wire.waiting ≤ before.wire.waiting

/-- Something came between an action and the table under a key: the key is not served, or a fault
struck. -/
def Hindered (key : Bytes) (before after : Client) : Prop :=
  ¬ before.backend.Serves key ∨ after.wire.waiting < before.wire.waiting

/-- No fault waits, and the keys are served. -/
structure Steady (keys : List Bytes) (client : Client) : Prop where
  threats : client.wire.threats = []
  serves : ∀ key ∈ keys, client.backend.Serves key

theorem Later.refl {client : Client} (h : client.Sound) : client.Later client :=
  ⟨.refl h.backend, rfl, fun _ hmem => hmem⟩

theorem Kept.refl {client : Client} (h : client.backend.Sound) : client.Kept client :=
  ⟨.refl h, rfl, fun _ hmem => hmem⟩

theorem Later.trans {a b c : Client} (h : a.Later b) (h' : b.Later c) : a.Later c where
  backend := h.backend.trans h'.backend
  window := h'.window.trans h.window
  threats _ hmem := h.threats (h'.threats hmem)

theorem Later.sound {before after : Client} (h : before.Later after) (hsound : before.Sound) :
    after.Sound where
  backend := h.backend.sound
  window := h.window.trans hsound.window

theorem Later.suffers {before after : Client} (h : before.Later after) {sort : Moment → Fault → Prop}
    (hsort : before.wire.Suffers sort) : after.wire.Suffers sort :=
  hsort.mono h.threats

theorem Later.steady {before after : Client} {keys : List Bytes} (h : before.Later after)
    (hsteady : before.Steady keys) : after.Steady keys where
  threats := List.subset_nil.1 (hsteady.threats ▸ h.threats)
  serves key hmem := (h.backend.serves key).2 (hsteady.serves key hmem)

theorem Later.kept {before after : Client} (h : before.Later after)
    (hstore : after.wire.store = before.wire.store) : before.Kept after :=
  ⟨h.backend.toKept, hstore, h.threats⟩

theorem table_of_place {before after : Client} (hplace : after.backend.storeOf = before.backend.storeOf)
    (hstore : after.wire.store = before.wire.store) : after.table = before.table := by
  funext key
  rw [Client.table, Client.table, hstore, hplace]

theorem Later.table {before after : Client} (h : before.Later after)
    (hstore : after.wire.store = before.wire.store) : after.table = before.table :=
  table_of_place h.backend.place hstore

theorem Unwritten.refl {client : Client} (h : client.Sound) : client.Unwritten client :=
  ⟨.refl h, rfl, le_rfl⟩

theorem Unwritten.trans {a b c : Client} (h : a.Unwritten b) (h' : b.Unwritten c) :
    a.Unwritten c :=
  ⟨h.toLater.trans h'.toLater, h'.stores.trans h.stores, h'.waiting.trans h.waiting⟩

theorem Unwritten.table_eq {before after : Client} (h : before.Unwritten after) :
    after.table = before.table :=
  h.toLater.table h.stores

/-- What came between the parts of an action came between the whole. -/
theorem Unwritten.hindered_iff {a b c : Client} {key : Bytes} (h : a.Unwritten b)
    (h' : b.Unwritten c) : a.Hindered key c ↔ a.Hindered key b ∨ b.Hindered key c := by
  have hless := h.waiting
  have hless' := h'.waiting
  rw [Hindered, Hindered, Hindered, h.backend.serves key]
  constructor
  · rintro (hserves | hstruck)
    · exact .inl (.inl hserves)
    · rcases Nat.lt_or_ge b.wire.waiting a.wire.waiting with hfirst | hnone
      · exact .inl (.inr hfirst)
      · exact .inr (.inr (Nat.lt_of_lt_of_le hstruck hnone))
  · rintro ((hserves | hstruck) | (hserves | hstruck))
    · exact .inl hserves
    · exact .inr (Nat.lt_of_le_of_lt hless' hstruck)
    · exact .inl hserves
    · exact .inr (Nat.lt_of_lt_of_le hstruck hless)

theorem Hindered.not_steady {before after : Client} {key : Bytes} {keys : List Bytes}
    (h : before.Hindered key after) (hkey : key ∈ keys) : ¬ before.Steady keys := by
  intro hsteady
  rcases h with hserves | hstruck
  · exact hserves (hsteady.serves key hkey)
  · exact Wire.threats_ne_nil_of_waiting_lt hstruck hsteady.threats

theorem Sound.calm {client : Client} (h : client.Sound) : client.calm.Sound := ⟨h.backend, h.window⟩

theorem calm_suffers (client : Client) (sort : Moment → Fault → Prop) :
    client.calm.wire.Suffers sort :=
  Wire.suffers_of_threats_nil rfl sort

theorem calm_steady {client : Client} {keys : List Bytes}
    (h : ∀ key ∈ keys, client.backend.Serves key) : client.calm.Steady keys :=
  ⟨rfl, h⟩

section

variable {α : Type} (key : Bytes) (spoils : α → Bool) (act : Link → WireM α) (wire : Wire)
  (window : Option Nat)

theorem lend_single (link : Link) :
    lend key spoils act ⟨.single link false, wire, window⟩ =
      withState ⟨.single link false, finalState (act link wire), window⟩ (act link wire) := by
  simp only [lend]
  cases act link wire <;> rfl

theorem lend_pooled (pool : Pool) :
    lend key spoils act ⟨.pooled pool, wire, window⟩ =
      let result := Pool.lend spoils act (pool, wire)
      withState ⟨.pooled (finalState result).1, (finalState result).2, window⟩ result := by
  simp only [lend]
  cases Pool.lend spoils act (pool, wire) <;> rfl

theorem lend_sharded {n : Nat} (shards : Vector Pool (n + 1)) {slot : Fin (n + 1)}
    (hslot : route n key = slot) :
    lend key spoils act ⟨.sharded shards, wire, window⟩ =
      let result := Pool.lend spoils act (shards.get slot, wire)
      withState ⟨.sharded (shards.set slot (finalState result).1), (finalState result).2, window⟩
        result := by
  subst hslot
  simp only [lend, Vector.get_eq_getElem]
  cases Pool.lend spoils act (shards[route n key], wire) <;> rfl

theorem lend_cluster {n : Nat} (nodes : Vector Link (n + 1)) :
    lend key spoils act ⟨.cluster nodes false, wire, window⟩ =
      let result := act (nodes.get (route n key)) wire
      withState ⟨.cluster nodes false, finalState result, window⟩ result := by
  simp only [lend, Vector.get_eq_getElem]
  cases act nodes[route n key] wire <;> rfl

end

/-- What may become of an action on the link that serves a key. -/
theorem lend_spec {α : Type} {client : Client} (hsound : client.backend.Sound) (key : Bytes)
    (spoils : α → Bool) (act : Link → WireM α) :
    (¬ client.backend.Serves key ∧ ∃ e, lend key spoils act client = .error e client) ∨
      (∃ e after, lend key spoils act client = .error e after ∧
        client.Later after ∧ client.wire.Struck after.wire) ∨
      ∃ link first after, client.backend.Serves key ∧ link.isOpen = true ∧
        link.store = client.backend.storeOf key ∧ client.wire.Spared first ∧
        (finalState (act link first)).Spared after.wire ∧ client.backend.Later after.backend ∧
        after.window = client.window ∧
        lend key spoils act client = withState after (act link first) := by
  obtain ⟨backend, wire, window⟩ := client
  cases backend with
  | single link closed =>
    cases closed with
    | true => exact .inl ⟨by simp [Backend.Serves], _, rfl⟩
    | false =>
      rw [lend_single]
      exact .inr (.inr ⟨link, wire, ⟨.single link false, finalState (act link wire), window⟩, rfl,
        hsound rfl, rfl, .refl _, .refl _, .refl hsound, rfl, rfl⟩)
  | pooled pool =>
    rw [lend_pooled]
    obtain ⟨hserves, e, herror⟩ | ⟨e, after, herror, hstruck⟩ |
      ⟨link, first, next, last, hserves, hopen, hlink, hfirst, hlast, hlater, hresult⟩ :=
      Pool.lend_spec hsound wire spoils act
    · rw [herror]
      exact .inl ⟨hserves, e, rfl⟩
    · rw [herror]
      exact .inr (.inl ⟨e, _, rfl, ⟨.refl hsound, rfl, hstruck.threats⟩, hstruck⟩)
    · rw [hresult]
      simp only [finalState_withState, withState_withState]
      refine .inr (.inr ⟨link, first, ⟨.pooled next, last, window⟩, hserves, hopen, hlink, hfirst,
        hlast, ⟨⟨rfl, rfl, ?_, hlater.sound⟩, fun _ => hlater.serves⟩, rfl, rfl⟩)
      funext other
      exact hlater.place
  | @sharded n shards =>
    have hpool : (shards.get (route n key)).Sound := hsound (route n key)
    have hback (e : Error) (after : Wire) :
        EStateM.Result.error (α := α) e (⟨.sharded (shards.set (route n key) (shards.get (route n key))),
          after, window⟩ : Client) = .error e ⟨.sharded shards, after, window⟩ := by
      rw [Backend.set_get]
    rw [lend_sharded key spoils act wire window shards rfl]
    obtain ⟨hserves, e, herror⟩ | ⟨e, after, herror, hstruck⟩ |
      ⟨link, first, next, last, hserves, hopen, hlink, hfirst, hlast, hlater, hresult⟩ :=
      Pool.lend_spec hpool wire spoils act
    · rw [herror]
      exact .inl ⟨hserves, e, hback e wire⟩
    · rw [herror]
      exact .inr (.inl ⟨e, ⟨.sharded shards, after, window⟩, hback e after,
        ⟨.refl hsound, rfl, hstruck.threats⟩, hstruck⟩)
    · rw [hresult]
      simp only [finalState_withState, withState_withState]
      exact .inr (.inr ⟨link, first, _, hserves, hopen, hlink, hfirst, hlast,
        Backend.later_set hsound (route n key) hlater, rfl, rfl⟩)
  | @cluster n nodes closed =>
    cases closed with
    | true => exact .inl ⟨by simp [Backend.Serves], _, rfl⟩
    | false =>
      rw [lend_cluster]
      exact .inr (.inr ⟨nodes.get (route n key), wire,
        ⟨.cluster nodes false, finalState (act (nodes.get (route n key)) wire), window⟩, rfl,
        hsound rfl _, rfl, .refl _, .refl _, .refl hsound, rfl, rfl⟩)

end Client

/-! ## Backends as they are opened -/

namespace Backend

/-- The backends that can be opened, of all four kinds. -/
inductive Opened : Backend → Prop where
  | single {store : Nat} {backend : Backend} {before after : Wire}
      (h : openSingle store before = .ok backend after) : Opened backend
  | pooled {config : PoolConfig} {store : Nat} {backend : Backend}
      (h : openPooled config store = .ok backend) : Opened backend
  | sharded {config : PoolConfig} {stores : List Nat} {backend : Backend}
      (h : openSharded config stores = .ok backend) : Opened backend
  | cluster {stores : List Nat} {backend : Backend} {before after : Wire}
      (h : openCluster stores before = .ok backend after) : Opened backend

theorem new_eq_ok {config : PoolConfig} {store : Nat} {pool : Pool}
    (h : Pool.new config store = .ok pool) :
    0 < config.maxConnections ∧ pool = ⟨config, store, [], 0, false⟩ := by
  rw [Pool.new, PoolConfig.validate] at h
  by_cases hzero : config.maxConnections = 0
  · simp [hzero] at h
  · simp only [hzero, if_false] at h
    exact ⟨Nat.pos_of_ne_zero hzero, (Except.ok.inj h).symm⟩

theorem new_ready {config : PoolConfig} {store : Nat} {pool : Pool}
    (h : Pool.new config store = .ok pool) : pool.Sound ∧ pool.Serves := by
  obtain ⟨hroom, rfl⟩ := new_eq_ok h
  refine ⟨⟨?_, hroom, Nat.zero_le _⟩, rfl, fun _ => hroom⟩
  intro link hmem
  exact absurd hmem List.not_mem_nil

theorem mem_of_mapM {α β : Type} {f : α → Except Error β} {as : List α} {bs : List β}
    (h : as.mapM f = .ok bs) {b : β} (hb : b ∈ bs) : ∃ a, f a = .ok b := by
  induction as generalizing bs with
  | nil =>
    rw [List.mapM_nil] at h
    obtain rfl := Except.ok.inj h
    exact absurd hb List.not_mem_nil
  | cons a rest ih =>
    rw [List.mapM_cons] at h
    cases ha : f a with
    | error e => simp [ha, bind, Except.bind] at h
    | ok first =>
      cases hrest : rest.mapM f with
      | error e => simp [ha, hrest, bind, Except.bind] at h
      | ok more =>
        simp only [ha, hrest, bind, Except.bind, pure, Except.pure, Except.ok.injEq] at h
        subst h
        rcases List.mem_cons.1 hb with rfl | hb
        · exact ⟨a, ha⟩
        · exact ih hrest hb

theorem new_of_mapM {config : PoolConfig} {n : Nat} {stores : Vector Nat n} {pools : Vector Pool n}
    (h : stores.mapM (Pool.new config) = .ok pools) (slot : Fin n) :
    ∃ store, Pool.new config store = .ok pools[slot] := by
  have hlist : stores.toList.mapM (Pool.new config) = .ok pools.toList := by
    have harray : Vector.toArray <$> stores.mapM (Pool.new config) =
        stores.toArray.mapM (Pool.new config) := Vector.toArray_mapM
    rw [h] at harray
    have hconv : Array.toList <$> stores.toArray.mapM (Pool.new config) =
        stores.toArray.toList.mapM (Pool.new config) := Array.toList_mapM
    rw [← harray] at hconv
    exact hconv.symm
  exact mem_of_mapM hlist (by simp)

theorem open_of_connected {stores : List Nat} {links : List Link} {before after : Wire}
    (h : stores.mapM Wire.connect before = .ok links after) : ∀ link ∈ links, link.isOpen = true := by
  induction stores generalizing links before with
  | nil =>
    rw [List.mapM_nil] at h
    cases h
    exact fun _ hmem => absurd hmem List.not_mem_nil
  | cons store rest ih =>
    rw [List.mapM_cons] at h
    simp only [bind, EStateM.bind] at h
    rcases Wire.connect_spec store before with ⟨link, middle, hok, hopen, -⟩ | ⟨e, middle, herror, -⟩
    · rw [hok] at h
      dsimp only at h
      cases hrest : rest.mapM Wire.connect middle with
      | ok more last =>
        rw [hrest] at h
        cases h
        intro other hmem
        rcases List.mem_cons.1 hmem with rfl | hmem
        · exact hopen
        · exact ih hrest other hmem
      | error e last =>
        rw [hrest] at h
        cases h
    · rw [herror] at h
      cases h

/-- A backend that was just opened is sound and serves every key. -/
theorem Opened.ready {backend : Backend} (h : Opened backend) :
    backend.Sound ∧ ∀ key, backend.Serves key := by
  cases h with
  | @single store _ before after h =>
    rcases Wire.connect_spec store before with ⟨link, middle, hok, hopen, -⟩ | ⟨e, middle, herror, -⟩
    · simp only [openSingle, bind, EStateM.bind, hok, pure, EStateM.pure] at h
      cases h
      exact ⟨fun _ => hopen, fun _ => rfl⟩
    · simp only [openSingle, bind, EStateM.bind, herror] at h
      cases h
  | @pooled config store _ h =>
    cases hnew : Pool.new config store with
    | error e => simp [openPooled, hnew, bind, Except.bind] at h
    | ok pool =>
      simp only [openPooled, hnew, bind, Except.bind, pure, Except.pure, Except.ok.injEq] at h
      subst h
      exact ⟨(new_ready hnew).1, fun _ => (new_ready hnew).2⟩
  | @sharded config stores _ h =>
    unfold openSharded at h
    cases hstores : nonempty? stores with
    | none => simp [hstores] at h
    | some found =>
      obtain ⟨n, stores⟩ := found
      simp only [hstores] at h
      cases hpools : stores.mapM (Pool.new config) with
      | error e => simp [hpools, bind, Except.bind] at h
      | ok pools =>
        simp only [hpools, bind, Except.bind, pure, Except.pure, Except.ok.injEq] at h
        subst h
        have hready : ∀ slot : Fin (n + 1), pools[slot].Sound ∧ pools[slot].Serves := by
          intro slot
          obtain ⟨store, hnew⟩ := new_of_mapM hpools slot
          exact new_ready hnew
        exact ⟨fun slot => (hready slot).1, fun key => (hready (route n key)).2⟩
  | @cluster stores _ before after h =>
    simp only [openCluster, bind, EStateM.bind] at h
    cases hlinks : stores.mapM Wire.connect before with
    | error e middle => simp [hlinks] at h
    | ok links middle =>
      simp only [hlinks] at h
      cases links with
      | nil => simp [nonempty?, throw, throwThe, MonadExceptOf.throw, EStateM.throw] at h
      | cons first rest =>
        simp only [nonempty?, pure, EStateM.pure] at h
        cases h
        refine ⟨fun _ slot => ?_, fun _ => rfl⟩
        exact open_of_connected hlinks _ (List.getElem_mem slot.isLt)

end Backend

end BlockDir
