import BlockDir.Proofs.Backend.Courses
import BlockDir.Proofs.Link.Tracing

/-!
# What the record tells of a client

Through whatever backend, a read sends questions, and a commit sends the writes of its batch
(`Client.traces_commit`). Nothing is supposed of the backend or of the faults here: links may be
closed, replies may be anything.
-/

namespace BlockDir

variable {sort : Write → Prop}

namespace Link

theorem traces_ask {α : Type} (link : Link) (key : Bytes) (query : Query)
    (f : Reply → Except Error α) :
    Traces id sort (do give (f (← link.execute (.ask key query))) : WireM α) := by
  have hexecute : Traces id sort (link.execute (.ask key query)) := by
    intro wire
    rw [execute, finalState_map]
    exact link.traces_send .execute (by simp [Command.Within]) wire
  exact hexecute.bind fun reply => traces_give (f reply)

theorem traces_fetchRound (link : Link) (key : Bytes) (fields : List Bytes) :
    Traces id sort (link.fetchRound key fields) := by
  intro wire
  have hsend : wire.Tells sort (finalState
      (link.send .pipeline (fields.map fun field => .ask key (.get field)) wire)) :=
    link.traces_send .pipeline (by simp [Command.Within]) wire
  unfold fetchRound
  cases hresult : link.send .pipeline (fields.map fun field => .ask key (.get field)) wire with
  | ok replies after | error e after =>
    rw [hresult] at hsend
    exact hsend

theorem traces_fetchSlots (link : Link) (key : Bytes) (interval : Nat) (fields : List Bytes) :
    Traces id sort (link.fetchSlots key interval fields) :=
  (traces_mapM (link.traces_fetchRound key) (chunks interval fields)).bind fun slots =>
    traces_pure slots.flatten

theorem traces_post (link : Link) (mode : Mode) {writes : Batch} (h : ∀ w ∈ writes, sort w) :
    Traces id sort (link.post mode writes) := by
  refine (link.traces_send mode ?_).bind fun replies => traces_give (mode.judge writes replies)
  intro command hmem
  obtain ⟨w, hw, rfl⟩ := List.mem_map.1 hmem
  exact h w hw

end Link

namespace Pool

theorem checkout_tells (pool : Pool) (wire : Wire) :
    wire.Tells sort (finalState (checkout (pool, wire))).2 := by
  by_cases hclosed : pool.closed
  · rw [checkout, if_pos hclosed]
    exact .refl wire
  · rw [checkout, if_neg hclosed]
    split
    · have hconnect : wire.Tells sort (finalState (Wire.connect pool.store wire)) :=
        Wire.connect_tells pool.store wire
      cases hresult : Wire.connect pool.store wire with
      | ok link after | error e after =>
        rw [hresult] at hconnect
        exact hconnect
    · cases hidle : pool.idle with
      | cons link idle =>
        simp only [endWait, hidle]
        exact .refl wire
      | nil =>
        simp only [endWait, hidle, hclosed]
        exact .refl wire

theorem giveBack_tells (pool : Pool) (link : Link) (spoiled : Bool) (wire : Wire) :
    wire.Tells sort (pool.giveBack link spoiled wire).2 := by
  unfold giveBack
  split
  · exact .refl wire
  · exact link.abandon_tells wire

theorem traces_lend {α : Type} (spoils : α → Bool) {act : Link → WireM α}
    (h : ∀ link, Traces id sort (act link)) : Traces Prod.snd sort (Pool.lend spoils act) := by
  rintro ⟨pool, wire⟩
  have hcheckout : wire.Tells sort (finalState (checkout (pool, wire))).2 :=
    pool.checkout_tells wire
  unfold Pool.lend
  cases hlink : checkout (pool, wire) with
  | error e after =>
    rw [hlink] at hcheckout
    exact hcheckout
  | ok link lent =>
    rw [hlink] at hcheckout
    obtain ⟨lending, first⟩ := lent
    have hact := h link first
    dsimp only
    cases hresult : act link first with
    | ok a middle | error e middle =>
      rw [hresult] at hact
      exact hcheckout.trans (hact.trans (giveBack_tells lending link _ middle))

end Pool

namespace Client

variable {α : Type}

theorem traces_lend (key : Bytes) (spoils : α → Bool) {act : Link → WireM α}
    (h : ∀ link, Traces id sort (act link)) : Traces wire sort (lend key spoils act) := by
  rintro ⟨backend, start, window⟩
  cases backend with
  | single link closed =>
    cases closed with
    | true => exact .refl start
    | false =>
      rw [lend_single, finalState_withState]
      exact h link start
  | pooled pool =>
    rw [lend_pooled, finalState_withState]
    exact Pool.traces_lend spoils h (pool, start)
  | @sharded n shards =>
    rw [lend_sharded key spoils act start window shards rfl, finalState_withState]
    exact Pool.traces_lend spoils h (shards.get (route n key), start)
  | @cluster n nodes closed =>
    cases closed with
    | true => exact .refl start
    | false =>
      rw [lend_cluster, finalState_withState]
      exact h (nodes.get (route n key)) start

theorem traces_hasField (key field : Bytes) : Traces wire sort (hasField key field) :=
  traces_lend key _ fun link => link.traces_ask key (.has field) Reply.toBool

theorem traces_getField (key field : Bytes) : Traces wire sort (getField key field) :=
  traces_lend key _ fun link => link.traces_ask key (.get field) Reply.toValue

theorem traces_listFields (key : Bytes) : Traces wire sort (listFields key) :=
  traces_lend key _ fun link => link.traces_ask key .fields Reply.toList

theorem traces_fetchSlots (key : Bytes) (fields : List Bytes) (interval : Nat) :
    Traces wire sort (fetchSlots key fields interval) := by
  have hsingly : ∀ field, Traces wire sort (fetchSingly key field) := by
    intro field client
    have hget : client.wire.Tells sort (finalState (getField key field client)).wire :=
      traces_getField key field client
    unfold fetchSingly
    cases hresult : getField key field client with
    | ok value after | error e after =>
      rw [hresult] at hget
      exact hget
  intro client
  unfold fetchSlots
  split
  · exact traces_mapM hsingly fields client
  · have hlend : client.wire.Tells sort (finalState
        (lend key (·.any Option.isNone) (·.fetchSlots key interval fields) client)).wire :=
      traces_lend key (·.any Option.isNone)
        (fun link => link.traces_fetchSlots key interval fields) client
    cases hresult : lend key (·.any Option.isNone) (·.fetchSlots key interval fields) client with
    | ok slots after | error e after =>
      rw [hresult] at hlend
      exact hlend

theorem traces_fetch (key : Bytes) (fields : List Bytes) (interval : Nat) :
    Traces wire sort (fetch key fields interval) := by
  refine (traces_fetchSlots key fields interval).bind fun slots => ?_
  refine Traces.bind (fun client => .refl _) fun client => ?_
  split
  · exact traces_pure _
  · exact traces_pure _

/-- Whatever strikes a commit, nothing is sent but writes of its batch. -/
theorem traces_commit {batch : Batch}
    (h : ∀ w ∈ batch, sort w) (interval : Nat) :
    Traces wire sort (commit batch interval) := by
  intro client
  rw [commit_eq]
  refine traces_forM (fun leg hleg => ?_) client
  refine traces_lend leg.key _ fun link => traces_forM fun round hround => ?_
  refine link.traces_post leg.mode fun w hw => h w ?_
  rw [← client.backend.writes_legs interval batch]
  exact List.mem_flatMap.2 ⟨leg, hleg, List.mem_flatten.2 ⟨round, hround, hw⟩⟩

end Client

end BlockDir
