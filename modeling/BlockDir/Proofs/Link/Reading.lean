import BlockDir.Proofs.Link.Sending

/-!
# Reading over a link

As long as no fault makes a read lie, an action that only reads changes no store, and either answers
what the table says or fails because of a fault (`Link.Reads`). A batched read answers for every
field what the table says or that its round was lost, and a fault that strikes it leaves a gap
(`fetchSlots_spec`).
-/

namespace BlockDir

@[simp] theorem give_ok {σ α : Type} (a : α) (s : σ) : give (.ok a : Except Error α) s = .ok a s := rfl

@[simp] theorem give_error {σ α : Type} (e : Error) (s : σ) :
    give (.error e : Except Error α) s = .error e s := rfl

@[simp] theorem finalState_give {σ α : Type} (result : Except Error α) (s : σ) :
    finalState (give result s) = s := by
  cases result <;> rfl

@[simp] theorem outcome_give {σ α : Type} (result : Except Error α) (s : σ) :
    outcome (give result s) = result := by
  cases result <;> rfl

theorem give_eq_ok {σ α : Type} {result : Except Error α} {s t : σ} {a : α} :
    give result s = .ok a t ↔ result = .ok a ∧ s = t := by
  cases result <;> simp

/-- An action in two parts succeeds if both do. -/
theorem run_bind_eq_ok {ε σ α β : Type} {act : EStateM ε σ α} {next : α → EStateM ε σ β} {s t : σ}
    {b : β} :
    (act >>= next) s = .ok b t ↔ ∃ a middle, act s = .ok a middle ∧ next a middle = .ok b t := by
  simp only [bind, EStateM.bind]
  cases act s <;> simp

theorem mem_indices_isNone {α : Type} {values : List (Option α)} {index : Nat} :
    index ∈ (values.zipIdx.filter (·.1.isNone)).map (·.2) ↔ values[index]? = some none := by
  rw [List.mem_map]
  constructor
  · rintro ⟨⟨value, i⟩, hmem, rfl⟩
    obtain ⟨hplace, hnone⟩ := List.mem_filter.1 hmem
    rw [List.mem_zipIdx_iff_getElem?, Option.isNone_iff_eq_none.1 hnone] at hplace
    exact hplace
  · intro hnone
    exact ⟨(none, index), List.mem_filter.2 ⟨List.mem_zipIdx_iff_getElem?.2 hnone, rfl⟩, rfl⟩

/-- The slots that were not read are listed. -/
theorem Fetched.mem_failed_ofSlots {slots : List Slot} {index : Nat} :
    index ∈ (Fetched.ofSlots slots).failed ↔ slots[index]? = some none :=
  mem_indices_isNone

theorem Fetched.failed_ofSlots_eq_nil_iff {slots : List Slot} :
    (Fetched.ofSlots slots).failed = [] ↔ none ∉ slots := by
  rw [List.eq_nil_iff_forall_not_mem, List.mem_iff_getElem?, not_exists]
  simp only [mem_failed_ofSlots]

theorem Fetched.failed_ofSlots_ascending (slots : List Slot) :
    (Fetched.ofSlots slots).failed.Pairwise (· < ·) := by
  have hall : (slots.zipIdx.map (·.2)).Pairwise (· < ·) := by
    rw [List.zipIdx_map_snd]
    exact List.pairwise_lt_range'
  exact hall.sublist (List.filter_sublist.map _)

/-- Slots that were all read. -/
theorem Fetched.ofSlots_some (values : List (Option Bytes)) :
    Fetched.ofSlots (values.map some) = ⟨values, []⟩ := by
  have hfailed : ((values.map some).zipIdx.filter (·.1.isNone)).map (·.2) = [] := by
    refine failed_ofSlots_eq_nil_iff.2 ?_
    simp
  simp only [Fetched.ofSlots, hfailed, List.map_map]
  congr 1
  exact List.map_id _

namespace Link

theorem storesAfter_asks (link : Link) (wire : Wire) (key : Bytes) (queries : List Query) :
    link.storesAfter wire (queries.map (.ask key)) = wire.store := by
  rw [storesAfter, Store.runAll_asks, Function.update_eq_self]

/-- Over an open link and with truthful faults, `act` changes no store, and answers what `f` says of
the table under `key` unless a fault makes it fail. -/
def Reads {α : Type} (act : Link → WireM α) (key : Bytes) (f : Table → Except Error α) : Prop :=
  ∀ (link : Link) (wire : Wire), link.isOpen = true → wire.Suffers Fault.Truthful →
    ∃ after, after.store = wire.store ∧ after.threats ⊆ wire.threats ∧
      (act link wire = give (f ((wire.store link.store).table key)) after ∨
        wire.threats ≠ [] ∧ ∃ e, act link wire = .error e after)

/-- Asking in one call brings the true replies unless a fault strikes. Then the call fails, or a round
trip brings a wrong number of replies. -/
theorem send_asks {link : Link} (hopen : link.isOpen = true) {mode : Mode}
    (hmode : mode = .execute ∨ mode = .pipeline) {wire : Wire} (hovert : wire.Suffers Fault.Overt)
    (key : Bytes) {queries : List Query} (hsome : queries ≠ []) :
    ∃ after, after.store = wire.store ∧ after.threats ⊆ wire.threats ∧
      (after.waiting = wire.waiting ∧
          link.send mode (queries.map (.ask key)) wire =
            .ok (queries.map ((wire.store link.store).table key).answer) after ∨
        after.waiting < wire.waiting ∧
          ((∃ e, link.send mode (queries.map (.ask key)) wire = .error e after) ∨
            mode = .pipeline ∧ ∃ replies, replies.length ≠ queries.length ∧
              link.send mode (queries.map (.ask key)) wire = .ok replies after)) := by
  have hwrong : ∀ fault, (Moment.send mode, fault) ∈ wire.threats →
      (∃ applied error, fault = .failing applied error) ∨ mode = .pipeline := by
    intro fault hmem
    rcases hmode with rfl | rfl
    · exact .inl ((hovert _ hmem).1 rfl)
    · exact .inr rfl
  have hcommands : queries.map (Command.ask key) ≠ [] := by simpa using hsome
  obtain ⟨hsent, hthreats⟩ := send_sent hopen mode (queries.map (.ask key)) wire
  generalize link.send mode (queries.map (.ask key)) wire = result at hsent hthreats
  cases hsent with
  | @answered after stores spared =>
    rw [storesAfter_asks] at stores
    refine ⟨after, stores, hthreats, .inl ⟨spared, ?_⟩⟩
    rw [replies, Store.runAll_asks]
  | @failed after error threat stores struck =>
    rw [storesAfter_asks] at stores
    exact ⟨after, stores, hthreats, .inr ⟨struck, .inl ⟨error, rfl⟩⟩⟩
  | @cut after count error threat stores struck =>
    rw [← List.map_take, storesAfter_asks] at stores
    exact ⟨after, stores, hthreats, .inr ⟨struck, .inl ⟨error, rfl⟩⟩⟩
  | @garbled after change threat stores struck =>
    rw [storesAfter_asks] at stores
    obtain ⟨applied, error, heq⟩ | rfl := hwrong _ threat
    · cases heq
    · refine ⟨after, stores, hthreats, .inr ⟨struck, .inr ⟨rfl, _, ?_, rfl⟩⟩⟩
      have hcount := (hovert _ threat).2 rfl (link.replies wire (queries.map (.ask key)))
      rw [replies, Store.runAll_asks] at hcount ⊢
      simpa using hcount (by simpa using hsome)
  | @refused after answer threat stores struck =>
    obtain ⟨applied, error, heq⟩ | rfl := hwrong _ threat
    · cases heq
    · refine ⟨after, stores, hthreats, .inr ⟨struck, .inr ⟨rfl, _, ?_, rfl⟩⟩⟩
      simpa using (hovert _ threat).2 rfl (queries.map (.ask key)) hcommands

/-- A single question is answered truthfully, or it fails because a fault strikes. -/
theorem execute_ask {link : Link} (hopen : link.isOpen = true) {wire : Wire}
    (hovert : wire.Suffers Fault.Overt) (key : Bytes) (query : Query) :
    ∃ after, after.store = wire.store ∧ after.threats ⊆ wire.threats ∧
      (after.waiting = wire.waiting ∧ link.execute (.ask key query) wire =
          .ok (((wire.store link.store).table key).answer query) after ∨
        after.waiting < wire.waiting ∧
          ∃ e, link.execute (.ask key query) wire = .error e after) := by
  obtain ⟨after, hstore, hthreats, ⟨hspared, hok⟩ | ⟨hstruck, ⟨e, herror⟩ | ⟨hmode, -⟩⟩⟩ :=
    send_asks hopen (.inl rfl) hovert key (List.cons_ne_nil query [])
  · refine ⟨after, hstore, hthreats, .inl ⟨hspared, ?_⟩⟩
    rw [List.map_singleton, List.map_singleton] at hok
    simp [execute, Functor.map, EStateM.map, hok]
  · refine ⟨after, hstore, hthreats, .inr ⟨hstruck, e, ?_⟩⟩
    rw [List.map_singleton] at herror
    simp [execute, Functor.map, EStateM.map, herror]
  · cases hmode

/-- A single question is read truthfully, whatever is made of its reply. -/
theorem reads_execute {α : Type} (key : Bytes) (query : Query) (f : Reply → Except Error α) :
    Reads (fun link => do give (f (← link.execute (.ask key query)))) key
      fun table => f (table.answer query) := by
  intro link wire hopen htrue
  obtain ⟨after, hstore, hthreats, ⟨-, hok⟩ | ⟨hstruck, e, herror⟩⟩ :=
    execute_ask hopen htrue.overt key query
  · exact ⟨after, hstore, hthreats, .inl (by simp [bind, EStateM.bind, hok])⟩
  · refine ⟨after, hstore, hthreats, .inr ⟨Wire.threats_ne_nil_of_waiting_lt hstruck, e, ?_⟩⟩
    simp [bind, EStateM.bind, herror]

theorem reads_hasField (key field : Bytes) :
    Reads (·.hasField key field) key fun table => .ok (decide (field ∈ table)) := by
  have h := reads_execute key (.has field) Reply.toBool
  have hanswer : ∀ table : Table, (table.answer (.has field)).toBool = .ok (decide (field ∈ table)) := by
    intro table
    by_cases hmem : field ∈ table <;> simp [Table.answer, Reply.toBool, hmem]
  simp only [hanswer] at h
  exact h

theorem toValue_answer (table : Table) (field : Bytes) :
    (table.answer (.get field)).toValue = .ok table[field]? := by
  rw [Table.answer]
  cases table[field]? <;> rfl

theorem reads_getField (key field : Bytes) :
    Reads (·.getField key field) key fun table => .ok table[field]? := by
  have h := reads_execute key (.get field) Reply.toValue
  simp only [toValue_answer] at h
  exact h

/-- The value of a field is found, or a fault strikes. -/
theorem getField_spec {link : Link} (hopen : link.isOpen = true) {wire : Wire}
    (hovert : wire.Suffers Fault.Overt) (key field : Bytes) :
    ∃ after, after.store = wire.store ∧ after.threats ⊆ wire.threats ∧
      (after.waiting = wire.waiting ∧ link.getField key field wire =
          .ok ((wire.store link.store).table key)[field]? after ∨
        after.waiting < wire.waiting ∧ ∃ e, link.getField key field wire = .error e after) := by
  obtain ⟨after, hstore, hthreats, ⟨hspared, hok⟩ | ⟨hstruck, e, herror⟩⟩ :=
    execute_ask hopen hovert key (.get field)
  · refine ⟨after, hstore, hthreats, .inl ⟨hspared, ?_⟩⟩
    simp [getField, bind, EStateM.bind, hok, toValue_answer]
  · refine ⟨after, hstore, hthreats, .inr ⟨hstruck, e, ?_⟩⟩
    simp [getField, bind, EStateM.bind, herror]

theorem reads_listFields (key : Bytes) :
    Reads (·.listFields key) key fun table => .ok table.keys :=
  reads_execute key .fields Reply.toList

/-- The slots that a batched read found: each says what the table says of its field, or that it was
lost, and none was lost unless a fault was there to strike. -/
structure Found (table : Table) (fields : List Bytes) (slots : List Slot) (threats : Prop) : Prop where
  each : List.Forall₂ (fun slot field => slot = none ∨ slot = some table[field]?) slots fields
  whole : ¬ threats → slots = fields.map fun field => some table[field]?

theorem Found.append {table : Table} {fields rest : List Bytes} {slots more : List Slot}
    {threats : Prop} (h : Found table fields slots threats) (hrest : Found table rest more threats) :
    Found table (fields ++ rest) (slots ++ more) threats where
  each := List.rel_append h.each hrest.each
  whole hno := by rw [h.whole hno, hrest.whole hno, List.map_append]

theorem Found.mono {table : Table} {fields : List Bytes} {slots : List Slot} {threats more : Prop}
    (h : Found table fields slots threats) (hmore : threats → more) :
    Found table fields slots more where
  each := h.each
  whole hno := h.whole fun ht => hno (hmore ht)

theorem found_lost (table : Table) (fields : List Bytes) {threats : Prop} (h : threats) :
    Found table fields (fields.map fun _ => none) threats where
  each := by
    rw [List.forall₂_map_left_iff]
    exact List.forall₂_same.2 fun _ _ => .inl rfl
  whole hno := absurd h hno

theorem found_all (table : Table) (fields : List Bytes) (threats : Prop) :
    Found table fields (fields.map fun field => some table[field]?) threats where
  each := by
    rw [List.forall₂_map_left_iff]
    exact List.forall₂_same.2 fun _ _ => .inr rfl
  whole _ := rfl

theorem Slot.ofReply_answer (table : Table) (field : Bytes) :
    Slot.ofReply (table.answer (.get field)) = some table[field]? := by
  rw [Slot.ofReply, toValue_answer]
  rfl

/-- A round that a fault strikes is lost as a whole. -/
theorem fetchRound_spec {link : Link} (hopen : link.isOpen = true) {wire : Wire}
    (hovert : wire.Suffers Fault.Overt) (key : Bytes) {fields : List Bytes} (hsome : fields ≠ []) :
    ∃ slots after, link.fetchRound key fields wire = .ok slots after ∧ after.store = wire.store ∧
      after.threats ⊆ wire.threats ∧
      (after.waiting = wire.waiting ∧
          slots = fields.map (fun field => some ((wire.store link.store).table key)[field]?) ∨
        after.waiting < wire.waiting ∧ slots = fields.map fun _ => none) := by
  have hqueries : fields.map Query.get ≠ [] := by simpa using hsome
  have hcommands : (fields.map fun field => Command.ask key (.get field)) =
      (fields.map Query.get).map (.ask key) := by
    rw [List.map_map]
    rfl
  obtain ⟨after, hstore, hthreats, ⟨hspared, hok⟩ |
      ⟨hstruck, ⟨e, herror⟩ | ⟨-, replies, hcount, hok⟩⟩⟩ :=
    send_asks hopen (.inr rfl) hovert key hqueries
  · refine ⟨_, after, ?_, hstore, hthreats, .inl ⟨hspared, rfl⟩⟩
    simp only [fetchRound, hcommands, hok]
    simp only [List.length_map, if_true, List.map_map]
    congr 1
    refine List.map_congr_left fun field _ => ?_
    exact Slot.ofReply_answer _ field
  · refine ⟨_, after, ?_, hstore, hthreats, .inr ⟨hstruck, rfl⟩⟩
    simp only [fetchRound, hcommands, herror]
  · refine ⟨_, after, ?_, hstore, hthreats, .inr ⟨hstruck, rfl⟩⟩
    rw [List.length_map] at hcount
    simp only [fetchRound, hcommands, hok, if_neg hcount]

/-- Rounds go on after those that are lost. A fault that strikes any of them leaves a gap. -/
theorem fetchRounds_spec {link : Link} (hopen : link.isOpen = true) {wire : Wire}
    (hovert : wire.Suffers Fault.Overt) (key : Bytes) {rounds : List (List Bytes)}
    (hsome : ∀ round ∈ rounds, round ≠ []) :
    ∃ slots after, rounds.mapM (link.fetchRound key) wire = .ok slots after ∧
      after.store = wire.store ∧ after.threats ⊆ wire.threats ∧ after.waiting ≤ wire.waiting ∧
      Found ((wire.store link.store).table key) rounds.flatten slots.flatten
        (after.waiting < wire.waiting) ∧
      (after.waiting < wire.waiting → none ∈ slots.flatten) := by
  induction rounds generalizing wire with
  | nil =>
    exact ⟨[], wire, rfl, rfl, fun _ h => h, le_rfl, found_all _ [] _,
      fun h => absurd h (Nat.lt_irrefl _)⟩
  | cons round rest ih =>
    obtain ⟨first, middle, hfirst, hstore, hthreats, hround⟩ :=
      fetchRound_spec hopen hovert key (hsome round List.mem_cons_self)
    obtain ⟨more, after, hmore, hstore', hthreats', hless, hfound, hlost⟩ :=
      ih (hovert.mono hthreats) fun round hmem => hsome round (List.mem_cons_of_mem _ hmem)
    rw [hstore] at hfound
    refine ⟨first :: more, after, ?_, hstore'.trans hstore, fun t ht => hthreats (hthreats' ht), ?_⟩
    · rw [List.mapM_cons]
      simp [bind, EStateM.bind, hfirst, hmore, pure, EStateM.pure]
    · rw [List.flatten_cons, List.flatten_cons]
      rcases hround with ⟨hspared, rfl⟩ | ⟨hstruck, rfl⟩
      · rw [hspared] at hless hfound hlost
        exact ⟨hless, (found_all _ round _).append hfound,
          fun h => List.mem_append_right _ (hlost h)⟩
      · have hspent : after.waiting < wire.waiting := Nat.lt_of_le_of_lt hless hstruck
        refine ⟨hspent.le, (found_lost _ round hspent).append (hfound.mono fun _ => hspent),
          fun _ => List.mem_append_left _ ?_⟩
        obtain ⟨field, hfield⟩ := List.exists_mem_of_ne_nil round (hsome round List.mem_cons_self)
        exact List.mem_map.2 ⟨field, hfield, rfl⟩

/-- A batched read in rounds answers for every field. -/
theorem fetchSlots_spec {link : Link} (hopen : link.isOpen = true) {wire : Wire}
    (hovert : wire.Suffers Fault.Overt) (key : Bytes) (interval : Nat) (fields : List Bytes) :
    ∃ slots after, link.fetchSlots key interval fields wire = .ok slots after ∧
      after.store = wire.store ∧ after.threats ⊆ wire.threats ∧ after.waiting ≤ wire.waiting ∧
      Found ((wire.store link.store).table key) fields slots (after.waiting < wire.waiting) ∧
      (after.waiting < wire.waiting → none ∈ slots) := by
  have hsome : ∀ round ∈ chunks interval fields, round ≠ [] := fun _ hmem => (mem_chunks hmem).1
  obtain ⟨slots, after, hok, hstore, hthreats, hless, hfound, hlost⟩ :=
    fetchRounds_spec hopen hovert key hsome
  rw [flatten_chunks] at hfound
  refine ⟨slots.flatten, after, ?_, hstore, hthreats, hless, hfound, hlost⟩
  simp [fetchSlots, bind, EStateM.bind, hok, pure, EStateM.pure]

end Link

end BlockDir
