import BlockDir.Proofs.Backend.Mutating

/-!
# Backends answer as one map

Whatever the backend and however its keys are spread over stores, a client without faults is answered
as a single map from keys to fields to values would answer it, to whatever requests in whatever order
(`Backend.answers_as_map`). The map is all that a user of a backend need know of it.
-/

namespace BlockDir

/-- A map from keys to fields to values. -/
abbrev Records := Bytes → Bytes → Option Bytes

namespace Records

/-- The map in which nothing is. -/
def empty : Records := fun _ _ => none

/-- The map after a write. -/
def write (records : Records) (w : Write) : Records := fun key field =>
  if w.key = key then
    match w.change with
    | .set changed value => if changed = field then some value else records key field
    | .delete fields => if field ∈ fields then none else records key field
  else records key field

end Records

/-- What is asked of a backend. Batched reads and commits say how many commands go in one round. -/
inductive Request where
  | has (key field : Bytes)
  | get (key field : Bytes)
  | set (key field value : Bytes)
  | delete (key : Bytes) (fields : List Bytes)
  | list (key : Bytes)
  | fetch (key : Bytes) (fields : List Bytes) (interval : Nat)
  | commit (batch : Batch) (interval : Nat)

/-- What a request is answered. -/
inductive Response where
  | truth (truth : Bool)
  | value (value : Option Bytes)
  | count (count : Nat)
  | fields (fields : List Bytes)
  | fetched (fetched : Fetched)
  | done

namespace Request

/-- Makes the request. -/
def perform : Request → ClientM Response
  | has key field => do return .truth (← Client.hasField key field)
  | get key field => do return .value (← Client.getField key field)
  | set key field value => do return .truth (← Client.setField key field value)
  | delete key fields => do return .count (← Client.deleteFields key fields)
  | list key => do return .fields (← Client.listFields key)
  | fetch key fields interval => do return .fetched (← Client.fetch key fields interval)
  | commit batch interval => do
    Client.commit batch interval
    return .done

/-- The writes that a request makes, in order. -/
def writes : Request → Batch
  | set key field value => Batch.set key field value
  | delete key fields => Batch.delete key fields
  | commit batch _ => batch
  | _ => []

/-- Whether a map answers the request so. The fields of a key come in any order, each once; a batched
read answers for each field in its place, and none has failed. -/
def Answered (records : Records) : Request → Response → Prop
  | has key field, response => response = .truth (records key field).isSome
  | get key field, response => response = .value (records key field)
  | set key field _, response => response = .truth (records key field).isNone
  | delete key fields, response =>
    response = .count (fields.toFinset.filter fun field => (records key field).isSome).card
  | list key, response => ∃ fields, response = .fields fields ∧ fields.Nodup ∧
      ∀ field, field ∈ fields ↔ (records key field).isSome
  | fetch key fields _, response => response = .fetched ⟨fields.map (records key), []⟩
  | commit _ _, response => response = .done

end Request

/-- How a map answers requests that are made in turn, each of which finds what those before it wrote. -/
inductive Records.Answers : Records → List Request → List Response → Prop where
  | nil {records : Records} : Answers records [] []
  | cons {records : Records} {request : Request} {response : Response} {rest : List Request}
      {more : List Response} (first : request.Answered records response)
      (next : Answers (request.writes.foldl write records) rest more) :
      Answers records (request :: rest) (response :: more)

/-- What tables hold. -/
def Records.ofTables (tables : Bytes → Table) : Records := fun key field => (tables key)[field]?

theorem Records.isSome_ofTables (tables : Bytes → Table) (key field : Bytes) :
    (Records.ofTables tables key field).isSome = decide (field ∈ tables key) := by
  rw [Bool.eq_iff_iff, decide_eq_true_iff]
  exact Std.ExtTreeMap.mem_iff_isSome_getElem?.symm

/-- A batch does to tables what its writes, one after another, do to a map. -/
theorem Records.ofTables_onTables (batch : Batch) (tables : Bytes → Table) :
    Records.ofTables (Batch.onTables batch tables) = batch.foldl write (Records.ofTables tables) := by
  induction batch generalizing tables with
  | nil => rfl
  | cons w rest ih =>
    have hfirst : Records.ofTables (Batch.onTables [w] tables) = (ofTables tables).write w := by
      funext key field
      rw [ofTables, Batch.getElem?_onTables_singleton, write]
      by_cases hkey : w.key = key
      · rw [if_pos hkey, if_pos hkey]
        cases w.change with
        | set changed value => exact Table.getElem?_change_set ..
        | delete fields => exact Table.getElem?_change_delete ..
      · rw [if_neg hkey, if_neg hkey]
        rfl
    have happend := Batch.onTables_append [w] rest tables
    rw [List.singleton_append] at happend
    rw [happend, ih, hfirst, List.foldl_cons]

namespace Link

/-- Without faults, a write that is sent by itself is answered by what its store says. -/
theorem execute_write {link : Link} (hopen : link.isOpen = true) {wire : Wire}
    (hnone : wire.threats = []) (w : Write) :
    ∃ after, link.execute (.write w) wire =
        .ok (((wire.store link.store).table w.key).apply w.change).1 after ∧
      link.Wrote [w] wire after 1 := by
  obtain ⟨hsent, hthreats⟩ := send_sent hopen .execute (Batch.commands [w]) wire
  have hcommands : Batch.commands [w] = [.write w] := rfl
  rw [hcommands] at hsent hthreats
  simp only [execute, Functor.map, EStateM.map]
  generalize link.send .execute [.write w] wire = result at hsent hthreats ⊢
  cases hsent with
  | @answered after stores => exact ⟨after, rfl, .all hthreats stores⟩
  | failed threat | cut threat | garbled threat | refused threat =>
    rw [hnone] at threat
    exact absurd threat List.not_mem_nil

theorem setField_steady {link : Link} (hopen : link.isOpen = true) {wire : Wire}
    (hnone : wire.threats = []) (key field value : Bytes) :
    ∃ after, link.setField key field value wire =
        .ok (decide (field ∉ (wire.store link.store).table key)) after ∧
      link.Wrote (Batch.set key field value) wire after 1 := by
  obtain ⟨after, hok, hwrote⟩ := execute_write hopen hnone ⟨key, .set field value⟩
  refine ⟨after, ?_, hwrote⟩
  by_cases hmem : field ∈ (wire.store link.store).table key <;>
    simp [setField, bind, EStateM.bind, hok, Table.apply, Reply.toBool, hmem]

theorem deleteFields_steady {link : Link} (hopen : link.isOpen = true) {wire : Wire}
    (hnone : wire.threats = []) (key : Bytes) (fields : List Bytes) :
    ∃ after, link.deleteFields key fields wire =
        .ok (((wire.store link.store).table key).deleteCounting fields).1 after ∧
      link.Wrote (Batch.delete key fields) wire after (Batch.delete key fields).length := by
  by_cases hempty : fields = []
  · refine ⟨wire, ?_, ⟨Nat.le_refl _, fun _ hmem => hmem, ?_⟩⟩
    · simp [deleteFields, hempty, Table.deleteCounting, pure, EStateM.pure]
    · simp [Batch.delete, hempty]
  · obtain ⟨after, hok, hwrote⟩ := execute_write hopen hnone ⟨key, .delete fields⟩
    have hbatch : Batch.delete key fields = [⟨key, .delete fields⟩] := by
      simp [Batch.delete, hempty]
    refine ⟨after, ?_, by rw [hbatch]; exact hwrote⟩
    simp [deleteFields, hempty, bind, EStateM.bind, hok, Table.apply, Reply.toInteger, pure,
      EStateM.pure]

end Link

namespace Client

variable {α : Type}

/-- A write over the link that serves its key. -/
theorem onLink_steady {key : Bytes} {act : Link → WireM α} {f : Table → α} {batch : Batch}
    (hkeys : ∀ w ∈ batch, w.key = key)
    (hact : ∀ (link : Link) (wire : Wire), link.isOpen = true → wire.threats = [] → ∃ after,
      act link wire = .ok (f ((wire.store link.store).table key)) after ∧
        link.Wrote batch wire after batch.length)
    {client : Client} (hsound : client.Sound) (hsteady : client.Steady [key]) :
    ∃ after, onLink key act client = .ok (f (client.table key)) after ∧ client.Later after ∧
      after.wire.store = Batch.onStores client.backend.storeOf batch client.wire.store := by
  unfold onLink
  obtain ⟨hserves, -⟩ | ⟨-, after, -, -, hstruck⟩ |
    ⟨link, first, after, -, hopen, hlink, hfirst, hlast, hlater, hwindow, hresult⟩ :=
    lend_spec hsound.backend key (fun _ => false) act
  · exact absurd (hsteady.serves key List.mem_cons_self) hserves
  · exact absurd hsteady.threats hstruck.threats_ne_nil
  · have hnone : first.threats = [] := List.subset_nil.1 (hsteady.threats ▸ hfirst.threats)
    obtain ⟨last, hok, hwrote⟩ := hact link first hopen hnone
    rw [hok] at hresult hlast
    refine ⟨after, ?_,
      ⟨hlater, hwindow, fun t ht => hfirst.threats (hwrote.threats (hlast.threats ht))⟩, ?_⟩
    · rw [hresult, hfirst.stores, hlink]
      rfl
    · rw [hlast.stores]
      show last.store = _
      rw [hwrote.stores, List.take_length, hfirst.stores, hlink]
      apply Eq.symm
      apply Batch.onStores_of_single
      intro w hmem
      rw [hkeys w hmem]

theorem setField_spec (key field value : Bytes) {client : Client} (hsound : client.Sound)
    (hsteady : client.Steady [key]) :
    ∃ after, setField key field value client = .ok (decide (field ∉ client.table key)) after ∧
      client.Later after ∧ after.wire.store =
        Batch.onStores client.backend.storeOf (Batch.set key field value) client.wire.store := by
  refine onLink_steady (f := fun table => decide (field ∉ table)) ?_ ?_ hsound hsteady
  · intro w hmem
    rw [Batch.mem_set hmem]
  · intro link wire hopen hnone
    exact Link.setField_steady hopen hnone key field value

theorem deleteFields_spec (key : Bytes) (fields : List Bytes) {client : Client}
    (hsound : client.Sound) (hsteady : client.Steady [key]) :
    ∃ after, deleteFields key fields client =
        .ok ((client.table key).deleteCounting fields).1 after ∧
      client.Later after ∧ after.wire.store =
        Batch.onStores client.backend.storeOf (Batch.delete key fields) client.wire.store := by
  refine onLink_steady (f := fun table => (table.deleteCounting fields).1) ?_ ?_ hsound hsteady
  · intro w hmem
    rw [Batch.mem_delete hmem]
  · intro link wire hopen hnone
    exact Link.deleteFields_steady hopen hnone key fields

/-- A commit of nothing does nothing. -/
theorem commit_nil (interval : Nat) {client : Client} (hsound : client.Sound)
    (hsteady : client.Steady [[]]) :
    ∃ after, commit [] interval client = .ok () after ∧ client.Later after ∧
      after.wire.store = client.wire.store := by
  have hidle : ∃ after, onLink [] (·.transact []) client = .ok () after ∧ client.Later after ∧
      after.wire.store = Batch.onStores client.backend.storeOf [] client.wire.store := by
    refine onLink_steady (f := fun _ => ()) ?_ ?_ hsound hsteady
    · intro w hmem
      exact absurd hmem List.not_mem_nil
    · intro link wire _ _
      exact ⟨wire, rfl, Nat.le_refl _, fun _ hmem => hmem, by simp⟩
  obtain ⟨backend, wire, window⟩ := client
  cases backend with
  | single link closed | pooled pool => exact hidle
  | sharded shards | cluster nodes closed => exact ⟨_, rfl, .refl hsound, rfl⟩

/-- A client in whose way nothing is. -/
structure Ready (client : Client) : Prop where
  sound : client.Sound
  threats : client.wire.threats = []
  serves : ∀ key, client.backend.Serves key

theorem Ready.steady {client : Client} (h : client.Ready) (keys : List Bytes) :
    client.Steady keys :=
  ⟨h.threats, fun key _ => h.serves key⟩

theorem Later.ready {before after : Client} (h : before.Later after) (hready : before.Ready) :
    after.Ready where
  sound := h.sound hready.sound
  threats := (h.steady (hready.steady [])).threats
  serves key := (h.backend.serves key).2 (hready.serves key)

theorem commit_steady (batch : Batch) (interval : Nat) {client : Client} (hready : client.Ready) :
    ∃ after, commit batch interval client = .ok () after ∧ client.Later after ∧
      after.wire.store = Batch.onStores client.backend.storeOf batch client.wire.store := by
  by_cases hempty : batch = []
  · subst hempty
    exact commit_nil interval hready.sound (hready.steady [[]])
  · have hcommit := mutates_commit hempty (fun w hmem => List.mem_map_of_mem hmem) interval
    exact hcommit.steady hready.sound (hready.steady (batch.map (·.key)))

theorem answer_of_ok {act : ClientM α} {client after : Client} {a : α} (h : act client = .ok a after)
    (answer : α → Response) :
    (do return answer (← act) : ClientM Response) client = .ok (answer a) after := by
  simp [bind, EStateM.bind, h, pure, EStateM.pure]

/-- A batched read without faults finds every field, in order. -/
theorem fetch_steady (key : Bytes) (fields : List Bytes) (interval : Nat) {client : Client}
    (hsound : client.Sound) (hsteady : client.Steady [key]) :
    ∃ after, fetch key fields interval client =
        .ok ⟨fields.map (Records.ofTables client.table key), []⟩ after ∧
      client.Later after ∧ after.wire.store = client.wire.store := by
  have hkey : key ∈ [key] := List.mem_cons_self
  have htrue := Wire.suffers_of_threats_nil hsteady.threats Fault.Truthful
  obtain ⟨slots, after, hok, hlater, hstore, hfound⟩ :=
    fetch_spec hkey fields interval hsound htrue
  have hslots : slots = (fields.map (Records.ofTables client.table key)).map some := by
    rw [List.map_map]
    exact hfound.whole fun hno => hno hsteady
  refine ⟨after, ?_, hlater, hstore⟩
  rw [hok, hslots, Fetched.ofSlots_some]

/-- A request is answered as by a map that holds what the tables hold, and writes what it is to. -/
theorem perform_spec (request : Request) {client : Client} (hready : client.Ready) :
    ∃ response after, request.perform client = .ok response after ∧
      request.Answered (Records.ofTables client.table) response ∧ client.Later after ∧
      after.wire.store =
        Batch.onStores client.backend.storeOf request.writes client.wire.store := by
  have hsound := hready.sound
  cases request with
  | has key field =>
    obtain ⟨after, hok, hrest⟩ :=
      (reads_hasField List.mem_cons_self field).steady hsound (hready.steady [key])
    refine ⟨_, after, answer_of_ok hok Response.truth, ?_, hrest⟩
    rw [Request.Answered, Records.isSome_ofTables]
  | get key field =>
    obtain ⟨after, hok, hrest⟩ :=
      (reads_getField List.mem_cons_self field).steady hsound (hready.steady [key])
    exact ⟨_, after, answer_of_ok hok Response.value, rfl, hrest⟩
  | set key field value =>
    obtain ⟨after, hok, hrest⟩ := setField_spec key field value hsound (hready.steady [key])
    refine ⟨_, after, answer_of_ok hok Response.truth, ?_, hrest⟩
    rw [Request.Answered, ← Option.not_isSome, Records.isSome_ofTables, decide_not]
  | delete key fields =>
    obtain ⟨after, hok, hrest⟩ := deleteFields_spec key fields hsound (hready.steady [key])
    refine ⟨_, after, answer_of_ok hok Response.count, ?_, hrest⟩
    rw [Table.deleteCounting_fst]
    rfl
  | list key =>
    obtain ⟨after, hok, hrest⟩ :=
      (reads_listFields List.mem_cons_self).steady hsound (hready.steady [key])
    refine ⟨_, after, answer_of_ok hok Response.fields, ⟨_, rfl, Std.ExtTreeMap.nodup_keys, ?_⟩, hrest⟩
    intro field
    rw [Std.ExtTreeMap.mem_keys, Records.isSome_ofTables, decide_eq_true_iff]
  | fetch key fields interval =>
    obtain ⟨after, hok, hrest⟩ := fetch_steady key fields interval hsound (hready.steady [key])
    exact ⟨_, after, answer_of_ok hok Response.fetched, rfl, hrest⟩
  | commit batch interval =>
    obtain ⟨after, hok, hrest⟩ := commit_steady batch interval hready
    exact ⟨_, after, answer_of_ok hok fun _ => .done, rfl, hrest⟩

/-- Requests that are made in turn are answered as by a map. -/
theorem answers_requests (requests : List Request) {client : Client} (hready : client.Ready) :
    ∃ responses after, requests.mapM Request.perform client = .ok responses after ∧
      (Records.ofTables client.table).Answers requests responses := by
  induction requests generalizing client with
  | nil => exact ⟨[], client, rfl, .nil⟩
  | cons request rest ih =>
    obtain ⟨response, middle, hfirst, hanswered, hlater, hstore⟩ := perform_spec request hready
    obtain ⟨responses, after, hrest, hanswers⟩ := ih (hlater.ready hready)
    refine ⟨response :: responses, after, ?_, .cons hanswered ?_⟩
    · rw [List.mapM_cons]
      simp [bind, EStateM.bind, hfirst, hrest, pure, EStateM.pure]
    · rw [← Records.ofTables_onTables, ← table_of_onStores hlater.backend.place hstore]
      exact hanswers

end Client

/-- Without faults, every backend answers requests as one map does that holds nothing at first: a
backend of any kind, over any stores that are empty, of which one may serve several keys or all. -/
theorem Backend.answers_as_map {backend : Backend} (hopened : backend.Opened) {wire : Wire}
    (hnone : wire.faults = []) (hempty : ∀ key, wire.store (backend.storeOf key) = ∅)
    (requests : List Request) :
    ∃ responses after,
      requests.mapM Request.perform ⟨backend, wire, none⟩ = .ok responses after ∧
        Records.empty.Answers requests responses := by
  have hready : Client.Ready ⟨backend, wire, none⟩ :=
    ⟨⟨hopened.ready.1, rfl⟩, Wire.threats_eq_nil_iff.2 hnone, hopened.ready.2⟩
  have hholds : Records.ofTables (Client.table ⟨backend, wire, none⟩) = Records.empty := by
    funext key field
    show ((wire.store (backend.storeOf key)).table key)[field]? = none
    rw [hempty, Store.table_empty, Std.ExtTreeMap.getElem?_empty]
  rw [← hholds]
  exact Client.answers_requests requests hready

/-- Requests to three shards of which two share a store, among them a batch that goes from shard to
shard and sets what it has deleted. -/
theorem Backend.answers_as_map_over_shared_store :
    let requests : List Request := [
      .commit [⟨[1], .set [7] [70]⟩, ⟨[3], .set [7] [71]⟩, ⟨[4], .set [7] [72]⟩,
        ⟨[1], .delete [[7], [8]]⟩, ⟨[1], .set [8] [80]⟩] 0,
      .set [1] [8] [81], .delete [1] [[8], [9], [8]], .fetch [3] [[9], [7]] 1, .list [4]]
    ∃ backend, openSharded ⟨1, 0⟩ [4, 5, 4] = .ok backend ∧ ∃ responses after,
      requests.mapM Request.perform ⟨backend, Wire.new, none⟩ = .ok responses after ∧
        Records.empty.Answers requests responses := by
  intro requests
  have hopens : (openSharded ⟨1, 0⟩ [4, 5, 4]).toOption.isSome := by decide +kernel
  obtain ⟨backend, hopened⟩ : ∃ backend, openSharded ⟨1, 0⟩ [4, 5, 4] = .ok backend := by
    cases hopen : openSharded ⟨1, 0⟩ [4, 5, 4] with
    | ok backend => exact ⟨backend, rfl⟩
    | error e =>
      rw [hopen] at hopens
      cases hopens
  refine ⟨backend, hopened, ?_⟩
  refine answers_as_map (.sharded hopened) rfl ?_ requests
  intro key
  show Std.ExtTreeMap.getD ∅ _ _ = _
  simp

end BlockDir
