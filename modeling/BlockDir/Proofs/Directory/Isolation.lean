import BlockDir.Proofs.Directory.Tracing
import BlockDir.Proofs.Volume.Batches
import BlockDir.Proofs.Volume.Effects

/-!
# Files do not interfere

A mutation is about some names (`Mutation.names`), and whatever it reads and whatever strikes it, it
sends only commands on what belongs to them. So at every moment all other files are as they were; and
as what it plans depends on its own files alone, mutations of different files may change places.
-/

namespace BlockDir

/-- Whether a write touches only fields of some sort. -/
def Write.Stays (allowed : Bytes → Bytes → Prop) (w : Write) : Prop :=
  ∀ key field, w.Touches key field → allowed key field

/-- Through calls that touch only fields of some sort, all other fields keep their values. -/
theorem Replays.getElem?_eq {allowed : Bytes → Bytes → Prop} {events : List Event}
    {before after : Nat → Store} (h : Replays events before after)
    (hwithin : ∀ event ∈ events, event.Within (Write.Stays allowed)) {key field : Bytes}
    (hnot : ¬ allowed key field) (number : Nat) :
    ((after number).table key)[field]? = ((before number).table key)[field]? := by
  refine h.keeps (P := fun store => (store.table key)[field]? = ((before number).table key)[field]?)
    (fun w hstays store hsame => ?_) hwithin number rfl
  have huntouched : ¬ w.Touches key field := fun htouches => hnot (hstays key field htouches)
  exact (store.getElem?_write_of_untouched huntouched).trans hsame

theorem Volume.owns_of_mem_renameBatch {v : Volume} {source dest : String} {stored : List Bytes}
    {length stale : Nat} {w : Write} {key field : Bytes}
    (hmem : w ∈ v.renameBatch source dest stored length stale) (h : w.Touches key field) :
    v.Owns source key field ∨ v.Owns dest key field := by
  rw [renameBatch, List.mem_append] at hmem
  rcases hmem with hmem | hmem
  · exact .inr (owns_of_mem_saveBatch hmem h)
  · exact .inl (owns_of_mem_deleteBatch hmem h)

namespace Mutation

/-- The names that a mutation is about. -/
def names : Mutation → List String
  | closeOutput output => [output.name]
  | deleteFile name => [name]
  | renameFile source dest => [source, dest]
  | save name _ _ => [name]
  | erase name _ => [name]
  | rename source dest _ _ => [source, dest]

/-- What belongs to the names that a mutation is about. -/
def Owns (m : Mutation) (v : Volume) (key field : Bytes) : Prop :=
  ∃ name ∈ m.names, v.Owns name key field

/-- What a mutation may commit touches only what belongs to its names. -/
theorem owns_of_commits {m : Mutation} {v : Volume} {batch : Batch} (h : m.Commits v batch) {w : Write}
    (hmem : w ∈ batch) {key field : Bytes} (htouches : w.Touches key field) : m.Owns v key field := by
  cases h with
  | closeOutput output stored stale =>
    exact ⟨output.name, List.mem_cons_self, Volume.owns_of_mem_saveBatch hmem htouches⟩
  | deleteFile name count | erase name length count =>
    exact ⟨name, List.mem_cons_self, Volume.owns_of_mem_deleteBatch hmem htouches⟩
  | save name blocks stored length stale =>
    exact ⟨name, List.mem_cons_self, Volume.owns_of_mem_saveBatch hmem htouches⟩
  | renameFile source dest stored length stale | rename source dest stored length stale =>
    rcases Volume.owns_of_mem_renameBatch hmem htouches with h | h
    · exact ⟨source, List.mem_cons_self, h⟩
    · exact ⟨dest, List.mem_cons_of_mem _ List.mem_cons_self, h⟩

/-- Whatever strikes a mutation, it makes only writes of what belongs to its names. -/
theorem traces_act (m : Mutation) (d : Directory) :
    Traces Client.wire (Write.Stays (m.Owns d.volume)) (m.act d) :=
  traces_of_commits fun _ hcommits _ hmem _ _ htouches => owns_of_commits hcommits hmem htouches

/-- While a mutation is made, and after it, every file that it is not about is as it was. -/
theorem agree_of_replays {m : Mutation} {v : Volume} (hkeys : v.catalogKey ≠ v.blocksKey)
    {name : String} (hname : name ∉ m.names) {events : List Event}
    (hwithin : ∀ event ∈ events, event.Within (Write.Stays (m.Owns v))) {before after : Nat → Store}
    (h : Replays events before after) (number : Nat) :
    v.Agree name (after number).table (before number).table := by
  intro key field hfield
  refine h.getElem?_eq hwithin ?_ number
  rintro ⟨other, hmem, hother⟩
  rw [hfield.name_unique hkeys hother] at hname
  exact hname hmem

/-- A plan depends on a directory only by its settings and by whether it is closed. -/
theorem plan_congr (m : Mutation) {d other : Directory} (hconfig : d.config = other.config)
    (hclosed : d.closed = other.closed) : m.plan d = m.plan other := by
  obtain ⟨config, buffered, pending, closed⟩ := d
  obtain ⟨_, buffered', pending', _⟩ := other
  obtain rfl : config = _ := hconfig
  obtain rfl : closed = _ := hclosed
  cases m <;> rfl

/-- A plan depends on the tables only by what belongs to the names that it is about. -/
theorem plan_agree {m : Mutation} {d : Directory} {a b : Bytes → Table}
    (h : ∀ name ∈ m.names, d.volume.Agree name a b) : m.plan d a = m.plan d b := by
  have hlength : ∀ name ∈ m.names, d.volume.lengthIn name a = d.volume.lengthIn name b :=
    fun name hmem => (h name hmem).lengthIn
  cases m with
  | closeOutput output =>
    simp only [plan, Directory.storePlan, Volume.savePlan, hlength output.name List.mem_cons_self]
  | deleteFile name =>
    simp only [plan, Directory.deleteFilePlan, Volume.deletePlan, Volume.erasePlan,
      hlength name List.mem_cons_self]
  | renameFile source dest =>
    have hstored : ∀ length, d.volume.storedIn source length a = d.volume.storedIn source length b := by
      intro length
      simp only [Volume.storedIn, (h source List.mem_cons_self).blockIn]
    simp only [plan, Directory.renameFilePlan, Volume.renamePlan, hstored,
      hlength source List.mem_cons_self, hlength dest (by simp [names])]
  | save name blocks length =>
    simp only [plan, Volume.savePlan, hlength name List.mem_cons_self]
  | erase name length => rfl
  | rename source dest stored length =>
    simp only [plan, Volume.renamePlan, hlength dest (by simp [names])]

/-- A plan that is carried out comes to a batch that the mutation may commit. -/
theorem commits_of_plan {m : Mutation} {d : Directory} {tables : Bytes → Table} {batch : Batch}
    (h : m.plan d tables = .ok ((), batch)) : batch = [] ∨ m.Commits d.volume batch := by
  cases m with
  | closeOutput output =>
    obtain ⟨stored, previous, stale, -, -, -, -, rfl⟩ :=
      Volume.savePlan_eq_ok (Directory.storePlan_eq_ok h).2
    exact .inr (.closeOutput output stored stale)
  | deleteFile name =>
    obtain ⟨there, hdelete⟩ := Directory.deleteFilePlan_eq_ok h
    obtain ⟨-, hnone⟩ | ⟨length, -, herase⟩ := Volume.deletePlan_eq_ok hdelete
    · exact .inl hnone
    · obtain ⟨count, -, rfl⟩ := Volume.erasePlan_eq_ok herase
      exact .inr (.deleteFile name count)
  | renameFile source dest =>
    obtain ⟨-, length, stored, -, -, hrename⟩ := Directory.renameFilePlan_eq_ok h
    obtain ⟨-, hnone⟩ | ⟨-, previous, stale, -, -, -, rfl⟩ := Volume.renamePlan_eq_ok hrename
    · exact .inl hnone
    · exact .inr (.renameFile source dest stored length stale)
  | save name blocks length =>
    obtain ⟨stored, previous, stale, -, -, -, -, rfl⟩ := Volume.savePlan_eq_ok h
    exact .inr (.save name blocks stored length stale)
  | erase name length =>
    have herase : d.volume.erasePlan name length tables = .ok ((), batch) := h
    obtain ⟨count, -, rfl⟩ := Volume.erasePlan_eq_ok herase
    exact .inr (.erase name length count)
  | rename source dest stored length =>
    obtain ⟨-, hnone⟩ | ⟨-, previous, stale, -, -, -, rfl⟩ := Volume.renamePlan_eq_ok h
    · exact .inl hnone
    · exact .inr (.rename source dest stored length stale)

/-- A plan writes only what belongs to the names that it is about. -/
theorem owns_of_touches {m : Mutation} {d : Directory} {tables : Bytes → Table} {w : Write}
    (hmem : w ∈ (m.plan d).batch tables) {key field : Bytes} (h : w.Touches key field) :
    m.Owns d.volume key field := by
  rcases Plan.batch_cases (m.plan d) tables with ⟨⟨⟩, hplan⟩ | hnone
  · rcases commits_of_plan hplan with hnone | hcommits
    · rw [hnone] at hmem
      exact absurd hmem List.not_mem_nil
    · exact owns_of_commits hcommits hmem h
  · rw [hnone] at hmem
    exact absurd hmem List.not_mem_nil

/-- Mutations of different names leave each other's files alone. -/
theorem agree_plan {m other : Mutation} {d : Directory}
    (hkeys : d.volume.catalogKey ≠ d.volume.blocksKey) (hnames : ∀ name ∈ m.names, name ∉ other.names)
    (tables : Bytes → Table) :
    ∀ name ∈ m.names, d.volume.Agree name (Batch.onTables ((other.plan d).batch tables) tables) tables := by
  intro name hmem key field hfield
  refine Batch.getElem?_onTables_of_untouched (fun w hw htouches => ?_) tables
  obtain ⟨owner, howner, hother⟩ := owns_of_touches hw htouches
  rw [← hfield.name_unique hkeys hother] at howner
  exact hnames name hmem howner

/-- What a mutation comes to without faults, and the tables that it leaves. -/
theorem run_steady (m : Mutation) {desk : Desk} (hsound : desk.client.Sound)
    (hsteady : desk.client.Steady desk.directory.volume.keys) :
    outcome (m.run desk) = (m.plan desk.directory).answer desk.client.table ∧
      (finalState (m.run desk)).directory = m.account desk.directory ∧
      desk.client.Later (finalState (m.run desk)).client ∧
      (finalState (m.run desk)).client.table =
        Batch.onTables ((m.plan desk.directory).batch desk.client.table) desk.client.table := by
  obtain ⟨after, hok, hlater, hstore⟩ := (m.mutates desk.directory).steady hsound hsteady
  have hrun := m.run_eq desk
  rw [hok] at hrun
  have hfinal : finalState (m.run desk) = ⟨m.account desk.directory, after⟩ := by
    rw [m.finalState_run, hok, finalState_give]
  refine ⟨?_, by rw [hfinal], by rw [hfinal]; exact hlater, ?_⟩
  · rw [hrun]
    cases (m.plan desk.directory).answer desk.client.table <;> rfl
  · rw [hfinal]
    exact Client.table_of_onStores hlater.backend.place hstore

/-- Without faults, a mutation after one of different names comes to what it comes to by itself, and
writes what it writes by itself. -/
theorem run_after {m other : Mutation} {desk : Desk} (hsound : desk.client.Sound)
    (hsteady : desk.client.Steady desk.directory.volume.keys)
    (hkeys : desk.directory.volume.catalogKey ≠ desk.directory.volume.blocksKey)
    (hnames : ∀ name ∈ m.names, name ∉ other.names) :
    outcome (m.run (finalState (other.run desk))) = outcome (m.run desk) ∧
      (finalState (m.run (finalState (other.run desk)))).client.table =
        Batch.onTables ((m.plan desk.directory).batch desk.client.table)
          (Batch.onTables ((other.plan desk.directory).batch desk.client.table)
            desk.client.table) := by
  obtain ⟨-, hdirectory, hlater, htable⟩ := other.run_steady hsound hsteady
  generalize finalState (other.run desk) = middle at hdirectory hlater htable
  obtain ⟨hconfig, hclosed⟩ := other.account_same desk.directory
  rw [← hdirectory] at hconfig hclosed
  have hvolume : middle.directory.volume = desk.directory.volume := congrArg Volume.ofConfig hconfig
  have hsteady' : middle.client.Steady middle.directory.volume.keys := by
    rw [hvolume]
    exact hlater.steady hsteady
  obtain ⟨houtcome, -, -, hfinal⟩ := m.run_steady (hlater.sound hsound) hsteady'
  have hplan : m.plan middle.directory middle.client.table =
      m.plan desk.directory desk.client.table := by
    rw [m.plan_congr hconfig hclosed, htable]
    exact plan_agree (agree_plan hkeys hnames _)
  have hanswer : (m.plan middle.directory).answer middle.client.table =
      (m.plan desk.directory).answer desk.client.table := congrArg (Except.map Prod.fst) hplan
  have hbatch : (m.plan middle.directory).batch middle.client.table =
      (m.plan desk.directory).batch desk.client.table := by
    rw [Plan.batch, Plan.batch, hplan]
  rw [houtcome, hfinal, hanswer, hbatch, htable]
  exact ⟨(m.run_steady hsound hsteady).1.symm, rfl⟩

/-- Files do not interfere. Whatever strikes a mutation, every file that it is not about is as it was
through all that the record tells of the mutation, and after it; and without faults, mutations of
different files may change places. -/
theorem isolated (desk : Desk)
    (hkeys : desk.directory.volume.catalogKey ≠ desk.directory.volume.blocksKey) :
    (∀ (m : Mutation) (name : String), name ∉ m.names → ∃ events,
      (finalState (m.run desk)).client.wire.record = events.reverse ++ desk.client.wire.record ∧
        Replays events desk.stores (finalState (m.run desk)).stores ∧
        ∀ passed stores, passed <+: events → Replays passed desk.stores stores → ∀ number,
          desk.directory.volume.Agree name (stores number).table (desk.stores number).table) ∧
    ∀ first second : Mutation, (∀ name ∈ first.names, name ∉ second.names) →
      desk.client.Sound → desk.client.Steady desk.directory.volume.keys →
      outcome (first.run (finalState (second.run desk))) = outcome (first.run desk) ∧
        outcome (second.run (finalState (first.run desk))) = outcome (second.run desk) ∧
        (finalState (first.run (finalState (second.run desk)))).client.table =
          (finalState (second.run (finalState (first.run desk)))).client.table := by
  constructor
  · intro m name hname
    obtain ⟨events, hrecord, hreplays, hwithin⟩ := m.traces_act desk.directory desk.client
    refine ⟨events, ?_, ?_, fun passed stores hpassed hstores number => ?_⟩
    · rw [m.finalState_run]
      exact hrecord
    · rw [Desk.stores, Desk.stores, m.stores_run]
      exact hreplays
    · exact agree_of_replays hkeys hname (fun event hmem => hwithin event (hpassed.subset hmem))
        hstores number
  · intro first second hnames hsound hsteady
    have hnames' : ∀ name ∈ second.names, name ∉ first.names :=
      fun name hsecond hfirst => hnames name hfirst hsecond
    obtain ⟨hfirst, htables⟩ := run_after hsound hsteady hkeys hnames
    obtain ⟨hsecond, htables'⟩ := run_after hsound hsteady hkeys hnames'
    refine ⟨hfirst, hsecond, ?_⟩
    rw [htables, htables']
    refine Batch.onTables_comm ?_ _
    rintro key field ⟨w, hw, htouches⟩ other hother htouches'
    obtain ⟨name, hname, howns⟩ := owns_of_touches hw htouches
    obtain ⟨owner, howner, howns'⟩ := owns_of_touches hother htouches'
    rw [← howns.name_unique hkeys howns'] at howner
    exact hnames' name hname howner

/-- Over a cluster, files whose names look like block keys of each other: one is moved while its length
is lost and its new blocks are refused, and without faults it is moved before or after the other is
overwritten. -/
theorem isolated_on_cluster :
    let d : Directory := ⟨{ Config.standard with blockSize := 2 }, 0, [], false⟩
    let backend : Backend := .cluster #v[⟨0, 0, true⟩, ⟨1, 1, true⟩] false
    let desk := finalState ((save "a:1" [[1, 2], [3]] 3).run ⟨d, backend, Wire.new, none⟩)
    let wire := (desk.client.wire.arm ⟨.send .execute, Fault.swapped 0 .nil, 2⟩).arm
      ⟨.send .execute, Fault.refused fun _ => [], 4⟩
    let struck : Desk := { desk with client := { desk.client with wire } }
    let move := renameFile "a:1" "@a:1"
    let write := save "a" [[4, 5], [6, 7]] 4
    (∃ events,
      (finalState (move.run struck)).client.wire.record = events.reverse ++ struck.client.wire.record ∧
        Replays events struck.stores (finalState (move.run struck)).stores ∧
        ∀ passed stores, passed <+: events → Replays passed struck.stores stores → ∀ number,
          d.volume.Agree "a" (stores number).table (struck.stores number).table) ∧
      outcome (move.run (finalState (write.run desk))) = outcome (move.run desk) ∧
      outcome (write.run (finalState (move.run desk))) = outcome (write.run desk) ∧
      (finalState (move.run (finalState (write.run desk)))).client.table =
        (finalState (write.run (finalState (move.run desk)))).client.table := by
  intro d backend desk wire struck move write
  have hkeys : d.volume.catalogKey ≠ d.volume.blocksKey := by decide +kernel
  have hclient : Client.Sound ⟨backend, Wire.new, none⟩ := by
    refine ⟨fun _ slot => ?_, rfl⟩
    fin_cases slot <;> rfl
  have hstart : Client.Steady d.volume.keys ⟨backend, Wire.new, none⟩ := ⟨rfl, fun _ _ => rfl⟩
  let start : Desk := ⟨d, backend, Wire.new, none⟩
  have hstart' : start.client.Steady start.directory.volume.keys := hstart
  obtain ⟨-, hdesk, hlater, -⟩ := run_steady (save "a:1" [[1, 2], [3]] 3) hclient hstart'
  have hdesk : desk.directory = d := hdesk
  have hkeys' : desk.directory.volume.catalogKey ≠ desk.directory.volume.blocksKey := by
    rw [hdesk]
    exact hkeys
  have hsteady : desk.client.Steady desk.directory.volume.keys := by
    rw [hdesk]
    exact hlater.steady hstart
  have hstruck := (isolated struck hkeys').1 move "a" (by decide)
  have hsame : struck.directory = d := hdesk
  rw [hsame] at hstruck
  exact ⟨hstruck, (isolated desk hkeys').2 move write (by decide) (hlater.sound hclient) hsteady⟩

end Mutation

end BlockDir
