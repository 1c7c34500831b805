import BlockDir.Directory.Consistency
import BlockDir.Proofs.Volume.Completeness

/-!
# What a check reports

Without faults, a check answers a function of the two tables (`Volume.reportIn`). On tables in which
no file lacks a block it reports no missing one.
-/

namespace BlockDir

open Client

namespace Volume

variable (v : Volume)

/-- The number of blocks of a catalogued file, `none` if its entry cannot be right. -/
def countIn (name : String) (tables : Bytes → Table) : Option Nat :=
  match v.lengthIn name tables with
  | .ok length => (v.storedCount name (length.getD 0)).toOption
  | .error _ => none

/-- What looking at files one by one comes to. -/
def examineIn (tables : Bytes → Table) : List String → List (String × Nat) → Report → Report
  | [], keys, report => report.addOrphans keys
  | name :: rest, keys, report =>
    let others := keys.filter (·.1 ≠ name)
    match v.countIn name tables with
    | none => examineIn tables rest others (report.addBad name)
    | some count => examineIn tables rest others (report.addFile name count (indicesOf name keys))

/-- The block keys in the block table, as names and indices. -/
def keysIn (tables : Bytes → Table) : List (String × Nat) :=
  (tables v.blocksKey).keys.filterMap Layout.parseBlockKey

/-- What a check finds in the tables. -/
def reportIn (tables : Bytes → Table) : Report :=
  v.examineIn tables ((tables v.catalogKey).keys.map Utf8.lossy) (v.keysIn tables) .empty

variable {v} {tables : Bytes → Table}

/-- An entry that cannot be read is reported as an inconsistency, and nothing else is. -/
theorem kind_of_lengthIn {name : String} {e : Error} (h : v.lengthIn name tables = .error e) :
    e.kind = .inconsistent := by
  unfold lengthIn at h
  cases hentry : v.entryIn name tables with
  | none => simp [hentry, pure, Except.pure] at h
  | some stored =>
    by_cases hwidth : stored.length = Layout.lengthBytes
    · simp [hentry, Layout.decodeLength, hwidth, bind, Except.bind, pure, Except.pure] at h
    · simp only [hentry, Layout.decodeLength, hwidth, if_false, bind, Except.bind] at h
      rw [← Except.error.inj h]
      rfl

theorem finds_soundCount (name : String) :
    Finds v.keys (v.soundCount name) fun tables => .ok (v.countIn name tables) := by
  intro client hsound hsteady
  obtain ⟨after, hlength, hlater, hstore⟩ := (v.reads_length name).steady hsound hsteady
  refine ⟨after, ?_, hlater, hstore⟩
  simp only [soundCount, hlength, countIn]
  cases hfound : v.lengthIn name client.table with
  | error e => simp [bind, Except.bind, kind_of_lengthIn hfound]
  | ok length => simp [bind, Except.bind, pure, Except.pure]

theorem finds_examine (names : List String) (keys : List (String × Nat)) (report : Report) :
    Finds v.keys (v.examine names keys report) fun tables =>
      .ok (v.examineIn tables names keys report) := by
  induction names generalizing keys report with
  | nil => exact (reads_pure _).finds
  | cons name rest ih =>
    refine (finds_soundCount name).bind (g := fun found tables => .ok <|
      match found with
      | none => v.examineIn tables rest (keys.filter (·.1 ≠ name)) (report.addBad name)
      | some count => v.examineIn tables rest (keys.filter (·.1 ≠ name))
          (report.addFile name count (indicesOf name keys))) fun found => ?_
    cases found with
    | none => exact ih _ _
    | some count => exact ih _ _

/-- Without faults, a check reports what is in the tables. -/
theorem finds_check : Finds v.keys v.check fun tables => .ok (v.reportIn tables) := by
  have hkeys : Reads v.keys v.storedKeys fun tables => .ok (v.keysIn tables) :=
    (reads_listFields v.blocksKey_mem).bind fun fields =>
      reads_pure (fields.filterMap Layout.parseBlockKey)
  exact hkeys.finds.bind fun keys => v.reads_names.finds.bind fun names =>
    finds_examine names keys .empty

theorem mem_indicesOf {name : String} {index : Nat} {keys : List (String × Nat)} :
    index ∈ indicesOf name keys ↔ (name, index) ∈ keys := by
  rw [indicesOf, mem_ascending]
  simp

/-- A file whose blocks are all there adds none that is missing. -/
theorem missing_addFile {report : Report} {name : String} {count : Nat} {keys : List (String × Nat)}
    (h : ∀ index < count, (name, index) ∈ keys) :
    (report.addFile name count (indicesOf name keys)).missing = report.missing := by
  have hnone : without (List.range count) (indicesOf name keys) = [] := by
    rw [without_eq_filter, List.filter_eq_nil_iff]
    intro index hmem
    simpa [mem_indicesOf] using h index (List.mem_range.1 hmem)
  simp [Report.addFile, hnone]

/-- As long as the keys of the files that are still to be looked at are there, no block is found to be
missing. -/
theorem missing_examineIn {names : List String} {keys : List (String × Nat)} (report : Report)
    (hnodup : names.Nodup)
    (h : ∀ name ∈ names, ∀ count, v.countIn name tables = some count →
      ∀ index < count, (name, index) ∈ keys) :
    (v.examineIn tables names keys report).missing = report.missing := by
  induction names generalizing keys report with
  | nil => rfl
  | cons name rest ih =>
    obtain ⟨hfirst, hrest⟩ := List.nodup_cons.1 hnodup
    have hothers : ∀ other ∈ rest, ∀ count, v.countIn other tables = some count →
        ∀ index < count, (other, index) ∈ keys.filter (·.1 ≠ name) := by
      intro other hmem count hcount index hindex
      have hne : other ≠ name := fun heq => hfirst (heq ▸ hmem)
      have hkey := h other (List.mem_cons_of_mem _ hmem) count hcount index hindex
      exact List.mem_filter.2 ⟨hkey, by simpa using hne⟩
    rw [examineIn]
    cases hcount : v.countIn name tables with
    | none => exact ih _ hrest hothers
    | some count =>
      exact (ih _ hrest hothers).trans
        (missing_addFile (h name List.mem_cons_self count hcount))

theorem mem_keysIn {name : String} {index : Nat} (hindex : index ≤ Decimal.max64)
    (h : (v.blockIn name index tables).isSome) : (name, index) ∈ v.keysIn tables := by
  refine List.mem_filterMap.2 ⟨Layout.blockKey name index, ?_, Layout.parseBlockKey_eq hindex name⟩
  rw [Std.ExtTreeMap.mem_keys, Std.ExtTreeMap.mem_iff_isSome_getElem?]
  exact h

/-- Where no file lacks a block, none is reported to. -/
theorem Complete.missing_reportIn (h : v.Complete tables) : (v.reportIn tables).missing = [] := by
  refine missing_examineIn .empty (nodup_names h.names) ?_
  intro name hmem count hcount index hindex
  obtain ⟨field, hfield, rfl⟩ := List.mem_map.1 hmem
  have hmem' := Std.ExtTreeMap.mem_of_mem_keys hfield
  obtain ⟨name, rfl⟩ := h.names field hmem'
  rw [Utf8.lossy_encode] at hcount ⊢
  obtain ⟨-, hnone⟩ | ⟨length, hlength, hblocks⟩ := h.lengthIn name
  · rw [Std.ExtTreeMap.mem_iff_isSome_getElem?] at hmem'
    rw [entryIn] at hnone
    simp [hnone] at hmem'
  · simp only [countIn, hlength, Option.getD_some] at hcount
    cases hstored : v.storedCount name length with
    | error e => simp [hstored, Except.toOption] at hcount
    | ok found =>
      obtain rfl : found = count := by simpa [hstored, Except.toOption] using hcount
      obtain ⟨-, rfl, hfew⟩ := storedCount_eq_ok_iff.1 hstored
      refine mem_keysIn ?_ (hblocks index hindex)
      simp only [Layout.maxBlocks, Decimal.max64] at hfew ⊢
      omega

end Volume

/-- A directory that is open checks its tables. -/
theorem Directory.finds_check {d : Directory} (hopen : d.closed = false) :
    Finds d.volume.keys d.check fun tables => .ok (d.volume.reportIn tables) := by
  have hcheck : d.check = d.volume.check := by
    simp only [Directory.check, Directory.ensureOpen, hopen]
    rfl
  rw [hcheck]
  exact Volume.finds_check

end BlockDir
