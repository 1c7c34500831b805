import BlockDir.Proofs.Directory.Reporting
import BlockDir.Proofs.Volume.Loading

/-!
# What a clean report is worth

A check finds blocks by the names and indices that their keys are read as, while a file is loaded by
the keys under which its blocks are written; and it looks for entries under names that stand for
fields of the catalog, which need not be names. So if a check finds nothing amiss, every file that is
listed is there and all its blocks are found, unless one of them has its key written otherwise
(`Volume.Misspelt`) or a field of the catalog is not a name (`Directory.clean_report`).
-/

namespace BlockDir

open Client

namespace Volume

variable {v : Volume} {tables : Bytes → Table}

/-- Whether a block is not under its key, but under another that is read as its name and index. -/
def Misspelt (v : Volume) (name : String) (index : Nat) (tables : Bytes → Table) : Prop :=
  v.blockIn name index tables = none ∧
    ∃ field ∈ tables v.blocksKey, Layout.parseBlockKey field = some (name, index)

/-- A block whose key is found is there, or its key is misspelt. -/
theorem isSome_or_misspelt {name : String} {index : Nat} (h : (name, index) ∈ v.keysIn tables) :
    (v.blockIn name index tables).isSome ∨ v.Misspelt name index tables := by
  obtain ⟨field, hfield, hparse⟩ := List.mem_filterMap.1 h
  cases hblock : v.blockIn name index tables with
  | some stored => exact .inl rfl
  | none => exact .inr ⟨hblock, field, Std.ExtTreeMap.mem_of_mem_keys hfield, hparse⟩

/-- If in the end nothing is missing and no entry is bad, then every file that was looked at has an entry
that can be right, and keys for all blocks that it calls for. -/
theorem clean_examineIn {names : List String} {keys : List (String × Nat)} {report : Report}
    (hmissing : (v.examineIn tables names keys report).missing = [])
    (hbad : (v.examineIn tables names keys report).badLengths = []) :
    report.missing = [] ∧ report.badLengths = [] ∧ ∀ name ∈ names, ∃ count,
      v.countIn name tables = some count ∧ ∀ index < count, (name, index) ∈ keys := by
  induction names generalizing keys report with
  | nil => exact ⟨hmissing, hbad, fun _ hmem => absurd hmem List.not_mem_nil⟩
  | cons name rest ih =>
    rw [examineIn] at hmissing hbad
    cases hcount : v.countIn name tables with
    | none =>
      simp only [hcount] at hmissing hbad
      obtain ⟨-, hnone, -⟩ := ih hmissing hbad
      simp [Report.addBad] at hnone
    | some count =>
      simp only [hcount] at hmissing hbad
      obtain ⟨hfile, hnone, hrest⟩ := ih hmissing hbad
      obtain ⟨hbefore, hlacking⟩ := List.append_eq_nil_iff.1 hfile
      rw [List.map_eq_nil_iff, without_eq_filter, List.filter_eq_nil_iff] at hlacking
      refine ⟨hbefore, hnone, fun other hmem => ?_⟩
      rcases List.mem_cons.1 hmem with rfl | hmem
      · refine ⟨count, hcount, fun index hindex => ?_⟩
        simpa [mem_indicesOf] using hlacking index (List.mem_range.2 hindex)
      · obtain ⟨more, hmore, hkeys⟩ := hrest other hmem
        exact ⟨more, hmore, fun index hindex => List.mem_of_mem_filter (hkeys index hindex)⟩

theorem countIn_eq_some {name : String} {count : Nat} (h : v.countIn name tables = some count) :
    ∃ length, v.lengthIn name tables = .ok length ∧
      v.storedCount name (length.getD 0) = .ok count := by
  unfold countIn at h
  cases hlength : v.lengthIn name tables with
  | error e => simp [hlength] at h
  | ok length =>
    refine ⟨length, rfl, ?_⟩
    simp only [hlength] at h
    cases hcount : v.storedCount name (length.getD 0) with
    | error e => simp [hcount, Except.toOption] at h
    | ok found => simpa [hcount, Except.toOption] using h

end Volume

/-- What an action finds as long as nothing changes. -/
theorem Client.Finds.outcome {α : Type} {keys : List Bytes} {act : ClientM α}
    {f : (Bytes → Table) → Except Error α} (h : Finds keys act f) {client later : Client}
    (hsound : client.Sound) (hsteady : client.Steady keys) (hlater : client.Later later)
    (hstore : later.wire.store = client.wire.store) :
    BlockDir.outcome (act later) = f client.table := by
  obtain ⟨after, hok, -⟩ := h later (hlater.sound hsound) (hlater.steady hsteady)
  rw [hok, outcome_give, hlater.table hstore]

namespace Directory

variable {d : Directory}

/-- If a check finds nothing amiss, then every file that is listed is there, unless its name stands for
a field of the catalog that is not a name, and all its blocks are found, unless one of them is
misspelt. -/
theorem clean_report (hopen : d.closed = false) {client : Client} (hsound : client.Sound)
    (hsteady : client.Steady d.volume.keys) {report : Report} {after : Client}
    (hcheck : d.check client = .ok report after) (hclean : report.isConsistent) :
    ∃ names, outcome (d.list after) = .ok names ∧ ∀ name ∈ names,
      (outcome (d.fileExists name after) = .ok true ∨
        ∃ field ∈ client.table d.volume.catalogKey, Utf8.lossy field = name ∧
          ∀ text, field ≠ Utf8.encode text) ∧
      ∃ length count, outcome (d.fileLength name after) = .ok length ∧
        d.volume.storedCount name length = .ok count ∧
        ((∃ stored, outcome (d.volume.loadStored name length after) = .ok stored ∧
            stored.length = count ∧
            ∀ index < count, stored[index]? = d.volume.blockIn name index client.table) ∨
          ∃ index < count, d.volume.Misspelt name index client.table) := by
  obtain ⟨last, hok, hlater, hstore⟩ := finds_check hopen client hsound hsteady
  rw [hcheck, give_ok] at hok
  cases hok
  simp only [Report.isConsistent, Bool.and_eq_true, List.isEmpty_iff] at hclean
  obtain ⟨⟨⟨hmissing, -⟩, -⟩, hbad⟩ := hclean
  obtain ⟨-, -, hfiles⟩ := Volume.clean_examineIn hmissing hbad
  have hlist : outcome (d.list after) = .ok (((client.table d.volume.catalogKey).keys.map
      Utf8.lossy).mergeSort fun a b => compare a b != .gt) := by
    rw [d.reads_list.finds.outcome hsound hsteady hlater hstore]
    simp [namesIn, ensureOpen, hopen, bind, Except.bind, pure, Except.pure]
  refine ⟨_, hlist, fun name hname => ?_⟩
  rw [List.mem_mergeSort] at hname
  obtain ⟨count, hcount, hkeys⟩ := hfiles name hname
  obtain ⟨length, hlength, hstored⟩ := Volume.countIn_eq_some hcount
  refine ⟨?_, length.getD 0, count, ?_, hstored, ?_⟩
  · have hexists : outcome (d.fileExists name after) =
        .ok (decide (Utf8.encode name ∈ client.table d.volume.catalogKey)) := by
      rw [(d.reads_fileExists name).finds.outcome hsound hsteady hlater hstore]
      simp [ensureOpen, hopen, bind, Except.bind, pure, Except.pure]
    by_cases hentry : Utf8.encode name ∈ client.table d.volume.catalogKey
    · exact .inl (by rw [hexists, decide_eq_true hentry])
    · obtain ⟨field, hfield, hlossy⟩ := List.mem_map.1 hname
      refine .inr ⟨field, Std.ExtTreeMap.mem_of_mem_keys hfield, hlossy, ?_⟩
      rintro text rfl
      rw [Utf8.lossy_encode] at hlossy
      exact hentry (hlossy ▸ Std.ExtTreeMap.mem_of_mem_keys hfield)
  · rw [(d.reads_fileLength name).finds.outcome hsound hsteady hlater hstore]
    simp [ensureOpen, hopen, hlength, bind, Except.bind, pure, Except.pure]
  · rw [(d.volume.reads_loadStored name (length.getD 0)).finds.outcome hsound hsteady hlater hstore]
    by_cases hall : ∀ index < count, (d.volume.blockIn name index client.table).isSome
    · exact .inl (Volume.storedIn_of_isSome hstored hall)
    · simp only [not_forall] at hall
      obtain ⟨index, hindex, hnone⟩ := hall
      exact .inr ⟨index, hindex,
        (Volume.isSome_or_misspelt (hkeys index hindex)).resolve_left hnone⟩

/-- A file whose only block has a sign before its index, beside one that has all its blocks and a
field of the catalog that is no name. -/
theorem clean_report_misspelt :
    let d : Directory := ⟨{ Config.standard with blockSize := 4 }, 0, [], false⟩
    let catalog := d.volume.catalogKey
    let blocks := d.volume.blocksKey
    let store := (((((∅ : Store).put catalog (Utf8.encode "a") (Layout.encodeLength 1)).put
      catalog (Utf8.encode "b") (Layout.encodeLength 5)).put catalog [0xFF] []).put
      blocks (Utf8.encode "@a:+0") [7]).put blocks (Layout.blockKey "b" 0) [7, 7, 7, 7] |>.put
      blocks (Layout.blockKey "b" 1) [7]
    let client : Client := ⟨.single ⟨0, 0, true⟩ false, Wire.new.setStore 0 store, none⟩
    ∃ report after, d.check client = .ok report after ∧ report.isConsistent ∧
      ∃ names, outcome (d.list after) = .ok names ∧ ∀ name ∈ names,
        (outcome (d.fileExists name after) = .ok true ∨
          ∃ field ∈ client.table d.volume.catalogKey, Utf8.lossy field = name ∧
            ∀ text, field ≠ Utf8.encode text) ∧
        ∃ length count, outcome (d.fileLength name after) = .ok length ∧
          d.volume.storedCount name length = .ok count ∧
          ((∃ stored, outcome (d.volume.loadStored name length after) = .ok stored ∧
              stored.length = count ∧
              ∀ index < count, stored[index]? = d.volume.blockIn name index client.table) ∨
            ∃ index < count, d.volume.Misspelt name index client.table) := by
  intro d catalog blocks store client
  have hclean : (outcome (d.check client)).toOption.any Report.isConsistent := by decide +kernel
  cases hcheck : d.check client with
  | error e after =>
    rw [hcheck] at hclean
    cases hclean
  | ok report after =>
    rw [hcheck] at hclean
    have hsound : client.Sound := ⟨fun _ => rfl, rfl⟩
    have hsteady : client.Steady d.volume.keys := ⟨rfl, fun _ _ => rfl⟩
    exact ⟨report, after, rfl, hclean, clean_report rfl hsound hsteady hcheck hclean⟩

/-- A check finds nothing amiss with a file whose only block has a sign before its index: the file is
listed, and it is there, and its length is one, but no block of it is found. -/
theorem clean_report_of_unloadable :
    let d : Directory := ⟨Config.standard, 0, [], false⟩
    let store := ((∅ : Store).put d.volume.catalogKey (Utf8.encode "a")
      (Layout.encodeLength 1)).put d.volume.blocksKey (Utf8.encode "@a:+0") [7]
    let client : Client := ⟨.single ⟨0, 0, true⟩ false, Wire.new.setStore 0 store, none⟩
    (outcome (d.check client)).toOption.map Report.isConsistent = some true ∧
      (outcome (d.list client)).toOption = some ["a"] ∧
      (outcome (d.fileExists "a" client)).toOption = some true ∧
      (outcome (d.fileLength "a" client)).toOption = some 1 ∧
      (match outcome (d.volume.loadStored "a" 1 client) with
        | .ok _ => none
        | .error e => some e.kind) = some .inconsistent := by
  decide +kernel

end Directory

end BlockDir
