import BlockDir.Proofs.Directory.Checking

/-!
# A check reports exactly the damage

On tables whose entries stand under names and whose block keys are written as they are read, the
report of a check tells what is wrong with them: all of it, each thing once, and nothing else
(`Report.Exact`). Other fields of the block table are passed over.
-/

namespace BlockDir

open Client

/-- The blocks of some files, file by file. -/
def blocksOf (names : List String) (indices : String → List Nat) : List (String × Nat) :=
  names.flatMap fun name => (indices name).map (name, ·)

theorem mem_blocksOf {names : List String} {indices : String → List Nat} {name : String}
    {index : Nat} : (name, index) ∈ blocksOf names indices ↔ name ∈ names ∧ index ∈ indices name := by
  simp only [blocksOf, List.mem_flatMap, List.mem_map, Prod.mk.injEq]
  constructor
  · rintro ⟨other, hmem, i, hi, rfl, rfl⟩
    exact ⟨hmem, hi⟩
  · rintro ⟨hmem, hindex⟩
    exact ⟨name, hmem, index, hindex, rfl, rfl⟩

theorem nodup_blocksOf {names : List String} {indices : String → List Nat} (hnames : names.Nodup)
    (hindices : ∀ name, (indices name).Nodup) : (blocksOf names indices).Nodup := by
  refine List.nodup_flatMap.2 ⟨fun name _ => ?_, hnames.imp fun {a b} hne => ?_⟩
  · exact (hindices name).map fun i j heq => (Prod.mk.inj heq).2
  · rintro ⟨name, index⟩ ha hb
    obtain ⟨i, -, hi⟩ := List.mem_map.1 ha
    obtain ⟨j, -, hj⟩ := List.mem_map.1 hb
    exact hne ((Prod.mk.inj hi).1.trans (Prod.mk.inj hj).1.symm)

theorem blocksOf_congr {names : List String} {f g : String → List Nat}
    (h : ∀ name ∈ names, f name = g name) : blocksOf names f = blocksOf names g :=
  List.flatMap_congr fun name hmem => by rw [h name hmem]

theorem nodup_ascending {α : Type} [Ord α] [Std.TransOrd α] [Std.LawfulEqOrd α] (xs : List α) :
    (ascending xs).Nodup := by
  refine (pairwise_ascending xs).imp fun {a b} hlt heq => ?_
  rw [heq, Std.ReflOrd.compare_self] at hlt
  cases hlt

theorem orphans_addOrphans (report : Report) (keys : List (String × Nat)) :
    (report.addOrphans keys).orphans =
      blocksOf (ascending (keys.map (·.1))) fun name => indicesOf name keys := by
  simp only [Report.addOrphans, groupByName, List.flatMap_map, blocksOf]

/-- All keys that are left in the end are reported as orphans, each once. -/
theorem mem_orphans_addOrphans (report : Report) {keys : List (String × Nat)} {name : String}
    {index : Nat} : (name, index) ∈ (report.addOrphans keys).orphans ↔ (name, index) ∈ keys := by
  rw [orphans_addOrphans, mem_blocksOf, mem_ascending, Volume.mem_indicesOf, List.mem_map]
  exact ⟨fun h => h.2, fun h => ⟨⟨_, h, rfl⟩, h⟩⟩

theorem nodup_orphans_addOrphans (report : Report) (keys : List (String × Nat)) :
    (report.addOrphans keys).orphans.Nodup := by
  rw [orphans_addOrphans]
  exact nodup_blocksOf (nodup_ascending _) fun _ => nodup_ascending _

/-- The blocks of one file are found whether or not those of another were taken out. -/
theorem indicesOf_filter_ne {name other : String} (hne : name ≠ other) (keys : List (String × Nat)) :
    indicesOf name (keys.filter (·.1 ≠ other)) = indicesOf name keys := by
  have hkeys : (keys.filter (·.1 ≠ other)).filter (·.1 = name) = keys.filter (·.1 = name) := by
    rw [List.filter_filter]
    refine List.filter_congr fun key _ => ?_
    by_cases hkey : key.1 = name <;> simp [hkey, hne]
  rw [indicesOf, indicesOf, hkeys]

namespace Volume

variable {v : Volume} {tables : Bytes → Table}

/-- Whether a file is in the catalog with an entry that cannot be right: it is not eight bytes wide, or
it calls for more blocks than a file may have. -/
def Misentered (v : Volume) (name : String) (tables : Bytes → Table) : Prop :=
  ∃ stored, v.entryIn name tables = some stored ∧ (stored.length ≠ 8 ∨
    Layout.maxBlocks < Layout.blockCount stored.toNat v.blockSize)

/-- Whether a file is in the catalog with an entry that calls for `count` blocks. -/
def CallsFor (v : Volume) (name : String) (count : Nat) (tables : Bytes → Table) : Prop :=
  ∃ stored, v.entryIn name tables = some stored ∧ stored.length = 8 ∧
    count = Layout.blockCount stored.toNat v.blockSize ∧ count ≤ Layout.maxBlocks

/-- Whether a block is in the block table, at an index of 64 bits. -/
def Present (v : Volume) (name : String) (index : Nat) (tables : Bytes → Table) : Prop :=
  index ≤ Decimal.max64 ∧ (v.blockIn name index tables).isSome

end Volume

/-- Whether a report tells what is wrong with the tables, all of it and each thing once. -/
structure Report.Exact (v : Volume) (tables : Bytes → Table) (report : Report) : Prop where
  files : report.files = (tables v.catalogKey).size
  badLengths : ∀ name, name ∈ report.badLengths ↔ v.Misentered name tables
  missing : ∀ name index, (name, index) ∈ report.missing ↔
    ∃ count, v.CallsFor name count tables ∧ index < count ∧ v.blockIn name index tables = none
  extra : ∀ name index, (name, index) ∈ report.extra ↔
    ∃ count, v.CallsFor name count tables ∧ count ≤ index ∧ v.Present name index tables
  orphans : ∀ name index, (name, index) ∈ report.orphans ↔
    v.entryIn name tables = none ∧ v.Present name index tables
  once : report.badLengths.Nodup ∧ report.missing.Nodup ∧ report.extra.Nodup ∧ report.orphans.Nodup
  apart : ∀ name ∈ report.badLengths, ∀ index,
    (name, index) ∉ report.missing ∧ (name, index) ∉ report.extra ∧ (name, index) ∉ report.orphans

namespace Volume

variable {v : Volume} {tables : Bytes → Table}

/-- The indices of a file that are called for and not among the keys. -/
def lacking (v : Volume) (tables : Bytes → Table) (keys : List (String × Nat)) (name : String) :
    List Nat :=
  match v.countIn name tables with
  | some count => without (List.range count) (indicesOf name keys)
  | none => []

/-- The indices of a file that are among the keys and not called for. -/
def exceeding (v : Volume) (tables : Bytes → Table) (keys : List (String × Nat)) (name : String) :
    List Nat :=
  match v.countIn name tables with
  | some count => (indicesOf name keys).filter (count ≤ ·)
  | none => []

theorem mem_lacking {keys : List (String × Nat)} {name : String} {index : Nat} :
    index ∈ v.lacking tables keys name ↔
      ∃ count, v.countIn name tables = some count ∧ index < count ∧ (name, index) ∉ keys := by
  unfold lacking
  cases v.countIn name tables with
  | none => simp
  | some count => simp [without_eq_filter, mem_indicesOf]

theorem mem_exceeding {keys : List (String × Nat)} {name : String} {index : Nat} :
    index ∈ v.exceeding tables keys name ↔
      ∃ count, v.countIn name tables = some count ∧ count ≤ index ∧ (name, index) ∈ keys := by
  unfold exceeding
  cases v.countIn name tables with
  | none => simp
  | some count => simp [mem_indicesOf, and_comm]

theorem nodup_lacking (keys : List (String × Nat)) (name : String) :
    (v.lacking tables keys name).Nodup := by
  unfold lacking
  cases v.countIn name tables with
  | none => exact List.nodup_nil
  | some count =>
    dsimp only
    rw [without_eq_filter]
    exact List.nodup_range.filter _

theorem nodup_exceeding (keys : List (String × Nat)) (name : String) :
    (v.exceeding tables keys name).Nodup := by
  unfold exceeding
  cases v.countIn name tables with
  | none => exact List.nodup_nil
  | some count => exact (nodup_ascending _).filter _

/-- Where no name is listed twice, what a check reports of one file does not depend on the files
before it. -/
theorem examineIn_eq {names : List String} (hnodup : names.Nodup) (keys : List (String × Nat))
    (report : Report) :
    v.examineIn tables names keys report =
      { files := report.files + names.length
        missing := report.missing ++ blocksOf names (v.lacking tables keys)
        extra := report.extra ++ blocksOf names (v.exceeding tables keys)
        orphans := (report.addOrphans (keys.filter (·.1 ∉ names))).orphans
        badLengths := report.badLengths ++
          names.filter fun name => (v.countIn name tables).isNone } := by
  induction names generalizing keys report with
  | nil => simp [examineIn, blocksOf, Report.addOrphans]
  | cons name rest ih =>
    obtain ⟨hfirst, hrest⟩ := List.nodup_cons.1 hnodup
    have hsame : ∀ other ∈ rest, indicesOf other (keys.filter (·.1 ≠ name)) = indicesOf other keys :=
      fun other hmem => indicesOf_filter_ne (ne_of_mem_of_not_mem hmem hfirst) keys
    have hlacking : blocksOf rest (v.lacking tables (keys.filter (·.1 ≠ name))) =
        blocksOf rest (v.lacking tables keys) :=
      blocksOf_congr fun other hmem => by rw [lacking, lacking, hsame other hmem]
    have hexceeding : blocksOf rest (v.exceeding tables (keys.filter (·.1 ≠ name))) =
        blocksOf rest (v.exceeding tables keys) :=
      blocksOf_congr fun other hmem => by rw [exceeding, exceeding, hsame other hmem]
    have hleft : (keys.filter (·.1 ≠ name)).filter (·.1 ∉ rest) =
        keys.filter (·.1 ∉ name :: rest) := by
      rw [List.filter_filter]
      exact List.filter_congr fun key _ => by simp [Bool.and_comm]
    have hsplit : ∀ f : String → List Nat,
        blocksOf (name :: rest) f = (f name).map (name, ·) ++ blocksOf rest f := fun _ => rfl
    rw [examineIn, hsplit, hsplit, lacking, exceeding]
    cases hcount : v.countIn name tables with
    | none =>
      dsimp only
      rw [ih hrest, hlacking, hexceeding, hleft]
      simp [Report.addBad, Report.addOrphans, hcount, Nat.add_assoc, Nat.add_comm 1]
    | some count =>
      dsimp only
      rw [ih hrest, hlacking, hexceeding, hleft]
      simp [Report.addFile, Report.addOrphans, hcount, Nat.add_assoc, Nat.add_comm 1]

theorem countIn_eq_some_iff (hsize : 0 < v.blockSize) {name : String} {stored : Bytes}
    (hentry : v.entryIn name tables = some stored) {count : Nat} :
    v.countIn name tables = some count ↔ stored.length = 8 ∧
      count = Layout.blockCount stored.toNat v.blockSize ∧ count ≤ Layout.maxBlocks := by
  by_cases hwidth : stored.length = 8
  · have hlength : v.lengthIn name tables = .ok (some stored.toNat) :=
      lengthIn_eq_some_iff.2 ⟨stored, hentry, hwidth, rfl⟩
    have hcount : v.countIn name tables = some count ↔ v.storedCount name stored.toNat = .ok count := by
      simp only [countIn, hlength, Option.getD_some]
      cases v.storedCount name stored.toNat <;> simp [Except.toOption]
    rw [hcount, storedCount_eq_ok_iff]
    exact ⟨fun h => ⟨hwidth, h.2⟩, fun h => ⟨hsize, h.2⟩⟩
  · have hlength : v.lengthIn name tables = .error (.damaged (.lengthWidth name stored.length 8)) := by
      simp only [lengthIn, hentry, Layout.decodeLength, Layout.lengthBytes, hwidth, if_false]
      rfl
    simp [countIn, hlength, hwidth]

theorem callsFor_iff (hsize : 0 < v.blockSize) {name : String} {count : Nat} :
    v.CallsFor name count tables ↔
      (v.entryIn name tables).isSome ∧ v.countIn name tables = some count := by
  cases hentry : v.entryIn name tables with
  | none => simp [CallsFor, hentry]
  | some stored => simp [CallsFor, hentry, countIn_eq_some_iff hsize hentry]

theorem misentered_iff (hsize : 0 < v.blockSize) {name : String} :
    v.Misentered name tables ↔
      (v.entryIn name tables).isSome ∧ v.countIn name tables = none := by
  cases hentry : v.entryIn name tables with
  | none => simp [Misentered, hentry]
  | some stored =>
    have hnone : v.countIn name tables = none ↔ ¬ (stored.length = 8 ∧
        Layout.blockCount stored.toNat v.blockSize ≤ Layout.maxBlocks) := by
      rw [Option.eq_none_iff_forall_ne_some]
      simp [countIn_eq_some_iff hsize hentry]
    simp [Misentered, hentry, hnone, imp_iff_not_or]

/-- The names under which a check looks for entries. -/
def listedIn (v : Volume) (tables : Bytes → Table) : List String :=
  (tables v.catalogKey).keys.map Utf8.lossy

/-- A block that is called for has an index of 64 bits, so it is there if it is in the table. -/
theorem CallsFor.present_iff {name : String} {count index : Nat} (h : v.CallsFor name count tables)
    (hindex : index < count) :
    v.Present name index tables ↔ (v.blockIn name index tables).isSome := by
  obtain ⟨stored, -, -, -, hfew⟩ := h
  have hsmall : index ≤ Decimal.max64 := by
    simp only [Layout.maxBlocks, Decimal.max64] at hfew ⊢
    omega
  exact and_iff_right hsmall

section

variable (hsize : 0 < v.blockSize)
  (hnames : ∀ field ∈ tables v.catalogKey, ∃ name, field = Utf8.encode name)
  (hkeys : ∀ field ∈ tables v.blocksKey, ∀ name index,
    Layout.parseBlockKey field = some (name, index) → field = Layout.blockKey name index)

include hnames in
/-- Where all fields of the catalog are names, those are listed that have an entry. -/
theorem mem_listedIn {name : String} :
    name ∈ v.listedIn tables ↔ (v.entryIn name tables).isSome := by
  rw [entryIn, ← Std.ExtTreeMap.mem_iff_isSome_getElem?, listedIn, List.mem_map]
  constructor
  · rintro ⟨field, hfield, rfl⟩
    have hmem := Std.ExtTreeMap.mem_of_mem_keys hfield
    obtain ⟨name, rfl⟩ := hnames field hmem
    rwa [Utf8.lossy_encode]
  · intro hmem
    exact ⟨Utf8.encode name, Std.ExtTreeMap.mem_keys.2 hmem, Utf8.lossy_encode name⟩

include hkeys in
/-- Where block keys are written as they are read, those blocks are found that are present. -/
theorem mem_keysIn_iff {name : String} {index : Nat} :
    (name, index) ∈ v.keysIn tables ↔ v.Present name index tables := by
  constructor
  · intro hmem
    obtain ⟨field, hfield, hparse⟩ := List.mem_filterMap.1 hmem
    have hstored := Std.ExtTreeMap.mem_of_mem_keys hfield
    obtain rfl := hkeys field hstored name index hparse
    exact ⟨Layout.index_le_of_parseBlockKey hparse,
      Std.ExtTreeMap.mem_iff_isSome_getElem?.1 hstored⟩
  · rintro ⟨hindex, hstored⟩
    exact mem_keysIn hindex hstored

include hsize hnames in
theorem mem_badLengths_iff {name : String} :
    name ∈ (v.listedIn tables).filter (fun name => (v.countIn name tables).isNone) ↔
      v.Misentered name tables := by
  rw [List.mem_filter, mem_listedIn hnames, Option.isNone_iff_eq_none, misentered_iff hsize]

include hsize hnames hkeys in
theorem mem_missing_iff {name : String} {index : Nat} :
    (name, index) ∈ blocksOf (v.listedIn tables) (v.lacking tables (v.keysIn tables)) ↔
      ∃ count, v.CallsFor name count tables ∧ index < count ∧ v.blockIn name index tables = none := by
  rw [mem_blocksOf, mem_lacking, mem_listedIn hnames, mem_keysIn_iff hkeys, ← exists_and_left]
  refine exists_congr fun count => ?_
  rw [← and_assoc, ← callsFor_iff hsize]
  refine and_congr_right fun hcalls => and_congr_right fun hindex => ?_
  rw [hcalls.present_iff hindex, Option.not_isSome_iff_eq_none]

include hsize hnames hkeys in
theorem mem_extra_iff {name : String} {index : Nat} :
    (name, index) ∈ blocksOf (v.listedIn tables) (v.exceeding tables (v.keysIn tables)) ↔
      ∃ count, v.CallsFor name count tables ∧ count ≤ index ∧ v.Present name index tables := by
  rw [mem_blocksOf, mem_exceeding, mem_listedIn hnames, mem_keysIn_iff hkeys, ← exists_and_left]
  refine exists_congr fun count => ?_
  rw [← and_assoc, ← callsFor_iff hsize]

include hnames hkeys in
theorem mem_orphans_iff (report : Report) {name : String} {index : Nat} :
    (name, index) ∈ (report.addOrphans
        ((v.keysIn tables).filter (·.1 ∉ v.listedIn tables))).orphans ↔
      v.entryIn name tables = none ∧ v.Present name index tables := by
  rw [mem_orphans_addOrphans, List.mem_filter, decide_eq_true_iff, mem_listedIn hnames,
    mem_keysIn_iff hkeys, Option.not_isSome_iff_eq_none, and_comm]

include hsize hnames hkeys in
theorem reportIn_exact : (v.reportIn tables).Exact v tables := by
  have hnodup : (v.listedIn tables).Nodup := nodup_names hnames
  have hreport : v.reportIn tables =
      v.examineIn tables (v.listedIn tables) (v.keysIn tables) .empty := rfl
  rw [hreport, examineIn_eq hnodup]
  refine ⟨?_, fun _ => mem_badLengths_iff hsize hnames, fun _ _ => mem_missing_iff hsize hnames hkeys,
    fun _ _ => mem_extra_iff hsize hnames hkeys, fun _ _ => mem_orphans_iff hnames hkeys .empty,
    ⟨hnodup.filter _, nodup_blocksOf hnodup (nodup_lacking _), nodup_blocksOf hnodup
      (nodup_exceeding _), nodup_orphans_addOrphans .empty _⟩, ?_⟩
  · show 0 + (v.listedIn tables).length = _
    rw [Nat.zero_add, listedIn, List.length_map, Std.ExtTreeMap.length_keys]
  · intro name hmem index
    obtain ⟨hentry, hnone⟩ := (misentered_iff hsize).1 ((mem_badLengths_iff hsize hnames).1 hmem)
    have hcalls : ∀ count, ¬ v.CallsFor name count tables := by
      intro count hcalls
      have hcount := ((callsFor_iff hsize).1 hcalls).2
      rw [hnone] at hcount
      cases hcount
    refine ⟨fun hmissing => ?_, fun hextra => ?_, fun horphan => ?_⟩
    · obtain ⟨count, hcount, -⟩ := (mem_missing_iff hsize hnames hkeys).1 hmissing
      exact hcalls count hcount
    · obtain ⟨count, hcount, -⟩ := (mem_extra_iff hsize hnames hkeys).1 hextra
      exact hcalls count hcount
    · rw [((mem_orphans_iff hnames hkeys .empty).1 horphan).1] at hentry
      cases hentry

end

end Volume

/-- Without faults, a check changes nothing and reports exactly what is wrong with the tables, as long as
the fields of the catalog are names and block keys are written as they are read. Other fields of the
block table may be anything. -/
theorem Directory.check_exact {d : Directory} (hopen : d.closed = false)
    (hsize : 0 < d.volume.blockSize) {client : Client} (hsound : client.Sound)
    (hsteady : client.Steady d.volume.keys)
    (hnames : ∀ field ∈ client.table d.volume.catalogKey, ∃ name, field = Utf8.encode name)
    (hkeys : ∀ field ∈ client.table d.volume.blocksKey, ∀ name index,
      Layout.parseBlockKey field = some (name, index) → field = Layout.blockKey name index) :
    ∃ report after, d.check client = .ok report after ∧ after.wire.store = client.wire.store ∧
      report.Exact d.volume client.table := by
  obtain ⟨after, hok, -, hstore⟩ := Directory.finds_check hopen client hsound hsteady
  exact ⟨_, after, hok, hstore, Volume.reportIn_exact hsize hnames hkeys⟩

/-- A file that lacks blocks and has one too many, one whose entry is too narrow, one that calls for
too many blocks, a block of no file, and a field that is no block key. -/
theorem Directory.check_exact_damaged :
    let d : Directory := ⟨{ Config.standard with blockSize := 4 }, 0, [], false⟩
    let catalog := d.volume.catalogKey
    let blocks := d.volume.blocksKey
    let store := ((((((((∅ : Store).put catalog (Utf8.encode "a") (Layout.encodeLength 10)).put
      catalog (Utf8.encode "b") [1, 2, 3]).put
      catalog (Utf8.encode "a:1") (Layout.encodeLength 8589934589)).put
      blocks (Layout.blockKey "a" 0) [7]).put blocks (Layout.blockKey "a" 7) [7]).put
      blocks (Layout.blockKey "b" 0) [7]).put blocks (Layout.blockKey "gone" 0) [7]).put
      blocks (Utf8.encode "@a:x") [7]
    let client : Client := ⟨.single ⟨0, 0, true⟩ false, Wire.new.setStore 0 store, none⟩
    ∃ report after, d.check client = .ok report after ∧ after.wire.store = client.wire.store ∧
      report.Exact d.volume client.table := by
  intro d catalog blocks store client
  have hcatalog : ∀ field ∈ (client.table catalog).keys,
      field ∈ ["a", "a:1", "b"].map Utf8.encode := by decide +kernel
  have hblocks : ∀ field ∈ (client.table blocks).keys, ∀ key ∈ Layout.parseBlockKey field,
      field = Layout.blockKey key.1 key.2 := by decide +kernel
  refine check_exact rfl (by decide) ⟨fun _ => rfl, rfl⟩ ⟨rfl, fun _ _ => rfl⟩ ?_ ?_
  · intro field hmem
    obtain ⟨name, -, rfl⟩ := List.mem_map.1 (hcatalog field (Std.ExtTreeMap.mem_keys.2 hmem))
    exact ⟨name, rfl⟩
  · intro field hmem name index hparse
    exact hblocks field (Std.ExtTreeMap.mem_keys.2 hmem) (name, index) hparse

end BlockDir
