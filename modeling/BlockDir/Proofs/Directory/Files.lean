import BlockDir.Proofs.Directory.Opening
import BlockDir.Proofs.Volume.Files

/-!
# What a directory does to files

On tables that hold files, what the operations of an open directory find and plan is a matter of the
files alone, and a plan that is carried out leaves tables that hold files again. The one thing that
stands in the way is a file of more blocks than a volume allows: it is neither read nor replaced.
-/

namespace BlockDir

/-- Whether all files have as many blocks as a volume of that block size allows. -/
def Files.Small (size : Nat) (files : Files) : Prop :=
  ∀ (name : String) (content : Bytes), files[name]? = some content →
    Layout.blockCount content.length size ≤ Layout.maxBlocks

/-- Whether a file has more blocks than a volume of that block size allows. -/
def Files.isLarge (size : Nat) (files : Files) (name : String) : Bool :=
  files[name]?.any fun content => Layout.maxBlocks < Layout.blockCount (List.length content) size

namespace Files

variable {size : Nat} {files : Files}

theorem isLarge_eq_true_iff {name : String} : files.isLarge size name = true ↔
    ∃ content, files[name]? = some content ∧
      Layout.maxBlocks < Layout.blockCount content.length size := by
  rw [isLarge]
  cases files[name]? <;> simp

theorem isLarge_eq_false_iff {name : String} : files.isLarge size name = false ↔
    ∀ content, files[name]? = some content →
      Layout.blockCount content.length size ≤ Layout.maxBlocks := by
  rw [isLarge]
  cases files[name]? <;> simp

theorem Small.isLarge (h : files.Small size) (name : String) : files.isLarge size name = false :=
  isLarge_eq_false_iff.2 (h name)

theorem small_empty (size : Nat) : Small size ∅ := by
  intro name content hfile
  simp at hfile

theorem Small.insert (h : files.Small size) (name : String) {content : Bytes}
    (hcontent : Layout.blockCount content.length size ≤ Layout.maxBlocks) :
    Small size (files.insert name content) := by
  intro other old hfile
  rw [Std.ExtTreeMap.getElem?_insert] at hfile
  split at hfile
  · rw [← Option.some.inj hfile]
    exact hcontent
  · exact h other old hfile

theorem Small.erase (h : files.Small size) (name : String) : Small size (files.erase name) := by
  intro other old hfile
  rw [Std.ExtTreeMap.getElem?_erase] at hfile
  split at hfile
  · cases hfile
  · exact h other old hfile

end Files

namespace Volume

variable {v : Volume} {tables : Bytes → Table} {files : Files}

/-- The number of stale blocks that is planned for covers the previous version. -/
theorem le_of_staleCount (hv : v.Proper) {name : String} {stale : Nat}
    (h : v.staleCount name (files[name]?.map List.length) = .ok stale) :
    ∀ old, files[name]? = some old → (v.storedForms old).length ≤ stale := by
  intro old hfile
  rw [hfile, Option.map_some, staleCount] at h
  rw [length_storedForms hv, (storedCount_eq_ok h).2]

/-- Blocks of a content over a previous version that the catalog tells of. -/
theorem savePlan_eq (hv : v.Proper) {name : String} {previous : Option Nat}
    (hprevious : v.lengthIn name tables = .ok previous) (content : Bytes) :
    v.savePlan name (chunks v.blockSize content) content.length tables =
      (v.staleCount name previous).map fun stale =>
        ((), v.saveBatch name (v.storedForms content) content.length stale) := by
  have hcount : ¬ (chunks v.blockSize content).length <
      Layout.blockCount content.length v.blockSize := by
    rw [length_chunks hv.blockSize_pos]
    exact Nat.lt_irrefl _
  simp only [savePlan, Layout.countBlocks_of_pos hv.blockSize_pos, bind, Except.bind, hcount, if_false,
    hprevious]
  cases v.staleCount name previous with
  | error e => rfl
  | ok stale => simp only [encodeBlocks_chunks hv, pure, Except.pure, Except.map]

theorem deletePlan_eq (h : v.Holds tables files) (name : String) :
    v.deletePlan name tables = match files[name]? with
      | none => .ok (false, [])
      | some content => (v.storedCount name content.length).map fun count =>
          (true, v.deleteBatch name count) := by
  simp only [deletePlan, bind, Except.bind, h.lengthIn]
  cases hfile : files[name]? with
  | none => rfl
  | some content =>
    simp only [Option.map_some, erasePlan, bind, Except.bind]
    cases v.storedCount name content.length <;> rfl

theorem renamePlan_eq (hv : v.Proper) (h : v.Holds tables files) {source dest : String}
    (hne : source ≠ dest) {content : Bytes} {count : Nat}
    (hcount : v.storedCount source content.length = .ok count) :
    v.renamePlan source dest (v.storedForms content) content.length tables =
      (v.staleCount dest (files[dest]?.map List.length)).map fun stale =>
        ((), v.renameBatch source dest (v.storedForms content) content.length stale) := by
  have hlength : (v.storedForms content).length = count := by
    rw [length_storedForms hv, (storedCount_eq_ok hcount).2]
  simp only [renamePlan, hne, if_false, bind, Except.bind, hcount, h.lengthIn]
  cases v.staleCount dest (files[dest]?.map List.length) with
  | error e => rfl
  | ok stale => simp [hlength, pure, Except.pure, Except.map]

theorem storedCount_of_le (hv : v.Proper) (name : String) {length : Nat}
    (h : Layout.blockCount length v.blockSize ≤ Layout.maxBlocks) :
    v.storedCount name length = .ok (Layout.blockCount length v.blockSize) :=
  storedCount_eq_ok_iff.2 ⟨hv.blockSize_pos, rfl, h⟩

theorem storedCount_of_lt (hv : v.Proper) (name : String) {length : Nat}
    (h : Layout.maxBlocks < Layout.blockCount length v.blockSize) :
    ∃ damage, v.storedCount name length = .error (.damaged damage) := by
  rw [storedCount, Layout.checkedCount_of_pos hv.blockSize_pos, if_pos h]
  exact ⟨_, rfl⟩

/-- Whether a previous version is in the way is a matter of its size. -/
theorem staleCount_of_small (hv : v.Proper) {name : String}
    (hsmall : files.isLarge v.blockSize name = false) :
    ∃ stale, v.staleCount name (files[name]?.map List.length) = .ok stale := by
  cases hfile : files[name]? with
  | none => exact ⟨0, rfl⟩
  | some content =>
    exact ⟨_, storedCount_of_le hv name (Files.isLarge_eq_false_iff.1 hsmall content hfile)⟩

theorem staleCount_of_large (hv : v.Proper) {name : String}
    (hlarge : files.isLarge v.blockSize name = true) :
    ∃ damage, v.staleCount name (files[name]?.map List.length) = .error (.damaged damage) := by
  obtain ⟨content, hfile, hcount⟩ := Files.isLarge_eq_true_iff.1 hlarge
  rw [hfile]
  exact storedCount_of_lt hv name hcount

/-- A file that is not too large has a length that can be stored. -/
theorem short_of_le (hv : v.Proper) {content : Bytes}
    (h : Layout.blockCount content.length v.blockSize ≤ Layout.maxBlocks) :
    content.length < 2 ^ 64 := by
  have hlength := (Layout.blockCount_le_iff hv.blockSize_pos).1 h
  have hbound := Nat.mul_le_mul_left Layout.maxBlocks hv.blockSize_le
  simp only [Layout.maxBlocks, Snappy.longest] at hlength hbound
  omega

end Volume

namespace Directory

variable {d : Directory} {tables : Bytes → Table} {files : Files}

theorem createOutput_of_open (hopen : d.closed = false) (name : String) :
    d.createOutput name = if name = "" then .error (.argument .emptyName)
      else .ok (Output.new name d.config.blockSize d.config.checksum,
        { d with pending := name :: d.pending }) := by
  simp only [createOutput, ensureOpen, hopen, Bool.false_eq_true, if_false, String.isEmpty_iff]

theorem inputIn_of_holds (hopen : d.closed = false) (hv : d.volume.Proper)
    (h : d.volume.Holds tables files) {name : String} {content : Bytes}
    (hfile : files[name]? = some content)
    (hsmall : Layout.blockCount content.length d.volume.blockSize ≤ Layout.maxBlocks) :
    d.inputIn name tables = .ok
      (Reader.new name (LoadedFile.ofContent d.volume.blockSize content)) := by
  have hlength := h.lengthIn name
  rw [hfile, Option.map_some] at hlength
  exact inputIn_eq_ok_iff.2 ⟨hopen, content.length, _, hlength,
    h.loadedIn hv hfile (Volume.storedCount_of_le hv name hsmall), rfl⟩

theorem storePlan_eq (hopen : d.closed = false) (hv : d.volume.Proper) {output : Output}
    {content : Bytes} (hsize : output.blockSize = d.volume.blockSize)
    (hcollected : output.Collected content) {previous : Option Nat}
    (hprevious : d.volume.lengthIn output.name tables = .ok previous) :
    d.storePlan output tables = (d.volume.staleCount output.name previous).map fun stale =>
      ((), d.volume.saveBatch output.name (d.volume.storedForms content) content.length stale) := by
  rw [storePlan, ensureOpen, hopen, hcollected.blocks, hcollected.position, hsize]
  exact Volume.savePlan_eq hv hprevious content

theorem deleteFilePlan_eq (hopen : d.closed = false) (h : d.volume.Holds tables files)
    (name : String) :
    d.deleteFilePlan name tables = match files[name]? with
      | none => .ok ((), [])
      | some content => (d.volume.storedCount name content.length).map fun count =>
          ((), d.volume.deleteBatch name count) := by
  rw [deleteFilePlan, ensureOpen, hopen, Volume.deletePlan_eq h]
  cases files[name]? with
  | none => rfl
  | some content =>
    simp only [bind, Except.bind, Bool.false_eq_true, if_false]
    cases d.volume.storedCount name content.length <;> rfl

theorem renameFilePlan_eq (hopen : d.closed = false) (hv : d.volume.Proper)
    (h : d.volume.Holds tables files) (source dest : String) :
    d.renameFilePlan source dest tables = match files[source]? with
      | none => .error (.missing (.renamed source dest))
      | some content => do
        let _ ← d.volume.storedCount source content.length
        if source = dest then
          return ((), [])
        else
          let stale ← d.volume.staleCount dest (files[dest]?.map List.length)
          return ((), d.volume.renameBatch source dest (d.volume.storedForms content)
            content.length stale) := by
  rw [renameFilePlan, ensureOpen, hopen]
  simp only [Bool.false_eq_true, if_false, bind, Except.bind, h.lengthIn]
  cases hfile : files[source]? with
  | none => rfl
  | some content =>
    simp only [Option.map_some, h.storedIn hv hfile]
    cases hcount : d.volume.storedCount source content.length with
    | error e => rfl
    | ok count =>
      simp only [Except.map]
      by_cases hsame : source = dest
      · simp [Volume.renamePlan, hsame]
      · rw [Volume.renamePlan_eq hv h hsame hcount, if_neg hsame]
        cases d.volume.staleCount dest (files[dest]?.map List.length) <;> rfl

theorem holds_storePlan (hopen : d.closed = false) (hv : d.volume.Proper)
    (h : d.volume.Holds tables files) {output : Output} {content : Bytes}
    (hsize : output.blockSize = d.volume.blockSize) (hcollected : output.Collected content)
    (hshort : content.length < 2 ^ 64) :
    ∃ files', d.volume.Holds (Batch.onTables ((d.storePlan output).batch tables) tables) files' := by
  rw [Plan.batch, storePlan_eq hopen hv hsize hcollected (h.lengthIn output.name)]
  cases hstale : d.volume.staleCount output.name (files[output.name]?.map List.length) with
  | error e => exact ⟨files, h⟩
  | ok stale => exact ⟨_, h.save hv output.name hshort (Volume.le_of_staleCount hv hstale)⟩

theorem holds_deleteFilePlan (hopen : d.closed = false) (hv : d.volume.Proper)
    (h : d.volume.Holds tables files) (name : String) :
    ∃ files',
      d.volume.Holds (Batch.onTables ((d.deleteFilePlan name).batch tables) tables) files' := by
  rw [Plan.batch, deleteFilePlan_eq hopen h]
  cases hfile : files[name]? with
  | none => exact ⟨files, h⟩
  | some content =>
    cases hcount : d.volume.storedCount name content.length with
    | error e =>
      refine ⟨files, ?_⟩
      simpa [hcount, Except.map] using h
    | ok count =>
      refine ⟨files.erase name, ?_⟩
      simp only [hcount, Except.map]
      refine h.delete hv name fun old hold => ?_
      obtain rfl := Option.some.inj (hfile.symm.trans hold)
      rw [Volume.length_storedForms hv, (Volume.storedCount_eq_ok hcount).2]

theorem holds_renameFilePlan (hopen : d.closed = false) (hv : d.volume.Proper)
    (h : d.volume.Holds tables files) (source dest : String) :
    ∃ files', d.volume.Holds
      (Batch.onTables ((d.renameFilePlan source dest).batch tables) tables) files' := by
  rw [Plan.batch, renameFilePlan_eq hopen hv h]
  cases hfile : files[source]? with
  | none => exact ⟨files, h⟩
  | some content =>
    cases hcount : d.volume.storedCount source content.length with
    | error e =>
      refine ⟨files, ?_⟩
      simpa [hcount, bind, Except.bind] using h
    | ok count =>
      by_cases hsame : source = dest
      · subst hsame
        refine ⟨files, ?_⟩
        simpa [hcount, bind, Except.bind, pure, Except.pure] using h
      · cases hstale : d.volume.staleCount dest (files[dest]?.map List.length) with
        | error e =>
          refine ⟨files, ?_⟩
          simpa [hcount, hsame, hstale, bind, Except.bind] using h
        | ok stale =>
          refine ⟨(files.insert dest content).erase source, ?_⟩
          simp only [hcount, hsame, bind, Except.bind, pure, Except.pure, if_false]
          exact h.rename hv hsame hfile (Volume.le_of_staleCount hv hstale)

theorem storePlan_carried (hopen : d.closed = false) (hv : d.volume.Proper)
    (h : d.volume.Holds tables files) {output : Output} {content : Bytes}
    (hsmall : files.isLarge d.volume.blockSize output.name = false)
    (hsize : output.blockSize = d.volume.blockSize) (hcollected : output.Collected content)
    (hshort : content.length < 2 ^ 64) :
    ∃ batch, d.storePlan output tables = .ok ((), batch) ∧
      d.volume.Holds (Batch.onTables batch tables) (files.insert output.name content) := by
  obtain ⟨stale, hstale⟩ := Volume.staleCount_of_small hv hsmall
  rw [storePlan_eq hopen hv hsize hcollected (h.lengthIn output.name), hstale]
  exact ⟨_, rfl, h.save hv output.name hshort (Volume.le_of_staleCount hv hstale)⟩

theorem deleteFilePlan_carried (hopen : d.closed = false) (hv : d.volume.Proper)
    (h : d.volume.Holds tables files) {name : String}
    (hsmall : files.isLarge d.volume.blockSize name = false) :
    ∃ batch, d.deleteFilePlan name tables = .ok ((), batch) ∧
      d.volume.Holds (Batch.onTables batch tables) (files.erase name) := by
  rw [deleteFilePlan_eq hopen h]
  cases hfile : files[name]? with
  | none =>
    have hsame : files.erase name = files := by
      refine Std.ExtTreeMap.ext_getElem? fun other => ?_
      rw [Std.ExtTreeMap.getElem?_erase]
      split
      · rename_i hname
        rw [← Std.LawfulEqCmp.eq_of_compare hname, hfile]
      · rfl
    rw [hsame]
    exact ⟨[], rfl, h⟩
  | some content =>
    have hcount :=
      Volume.storedCount_of_le hv name (Files.isLarge_eq_false_iff.1 hsmall content hfile)
    simp only [hcount]
    refine ⟨_, rfl, h.delete hv name fun old hold => ?_⟩
    obtain rfl := Option.some.inj (hfile.symm.trans hold)
    rw [Volume.length_storedForms hv]

theorem renameFilePlan_carried (hopen : d.closed = false) (hv : d.volume.Proper)
    (h : d.volume.Holds tables files) {source dest : String} {content : Bytes}
    (hfile : files[source]? = some content)
    (hsmall : files.isLarge d.volume.blockSize source = false)
    (hsmall' : files.isLarge d.volume.blockSize dest = false) :
    ∃ batch, d.renameFilePlan source dest tables = .ok ((), batch) ∧
      d.volume.Holds (Batch.onTables batch tables)
        (if source = dest then files else (files.insert dest content).erase source) := by
  have hcount := Volume.storedCount_of_le hv source (Files.isLarge_eq_false_iff.1 hsmall content hfile)
  rw [renameFilePlan_eq hopen hv h, hfile]
  by_cases hsame : source = dest
  · subst hsame
    simp only [hcount, bind, Except.bind, if_true]
    exact ⟨[], rfl, h⟩
  · obtain ⟨stale, hstale⟩ := Volume.staleCount_of_small hv hsmall'
    simp only [hcount, hsame, hstale, bind, Except.bind, if_false]
    exact ⟨_, rfl, h.rename hv hsame hfile (Volume.le_of_staleCount hv hstale)⟩

theorem inputIn_of_large (hopen : d.closed = false) (hv : d.volume.Proper)
    (h : d.volume.Holds tables files) {name : String}
    (hlarge : files.isLarge d.volume.blockSize name = true) :
    ∃ damage, d.inputIn name tables = .error (.damaged damage) := by
  obtain ⟨content, hfile, hcount⟩ := Files.isLarge_eq_true_iff.1 hlarge
  obtain ⟨damage, hdamage⟩ := Volume.storedCount_of_lt hv name hcount
  have hlength := h.lengthIn name
  have hstored := h.storedIn hv hfile
  rw [hfile, Option.map_some] at hlength
  rw [hdamage] at hstored
  have hloaded : d.volume.loadedIn name content.length tables = .error (.damaged damage) := by
    simp only [Volume.loadedIn, hstored, bind, Except.bind, Except.map]
  refine ⟨damage, ?_⟩
  simp only [inputIn, ensureOpen, hopen, hlength, hloaded, bind, Except.bind, Bool.false_eq_true,
    if_false]

theorem storePlan_of_large (hopen : d.closed = false) (hv : d.volume.Proper)
    (h : d.volume.Holds tables files) {output : Output} {content : Bytes}
    (hlarge : files.isLarge d.volume.blockSize output.name = true)
    (hsize : output.blockSize = d.volume.blockSize) (hcollected : output.Collected content) :
    ∃ damage, d.storePlan output tables = .error (.damaged damage) := by
  obtain ⟨damage, hstale⟩ := Volume.staleCount_of_large hv hlarge
  rw [storePlan_eq hopen hv hsize hcollected (h.lengthIn output.name), hstale]
  exact ⟨damage, rfl⟩

theorem deleteFilePlan_of_large (hopen : d.closed = false) (hv : d.volume.Proper)
    (h : d.volume.Holds tables files) {name : String}
    (hlarge : files.isLarge d.volume.blockSize name = true) :
    ∃ damage, d.deleteFilePlan name tables = .error (.damaged damage) := by
  obtain ⟨content, hfile, hcount⟩ := Files.isLarge_eq_true_iff.1 hlarge
  obtain ⟨damage, hdamage⟩ := Volume.storedCount_of_lt hv name hcount
  rw [deleteFilePlan_eq hopen h, hfile]
  simp only [hdamage]
  exact ⟨damage, rfl⟩

theorem renameFilePlan_of_large (hopen : d.closed = false) (hv : d.volume.Proper)
    (h : d.volume.Holds tables files) {source dest : String} {content : Bytes}
    (hfile : files[source]? = some content)
    (hlarge : files.isLarge d.volume.blockSize source = true ∨
      files.isLarge d.volume.blockSize dest = true) :
    ∃ damage, d.renameFilePlan source dest tables = .error (.damaged damage) := by
  rw [renameFilePlan_eq hopen hv h, hfile]
  cases hsource : files.isLarge d.volume.blockSize source with
  | true =>
    obtain ⟨_, hsame, hcount⟩ := Files.isLarge_eq_true_iff.1 hsource
    cases hfile.symm.trans hsame
    obtain ⟨damage, hdamage⟩ := Volume.storedCount_of_lt hv source hcount
    simp only [hdamage, bind, Except.bind]
    exact ⟨damage, rfl⟩
  | false =>
    have hdest : files.isLarge d.volume.blockSize dest = true := by simpa [hsource] using hlarge
    have hne : source ≠ dest := by
      rintro rfl
      cases hsource.symm.trans hdest
    have hcount :=
      Volume.storedCount_of_le hv source (Files.isLarge_eq_false_iff.1 hsource content hfile)
    obtain ⟨damage, hdamage⟩ := Volume.staleCount_of_large hv hdest
    simp only [hcount, hne, hdamage, bind, Except.bind, if_false]
    exact ⟨damage, rfl⟩

end Directory

end BlockDir
