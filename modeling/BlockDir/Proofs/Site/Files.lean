import BlockDir.Proofs.Site.Calls

/-!
# What a site keeps

As long as only the calls of a site change them, its tables hold files in the format that all its
directories share (`Site.Keeps`), and its outputs hold what was written to them (`Site.Shows`). What
one directory leaves behind is taken up by all others, whichever backend serves them.
-/

namespace BlockDir

variable {ι κ : Type}

namespace Site

/-- The tables that keys lead to. -/
def tablesAt (place : Bytes → Nat) (stores : Nat → Store) (key : Bytes) : Table :=
  (stores (place key)).table key

/-- Directories of one format, on sound backends that lead to the same two tables. -/
structure Shared (v : Volume) (place : Bytes → Nat) (site : Site ι κ) : Prop where
  directories : ∀ i, (site.directory i).closed = false ∧
    ∃ interval, (site.directory i).volume = { v with syncInterval := interval }
  backends : ∀ b, (site.backend b).Sound
  placed : ∀ b, ∀ key ∈ v.keys, (site.backend b).storeOf key = place key

/-- Directories of one format, on sound backends that lead to the same two tables, which hold
`files`. -/
structure Keeps (v : Volume) (place : Bytes → Nat) (site : Site ι κ) (files : Files) : Prop where
  directories : ∀ i, (site.directory i).closed = false ∧
    ∃ interval, (site.directory i).volume = { v with syncInterval := interval }
  backends : ∀ b, (site.backend b).Sound
  placed : ∀ b, ∀ key ∈ v.keys, (site.backend b).storeOf key = place key
  holds : v.Holds (fun key => (site.wire.store (place key)).table key) files

/-- An output of a site that stands for an output of a shelf. -/
def Collects (v : Volume) : Option (ι × Output) → Option (String × Bytes) → Prop
  | some (_, output), some (name, content) =>
    output.name = name ∧ output.blockSize = v.blockSize ∧ output.Collected content
  | none, none => True
  | _, _ => False

/-- A site whose users see a shelf. -/
structure Shows (v : Volume) (place : Bytes → Nat) (site : Site ι κ) (shelf : Shelf) : Prop where
  keeps : site.Keeps v place shelf.files
  outputs : List.Forall₂ (Collects v) site.outputs shelf.outputs

variable {v : Volume} {place : Bytes → Nat} {site : Site ι κ} {files : Files} {shelf : Shelf}

theorem holds_congr {a b : Bytes → Table} (h : ∀ key ∈ v.keys, a key = b key)
    (hholds : v.Holds a files) : v.Holds b files := by
  have hcatalog := h _ v.catalogKey_mem
  have hblocks := h _ v.blocksKey_mem
  refine ⟨fun name => ?_, fun name index => ?_, ?_, ?_, hholds.short⟩
  · rw [← hholds.entry, Volume.entryIn, Volume.entryIn, hcatalog]
  · rw [← hholds.block, Volume.blockIn, Volume.blockIn, hblocks]
  · rw [← hcatalog]
    exact hholds.entries
  · rw [← hblocks]
    exact hholds.blocks

theorem Keeps.sound (h : site.Keeps v place files) (i : ι) : (site.desk i).client.Sound :=
  ⟨h.backends _, rfl⟩

theorem Keeps.format (h : site.Keeps v place files) (i : ι) :
    (site.directory i).volume.keys = v.keys ∧
      (site.directory i).volume.blockSize = v.blockSize := by
  obtain ⟨-, interval, hvolume⟩ := h.directories i
  rw [hvolume]
  exact ⟨rfl, rfl⟩

theorem Keeps.shared (h : site.Keeps v place files) : site.Shared v place :=
  ⟨h.directories, h.backends, h.placed⟩

theorem Shared.proper (h : site.Shared v place) (hv : v.Proper) (i : ι) :
    (site.directory i).volume.Proper := by
  obtain ⟨-, interval, hvolume⟩ := h.directories i
  rw [hvolume]
  exact ⟨hv.blockSize_pos, hv.blockSize_le, hv.keys_ne⟩

theorem Keeps.proper (h : site.Keeps v place files) (hv : v.Proper) (i : ι) :
    (site.directory i).volume.Proper :=
  h.shared.proper hv i

/-- Tables hold files in one format, whatever the interval. -/
theorem holds_iff (h : site.Keeps v place files) (i : ι) {tables : Bytes → Table} {files' : Files} :
    (site.directory i).volume.Holds tables files' ↔ v.Holds tables files' := by
  obtain ⟨-, interval, hvolume⟩ := h.directories i
  rw [hvolume]
  exact ⟨fun h => ⟨h.entry, h.block, h.entries, h.blocks, h.short⟩,
    fun h => ⟨h.entry, h.block, h.entries, h.blocks, h.short⟩⟩

/-- What each directory sees of the tables. -/
theorem Shared.table (h : site.Shared v place) (i : ι) :
    ∀ key ∈ v.keys, tablesAt place site.wire.store key = (site.desk i).client.table key := by
  intro key hkey
  show _ = (site.wire.store ((site.backend (site.serving i)).storeOf key)).table key
  rw [h.placed _ key hkey]
  rfl

theorem Keeps.holdsAt (h : site.Keeps v place files) (i : ι) :
    (site.directory i).volume.Holds (site.desk i).client.table files :=
  (holds_iff h i).2 (holds_congr (h.shared.table i) h.holds)

/-- Directories of one format stay so, whichever of them works. -/
theorem directories_leave [DecidableEq ι] [DecidableEq κ]
    (h : ∀ i, (site.directory i).closed = false ∧
      ∃ interval, (site.directory i).volume = { v with syncInterval := interval }) (i : ι) {desk : Desk}
    (hdirectory : desk.directory.config = (site.directory i).config ∧
      desk.directory.closed = (site.directory i).closed) (j : ι) :
    ((site.leave i desk).directory j).closed = false ∧
      ∃ interval, ((site.leave i desk).directory j).volume = { v with syncInterval := interval } := by
  simp only [Site.leave, Function.update_apply]
  split
  · rw [Directory.volume, hdirectory.1, hdirectory.2]
    exact h i
  · exact h j

theorem Shared.leave [DecidableEq ι] [DecidableEq κ] (h : site.Shared v place) (i : ι)
    {directory : Directory}
    (hdirectory : directory.config = (site.directory i).config ∧
      directory.closed = (site.directory i).closed)
    {client : Client} (hkept : (site.desk i).client.backend.Kept client.backend) :
    (site.leave i ⟨directory, client⟩).Shared v place := by
  refine ⟨directories_leave h.directories i hdirectory, fun b => ?_, fun b key hkey => ?_⟩
  · simp only [Site.leave, Function.update_apply]
    split
    · exact hkept.sound
    · exact h.backends b
  · simp only [Site.leave, Function.update_apply]
    split
    · rw [hkept.place]
      exact h.placed _ key hkey
    · exact h.placed b key hkey

/-- What remains to be seen once a directory worked: that the tables hold files again. -/
theorem Keeps.leave [DecidableEq ι] [DecidableEq κ] (h : site.Keeps v place files) (i : ι)
    {directory : Directory}
    (hdirectory : directory.config = (site.directory i).config ∧
      directory.closed = (site.directory i).closed)
    {client : Client} (hkept : (site.desk i).client.backend.Kept client.backend) {files' : Files}
    (hholds : (site.directory i).volume.Holds client.table files') :
    (site.leave i ⟨directory, client⟩).Keeps v place files' := by
  obtain ⟨hdirectories, hbackends, hplaced⟩ := h.shared.leave i hdirectory hkept
  refine ⟨hdirectories, hbackends, hplaced, ?_⟩
  refine holds_congr (fun key hkey => ?_) ((holds_iff h i).1 hholds)
  rw [Client.table, hkept.place]
  show (client.wire.store ((site.backend (site.serving i)).storeOf key)).table key = _
  rw [h.placed _ key hkey]
  rfl

theorem Shared.outputs (h : site.Shared v place) (outputs : List (Option (ι × Output))) :
    ({ site with outputs } : Site ι κ).Shared v place :=
  ⟨h.directories, h.backends, h.placed⟩

theorem Keeps.outputs (h : site.Keeps v place files) (outputs : List (Option (ι × Output))) :
    ({ site with outputs } : Site ι κ).Keeps v place files :=
  ⟨h.directories, h.backends, h.placed, h.holds⟩

theorem mem_of_output? {number : Nat} {found : ι × Output} (h : site.output? number = some found) :
    some found ∈ site.outputs := by
  unfold Site.output? at h
  exact List.mem_of_getElem? (Option.join_eq_some_iff.1 h)

theorem Shows.output? (h : site.Shows v place shelf) (number : Nat) :
    site.output? number = none ∧ shelf.output? number = none ∨
      ∃ i output content, site.output? number = some (i, output) ∧
        shelf.output? number = some (output.name, content) ∧
        output.blockSize = v.blockSize ∧ output.Collected content := by
  rw [Site.output?, Shelf.output?]
  have hlength := h.outputs.length_eq
  rcases Nat.lt_or_ge number site.outputs.length with hlt | hge
  · have hcollects := h.outputs.get hlt (hlength ▸ hlt)
    simp only [List.get_eq_getElem] at hcollects
    rw [List.getElem?_eq_getElem hlt, List.getElem?_eq_getElem (hlength ▸ hlt)]
    generalize site.outputs[number] = a at hcollects
    generalize shelf.outputs[number] = b at hcollects
    cases a with
    | none =>
      cases b with
      | none => exact .inl ⟨rfl, rfl⟩
      | some _ => exact absurd hcollects (by simp [Collects])
    | some pair =>
      cases b with
      | none => exact absurd hcollects (by simp [Collects])
      | some named =>
        obtain ⟨hname, hsize, hcollected⟩ := hcollects
        refine .inr ⟨pair.1, pair.2, named.2, rfl, ?_, hsize, hcollected⟩
        rw [hname]
        rfl
  · rw [List.getElem?_eq_none hge, List.getElem?_eq_none (hlength ▸ hge)]
    exact .inl ⟨rfl, rfl⟩

theorem perform_snd [DecidableEq ι] [DecidableEq κ] {α : Type} (site : Site ι κ) (i : ι)
    (act : DeskM α) (answer : α → Answer) :
    (site.perform i act answer).2 = site.leave i (finalState (act (site.desk i))) := by
  unfold perform
  cases act (site.desk i) <;> rfl

/-- What becomes of the first call to an output. -/
theorem step_create [DecidableEq ι] [DecidableEq κ] {i : ι}
    (hopen : (site.directory i).closed = false) (name : String) :
    site.step (.create i name) =
      if name = "" then (.refused .argument, site.leave i (site.desk i))
      else (.opened site.outputs.length,
        { site.leave i ⟨{ site.directory i with pending := name :: (site.directory i).pending },
            (site.desk i).client⟩ with
          outputs := site.outputs ++ [some (i, Output.new name (site.directory i).config.blockSize
            (site.directory i).config.checksum)] }) := by
  have hcreate : (site.desk i).directory.createOutput name = _ :=
    Directory.createOutput_of_open hopen name
  simp only [Site.step, Desk.createOutput, hcreate]
  by_cases hname : name = ""
  · simp only [hname, if_true]
    rfl
  · simp only [hname, if_false]

/-- Work that leaves the tables alone. -/
theorem Keeps.leave_same [DecidableEq ι] [DecidableEq κ] (h : site.Keeps v place files) (i : ι)
    {directory : Directory}
    (hdirectory : directory.config = (site.directory i).config ∧
      directory.closed = (site.directory i).closed)
    {client : Client} (hkept : (site.desk i).client.backend.Kept client.backend)
    (hstore : client.wire.store = (site.desk i).client.wire.store) :
    (site.leave i ⟨directory, client⟩).Keeps v place files := by
  refine h.leave i hdirectory hkept ?_
  rw [Client.table_of_place hkept.place hstore]
  exact h.holdsAt i

/-- What clients keep while they are used holds on all backends, whichever one was used. -/
theorem forall_leave [DecidableEq ι] [DecidableEq κ] {P : Client → Prop}
    (hkept : ∀ {before after : Client}, before.Later after → P before → P after)
    (h : ∀ b, P ⟨site.backend b, site.wire, none⟩) (hsound : ∀ b, (site.backend b).Sound) (i : ι)
    {desk : Desk} (hlater : (site.desk i).client.Later desk.client) :
    ∀ b, P ⟨(site.leave i desk).backend b, (site.leave i desk).wire, none⟩ := by
  intro b
  by_cases hb : b = site.serving i
  · subst hb
    have hafter := hkept hlater (h (site.serving i))
    have hwindow : desk.client.window = none := hlater.window
    obtain ⟨directory, backend, wire, window⟩ := desk
    obtain rfl : window = none := hwindow
    simpa [Site.leave] using hafter
  · have hother : Client.Later ⟨site.backend b, site.wire, none⟩
        ⟨site.backend b, desk.client.wire, none⟩ :=
      ⟨.refl (hsound b), rfl, hlater.threats⟩
    simpa [Site.leave, hb] using hkept hother (h b)

/-- Work of a directory on its own account leaves files and backends as they are. -/
theorem Keeps.account [DecidableEq ι] [DecidableEq κ] {P : Client → Prop}
    (hkept : ∀ {before after : Client}, before.Later after → P before → P after)
    (h : site.Keeps v place files) (hall : ∀ b, P ⟨site.backend b, site.wire, none⟩) (i : ι)
    (directory : Directory)
    (hdirectory : directory.config = (site.directory i).config ∧
      directory.closed = (site.directory i).closed) :
    let after := site.leave i ⟨directory, (site.desk i).client⟩
    after.Keeps v place files ∧ ∀ b, P ⟨after.backend b, after.wire, none⟩ :=
  ⟨h.leave_same i hdirectory (.refl (h.sound i).backend) rfl,
    forall_leave hkept hall h.backends i (.refl (h.sound i))⟩

/-- The site answers a call as the shelf does, shows the shelf as it is then, and what clients keep
still holds on all backends. -/
def Follows [DecidableEq ι] [DecidableEq κ] (v : Volume) (place : Bytes → Nat) (P : Client → Prop)
    (site : Site ι κ) (shelf : Shelf) (call : Call ι) : Prop :=
  (site.step call).1 = (shelf.step call).1 ∧
    (site.step call).2.Shows v place (shelf.step call).2 ∧
    ∀ b, P ⟨(site.step call).2.backend b, (site.step call).2.wire, none⟩

section

variable [DecidableEq ι] [DecidableEq κ] {P : Client → Prop}
  (hkept : ∀ {before after : Client}, before.Later after → P before → P after)
  (hall : ∀ b, P ⟨site.backend b, site.wire, none⟩)

include hkept hall

theorem Shows.create (h : site.Shows v place shelf) (i : ι) (name : String) :
    site.Follows v place P shelf (.create i name) := by
  rw [Follows, step_create (h.keeps.directories i).1, Shelf.step]
  by_cases hname : name = ""
  · rw [if_pos hname, if_pos hname]
    obtain ⟨hkeeps, hall'⟩ := h.keeps.account hkept hall i (site.directory i) ⟨rfl, rfl⟩
    exact ⟨rfl, ⟨hkeeps, h.outputs⟩, hall'⟩
  · rw [if_neg hname, if_neg hname]
    obtain ⟨hkeeps, hall'⟩ := h.keeps.account hkept hall i
      { site.directory i with pending := name :: (site.directory i).pending } ⟨rfl, rfl⟩
    refine ⟨by rw [h.outputs.length_eq], ⟨hkeeps.outputs _, ?_⟩, hall'⟩
    refine List.rel_append h.outputs (.cons ⟨rfl, (h.keeps.format i).2, ?_⟩ .nil)
    exact Output.collected_new _ _ _

theorem Shows.write (hv : v.Proper) (h : site.Shows v place shelf) (number : Nat) (data : Bytes) :
    site.Follows v place P shelf (.write number data) := by
  rw [Follows, Site.step, Shelf.step]
  obtain ⟨hnone, hnone'⟩ | ⟨i, output, content, hsome, hsome', hsize, hcollected⟩ := h.output? number
  · rw [hnone, hnone']
    exact ⟨rfl, h, hall⟩
  · rw [hsome, hsome']
    obtain ⟨hkeeps, hall'⟩ := h.keeps.account hkept hall i
      ((site.directory i).write output data).2 ⟨rfl, rfl⟩
    refine ⟨rfl, ⟨hkeeps.outputs _, ?_⟩, hall'⟩
    refine forall₂_set h.outputs number ⟨rfl, hsize, hcollected.write ?_ data⟩
    rw [hsize]
    exact hv.blockSize_pos

theorem Shows.drop (h : site.Shows v place shelf) (number : Nat) :
    site.Follows v place P shelf (.drop number) := by
  rw [Follows, Site.step, Shelf.step]
  obtain ⟨hnone, hnone'⟩ | ⟨i, output, content, hsome, hsome', hsize, hcollected⟩ := h.output? number
  · rw [hnone, hnone']
    exact ⟨rfl, h, hall⟩
  · rw [hsome, hsome']
    obtain ⟨hkeeps, hall'⟩ := h.keeps.account hkept hall i
      ((site.directory i).release output) ⟨rfl, rfl⟩
    exact ⟨rfl, ⟨hkeeps.outputs _, forall₂_set h.outputs number trivial⟩, hall'⟩

end

/-- Directories that agree on what concerns stored data, just opened on backends that were just
opened and that lead to the same two stores, all of them empty. -/
structure Fresh (c : Config) (place : Bytes → Nat) (site : Site ι κ) : Prop where
  valid : c.validate = .ok ()
  directories : ∀ i, ∃ own : Config, Directory.new own = .ok (site.directory i) ∧
    own.blockSize = c.blockSize ∧ own.compress = c.compress ∧
    own.catalogKey = c.catalogKey ∧ own.blocksKey = c.blocksKey
  backends : ∀ b, (site.backend b).Opened
  placed : ∀ b, ∀ key ∈ (Volume.ofConfig c).keys, (site.backend b).storeOf key = place key
  empty : ∀ number, site.wire.store number = ∅
  outputs : site.outputs = []

theorem Fresh.shared {c : Config} (h : site.Fresh c place) :
    site.Shared (Volume.ofConfig c) place := by
  refine ⟨fun i => ?_, fun b => (h.backends b).ready.1, h.placed⟩
  obtain ⟨own, hnew, hsize, hcompress, hcatalog, hblocks⟩ := h.directories i
  unfold Directory.new at hnew
  split at hnew
  · rw [← Except.ok.inj hnew]
    refine ⟨rfl, own.syncInterval, ?_⟩
    simp only [Directory.volume, Volume.ofConfig, hsize, hcompress, hcatalog, hblocks]
  · cases hnew

theorem Fresh.shows {c : Config} (h : site.Fresh c place) :
    site.Shows (Volume.ofConfig c) place Shelf.empty where
  keeps := by
    obtain ⟨hdirectories, hbackends, hplaced⟩ := h.shared
    refine ⟨hdirectories, hbackends, hplaced, Volume.holds_empty fun key => ?_⟩
    rw [h.empty, Store.table_empty]
  outputs := by
    rw [h.outputs]
    exact .nil

/-- A site of one directory. -/
def alone (d : Directory) (backend : Backend) (wire : Wire) : Site Unit Unit :=
  ⟨fun _ => d, fun _ => backend, fun _ => (), wire, []⟩

theorem fresh_alone {c : Config} {d : Directory} {backend : Backend} {wire : Wire}
    (hnew : Directory.new c = .ok d) (hopened : backend.Opened)
    (hempty : ∀ number, wire.store number = ∅) :
    (alone d backend wire).Fresh c backend.storeOf where
  valid := by
    unfold Directory.new at hnew
    split at hnew
    · assumption
    · cases hnew
  directories _ := ⟨c, hnew, rfl, rfl, rfl, rfl⟩
  backends _ := hopened
  placed _ _ _ := rfl
  empty := hempty
  outputs := rfl

end Site

end BlockDir
