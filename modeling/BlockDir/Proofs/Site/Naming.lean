import BlockDir.Proofs.Directory.Tracing
import BlockDir.Proofs.Site.Files

/-!
# Where names come from

Whatever strikes it, a call adds to the stores only what belongs to the name of an output that it closes
or to the name that it moves a file to. So all that is ever in the stores of a site belongs to names that
calls brought (`Site.names_of_calls`).

An output must have a name, so no file lacks one unless a file is moved to the empty name
(`Site.no_file_without_name`). There is no such check where a file is moved
(`Site.renamed_to_no_name`).
-/

namespace BlockDir

/-- Whether a write gives a field a value. -/
def Write.Sets (w : Write) (key field : Bytes) : Prop :=
  w.key = key ∧ ∃ value, w.change = .set field value

theorem Write.Sets.touches {w : Write} {key field : Bytes} (h : w.Sets key field) :
    w.Touches key field := by
  obtain ⟨hkey, value, hchange⟩ := h
  rw [Write.Touches, hchange]
  exact ⟨hkey, rfl⟩

theorem Store.mem_of_mem_write {store : Store} {w : Write} {key field : Bytes}
    (h : field ∈ (store.write w).table key) : w.Sets key field ∨ field ∈ store.table key := by
  rw [Std.ExtTreeMap.mem_iff_isSome_getElem?] at h ⊢
  rw [table_write] at h
  split at h
  · rename_i hkey
    obtain ⟨written, change⟩ := w
    obtain rfl : written = key := hkey
    cases change with
    | set changed value =>
      rw [Table.getElem?_change_set] at h
      split at h
      · rename_i heq
        exact .inl ⟨rfl, value, by rw [heq]⟩
      · exact .inr h
    | delete changed =>
      rw [Table.getElem?_change_delete] at h
      split at h
      · cases h
      · exact .inr h
  · exact .inr h

namespace Volume

variable {v : Volume} {given : String → Prop}

/-- Whether a write adds nothing but what belongs to names of some sort. -/
def AddsFor (v : Volume) (given : String → Prop) (w : Write) : Prop :=
  ∀ key field, w.Sets key field → ∃ name, given name ∧ v.Owns name key field

/-- Whether all that is in a store belongs to names of some sort. -/
def HoldsFor (v : Volume) (given : String → Prop) (store : Store) : Prop :=
  ∀ key, ∀ field ∈ store.table key, ∃ name, given name ∧ v.Owns name key field

theorem HoldsFor.write {store : Store} (h : v.HoldsFor given store) {w : Write}
    (hadds : v.AddsFor given w) : v.HoldsFor given (store.write w) := by
  intro key field hmem
  rcases Store.mem_of_mem_write hmem with hsets | hmem
  · exact hadds key field hsets
  · exact h key field hmem

theorem holdsFor_empty : v.HoldsFor given ∅ := by
  intro key field hmem
  rw [Store.table_empty] at hmem
  exact absurd hmem Std.ExtTreeMap.not_mem_empty

theorem addsFor_of_mem_saveBatch {name : String} {stored : List Bytes} {length stale : Nat} {w : Write}
    (hgiven : given name) (hmem : w ∈ v.saveBatch name stored length stale) : v.AddsFor given w :=
  fun _ _ hsets => ⟨name, hgiven, owns_of_mem_saveBatch hmem hsets.touches⟩

theorem addsFor_of_mem_deleteBatch {name : String} {count : Nat} {w : Write}
    (hmem : w ∈ v.deleteBatch name count) : v.AddsFor given w := by
  rintro key field ⟨-, value, hchange⟩
  rw [deleteBatch, List.mem_append] at hmem
  -- both parts only delete
  rcases hmem with hmem | hmem
  · cases Batch.mem_delete hmem
    cases hchange
  · cases Batch.mem_delete hmem
    cases hchange

end Volume

/-- The name that a mutation adds to, if it adds anything. -/
def Mutation.target? : Mutation → Option String
  | closeOutput output => some output.name
  | deleteFile _ => none
  | renameFile _ dest => some dest
  | save name _ _ => some name
  | erase _ _ => none
  | rename _ dest _ _ => some dest

/-- What a mutation may commit adds only to its target. -/
theorem Mutation.addsFor_of_commits {m : Mutation} {v : Volume} {given : String → Prop}
    (hgiven : ∀ name, m.target? = some name → given name) {batch : Batch} (h : m.Commits v batch) :
    ∀ w ∈ batch, v.AddsFor given w := by
  intro w hmem
  cases h with
  | closeOutput output stored stale => exact Volume.addsFor_of_mem_saveBatch (hgiven _ rfl) hmem
  | save name blocks stored length stale => exact Volume.addsFor_of_mem_saveBatch (hgiven _ rfl) hmem
  | deleteFile name count | erase name length count => exact Volume.addsFor_of_mem_deleteBatch hmem
  | renameFile source dest stored length stale | rename source dest stored length stale =>
    rw [Volume.renameBatch, List.mem_append] at hmem
    rcases hmem with hmem | hmem
    · exact Volume.addsFor_of_mem_saveBatch (hgiven _ rfl) hmem
    · exact Volume.addsFor_of_mem_deleteBatch hmem

/-- Whether a call brings a name: it creates an output of that name, which may not be empty, or it moves
a file to it. -/
def Call.Brings {ι : Type} (name : String) : Call ι → Prop
  | .create _ created => created = name ∧ name ≠ ""
  | .rename _ _ dest => dest = name
  | _ => False

namespace Site

variable {ι κ : Type} {v : Volume} {given : String → Prop} {site : Site ι κ}

/-- Directories of one format, and outputs whose names are of some sort. -/
structure Named (v : Volume) (given : String → Prop) (site : Site ι κ) : Prop where
  directories : ∀ i, (site.directory i).closed = false ∧
    ∃ interval, (site.directory i).volume = { v with syncInterval := interval }
  outputs : ∀ i output, some (i, output) ∈ site.outputs → given output.name

theorem Named.mutation (h : site.Named v given) (i : ι) {m : Mutation}
    (hgiven : ∀ name, m.target? = some name → given name) :
    ((finalState (m.run (site.desk i))).directory.config = (site.directory i).config ∧
        (finalState (m.run (site.desk i))).directory.closed = (site.directory i).closed) ∧
      site.wire.Tells (v.AddsFor given) (finalState (m.run (site.desk i))).client.wire := by
  rw [m.finalState_run]
  refine ⟨m.account_same _, Mutation.traces_of_commits (fun batch hcommits w hmem => ?_) _⟩
  obtain ⟨-, interval, hvolume⟩ := h.directories i
  have hcommits : m.Commits (site.directory i).volume batch := hcommits
  rw [hvolume] at hcommits
  -- the interval is no matter of what belongs to a name
  have hadds : Volume.AddsFor { v with syncInterval := interval } given w :=
    Mutation.addsFor_of_commits hgiven hcommits w hmem
  exact hadds

theorem Named.erase (h : site.Named v given) (number : Nat) (i : ι) (output : Output)
    (hmem : some (i, output) ∈ site.outputs.set number none) : given output.name := by
  rcases List.mem_or_eq_of_mem_set hmem with hmem | heq
  · exact h.outputs i output hmem
  · cases heq

variable [DecidableEq ι] [DecidableEq κ]

theorem Named.leave (h : site.Named v given) (i : ι) {desk : Desk}
    (hdirectory : desk.directory.config = (site.directory i).config ∧
      desk.directory.closed = (site.directory i).closed)
    {outputs : List (Option (ι × Output))}
    (houtputs : ∀ j output, some (j, output) ∈ outputs → given output.name) :
    ({ site.leave i desk with outputs } : Site ι κ).Named v given :=
  ⟨directories_leave h.directories i hdirectory, houtputs⟩

theorem Named.read (h : site.Named v given) (i : ι) {α : Type} {act : Directory → ClientM α}
    (hact : Traces Client.wire (v.AddsFor given) (act (site.directory i))) (answer : α → Answer) :
    (site.perform i (Desk.onClient act) answer).2.Named v given ∧
      site.wire.Tells (v.AddsFor given) (site.perform i (Desk.onClient act) answer).2.wire := by
  rw [perform_snd, Desk.finalState_onClient]
  exact ⟨h.leave i ⟨rfl, rfl⟩ h.outputs, hact (site.desk i).client⟩

/-- A call that brings only names of some sort adds only to such names, whatever strikes it. -/
theorem Named.step (h : site.Named v given) {call : Call ι}
    (hgiven : ∀ name, call.Brings name → given name) :
    (site.step call).2.Named v given ∧
      site.wire.Tells (v.AddsFor given) (site.step call).2.wire := by
  cases call with
  | create i name =>
    rw [step_create (h.directories i).1]
    split
    · exact ⟨h.leave i ⟨rfl, rfl⟩ h.outputs, .refl _⟩
    · rename_i hname
      refine ⟨h.leave i ⟨rfl, rfl⟩ fun j other hmem => ?_, .refl _⟩
      rcases List.mem_append.1 hmem with hmem | hmem
      · exact h.outputs j other hmem
      · cases List.mem_singleton.1 hmem
        exact hgiven name ⟨rfl, hname⟩
  | write number data =>
    rw [Site.step]
    split
    · exact ⟨h, .refl _⟩
    · rename_i i output hsome
      refine ⟨h.leave i ⟨rfl, rfl⟩ fun j other hmem => ?_, .refl _⟩
      rcases List.mem_or_eq_of_mem_set hmem with hmem | heq
      · exact h.outputs j other hmem
      · cases heq
        exact h.outputs i output (mem_of_output? hsome)
  | close number =>
    rw [Site.step]
    split
    · exact ⟨h, .refl _⟩
    · rename_i i output hsome
      obtain ⟨hdirectory, htells⟩ := h.mutation i (m := .closeOutput output) fun name htarget => by
        cases htarget
        exact h.outputs i output (mem_of_output? hsome)
      dsimp only
      rw [perform_snd]
      exact ⟨h.leave i hdirectory (h.erase number), htells⟩
  | drop number =>
    rw [Site.step]
    split
    · exact ⟨h, .refl _⟩
    · rename_i i output hsome
      dsimp only
      rw [perform_snd]
      exact ⟨h.leave i ⟨rfl, rfl⟩ (h.erase number), .refl _⟩
  | delete i name =>
    obtain ⟨hdirectory, htells⟩ := h.mutation i (m := .deleteFile name) fun _ htarget => by
      cases htarget
    rw [Site.step, perform_snd]
    exact ⟨h.leave i hdirectory h.outputs, htells⟩
  | rename i source dest =>
    obtain ⟨hdirectory, htells⟩ := h.mutation i (m := .renameFile source dest) fun name htarget => by
      cases htarget
      exact hgiven dest rfl
    rw [Site.step, perform_snd]
    exact ⟨h.leave i hdirectory h.outputs, htells⟩
  | read i name => exact h.read i ((site.directory i).traces_openInput name) readOut
  | list i => exact h.read i (site.directory i).traces_list .names
  | has i name => exact h.read i ((site.directory i).traces_fileExists name) .truth
  | length i name => exact h.read i ((site.directory i).traces_fileLength name) .size

theorem Named.run (h : site.Named v given) {calls : List (Call ι)}
    (hgiven : ∀ call ∈ calls, ∀ name, call.Brings name → given name) :
    site.wire.Tells (v.AddsFor given) (runCalls Site.step site calls).2.wire := by
  induction calls generalizing site with
  | nil => exact .refl _
  | cons call rest ih =>
    obtain ⟨hnext, htells⟩ := h.step (hgiven call List.mem_cons_self)
    exact htells.trans (ih hnext fun other hmem => hgiven other (List.mem_cons_of_mem _ hmem))

variable {place : Bytes → Nat}

/-- Whatever strikes the calls to a fresh site, all that is in the stores at any moment belongs to names
that the calls brought. -/
theorem names_of_calls {c : Config} (h : site.Fresh c place) (calls : List (Call ι)) :
    let last := (runCalls Site.step site calls).2
    ∃ events, last.wire.record = events.reverse ++ site.wire.record ∧
      Replays events site.wire.store last.wire.store ∧
      ∀ passed stores, passed <+: events → Replays passed site.wire.store stores → ∀ number,
        (Volume.ofConfig c).HoldsFor (fun name => ∃ call ∈ calls, call.Brings name)
          (stores number) := by
  intro last
  have hnamed : site.Named (Volume.ofConfig c) fun name => ∃ call ∈ calls, call.Brings name := by
    refine ⟨h.shared.directories, fun i output hmem => ?_⟩
    rw [h.outputs] at hmem
    exact absurd hmem List.not_mem_nil
  obtain ⟨events, hrecord, hreplays, hwithin⟩ := hnamed.run fun call hmem name hbrings =>
    ⟨call, hmem, hbrings⟩
  refine ⟨events, hrecord, hreplays, fun passed stores hpassed hstores number => ?_⟩
  refine hstores.keeps (fun _ hadds _ hholds => hholds.write hadds)
    (fun event hmem => hwithin event (hpassed.subset hmem)) number ?_
  rw [h.empty]
  exact Volume.holdsFor_empty

/-- As long as no file is moved to the empty name, none has it: whatever strikes the calls to a fresh
site, at every moment each catalog entry and each block key is that of some other name. -/
theorem no_file_without_name {c : Config} (h : site.Fresh c place) (calls : List (Call ι))
    (hrename : ∀ i source, .rename i source "" ∉ calls) :
    let v := Volume.ofConfig c
    let last := (runCalls Site.step site calls).2
    ∃ events, last.wire.record = events.reverse ++ site.wire.record ∧
      Replays events site.wire.store last.wire.store ∧
      ∀ passed stores, passed <+: events → Replays passed site.wire.store stores → ∀ number,
        (∀ field ∈ (stores number).table v.catalogKey, ∃ name, name ≠ "" ∧ field = Utf8.encode name) ∧
          ∀ field ∈ (stores number).table v.blocksKey,
            ∃ name index, name ≠ "" ∧ field = Layout.blockKey name index := by
  intro v last
  have hkeys : v.catalogKey ≠ v.blocksKey := (Volume.proper_ofConfig h.valid).keys_ne
  have hname : ∀ {name : String}, (∃ call ∈ calls, call.Brings name) → name ≠ "" := by
    rintro name ⟨call, hmem, hbrings⟩ rfl
    cases call with
    | create i created => exact hbrings.2 rfl
    | rename i source dest =>
      obtain rfl : dest = "" := hbrings
      exact hrename i source hmem
    | _ => exact hbrings
  obtain ⟨events, hrecord, hreplays, hholds⟩ := names_of_calls h calls
  refine ⟨events, hrecord, hreplays, fun passed stores hpassed hstores number => ?_⟩
  have hstore := hholds passed stores hpassed hstores number
  constructor
  · intro field hmem
    obtain ⟨name, hbrought, ⟨-, hfield⟩ | ⟨hkey, -⟩⟩ := hstore v.catalogKey field hmem
    · exact ⟨name, hname hbrought, hfield⟩
    · exact absurd hkey hkeys
  · intro field hmem
    obtain ⟨name, hbrought, ⟨hkey, -⟩ | ⟨-, index, hfield⟩⟩ := hstore v.blocksKey field hmem
    · exact absurd hkey.symm hkeys
    · exact ⟨name, index, hname hbrought, hfield⟩

/-- Over a cluster, an output without a name is refused, and the length of a file that is not there is
read from a reply that was garbled. -/
theorem no_file_without_name_garbled :
    let backend : Backend := .cluster #v[⟨0, 0, true⟩, ⟨1, 1, true⟩] false
    let v := Volume.ofConfig .standard
    let length := Reply.bulk (Layout.encodeLength 3)
    let site := alone ⟨.standard, 0, [], false⟩ backend
      (Wire.new.arm ⟨.send .execute, Fault.swapped 0 length, 4⟩)
    let calls : List (Call Unit) := [.create () "", .create () "a", .write 0 [1, 2, 3], .close 0,
      .delete () "", .rename () "" "b", .rename () "a" "b"]
    let last := runCalls Site.step site calls
    last.1 = [.refused .argument, .opened 0, .done, .done, .done, .refused .notFound, .done] ∧
      ∀ number,
        (∀ field ∈ (last.2.wire.store number).table v.catalogKey,
          ∃ name, name ≠ "" ∧ field = Utf8.encode name) ∧
        ∀ field ∈ (last.2.wire.store number).table v.blocksKey,
          ∃ name index, name ≠ "" ∧ field = Layout.blockKey name index := by
  intro backend v length site calls last
  obtain ⟨wire, hopen⟩ : ∃ wire, Backend.openCluster [0, 1] Wire.new = .ok backend wire := ⟨_, rfl⟩
  have hfresh : site.Fresh .standard backend.storeOf := fresh_alone rfl (.cluster hopen) fun _ => rfl
  obtain ⟨events, -, hreplays, hnames⟩ := no_file_without_name hfresh calls (by simp [calls])
  exact ⟨by decide +kernel, hnames events _ (List.prefix_refl _) hreplays⟩

/-- A file is moved to the empty name, which no output may have, and is listed under it. -/
theorem renamed_to_no_name :
    let backend : Backend := .single ⟨0, 0, true⟩ false
    let v := Volume.ofConfig .standard
    let site := alone ⟨.standard, 0, [], false⟩ backend Wire.new
    let calls : List (Call Unit) := [.create () "", .create () "a", .write 0 [1, 2, 3], .close 0,
      .rename () "a" "", .list ()]
    let last := runCalls Site.step site calls
    site.Fresh .standard backend.storeOf ∧
      last.1 = [.refused .argument, .opened 0, .done, .done, .done, .names [""]] ∧
      Utf8.encode "" ∈ (last.2.wire.store 0).table v.catalogKey ∧
      Layout.blockKey "" 0 ∈ (last.2.wire.store 0).table v.blocksKey := by
  intro backend v site calls last
  obtain ⟨after, hopen⟩ : ∃ after, Backend.openSingle 0 Wire.new = .ok backend after := ⟨_, rfl⟩
  have hfresh : site.Fresh .standard backend.storeOf := fresh_alone rfl (.single hopen) fun _ => rfl
  exact ⟨hfresh, by decide +kernel, by decide +kernel, by decide +kernel⟩

end Site

end BlockDir
