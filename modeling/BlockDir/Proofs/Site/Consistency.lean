import BlockDir.Proofs.Site.Files

/-!
# The two tables always match

Whatever calls the users of a site make, and whatever fails on the way, the block table holds exactly
the blocks of the files in the catalog. Without faults this is so on every backend; with faults, on
those where both tables are reached by one transaction.
-/

namespace BlockDir

namespace Volume

/-- The two tables match: entries are eight bytes wide and stand under names, the fields of the
block table are the keys of the blocks that the entries call for, and each block decodes to exactly
as many bytes as its place in its file calls for. -/
structure Consistent (v : Volume) (tables : Bytes → Table) : Prop where
  names : ∀ field ∈ tables v.catalogKey, ∃ name, field = Utf8.encode name
  widths : ∀ (field stored : Bytes), (tables v.catalogKey)[field]? = some stored → stored.length = 8
  fields : ∀ field, field ∈ tables v.blocksKey ↔
    ∃ name length index, v.lengthIn name tables = .ok (some length) ∧
      index < Layout.blockCount length v.blockSize ∧ field = Layout.blockKey name index
  blocks : ∀ name length index stored, v.lengthIn name tables = .ok (some length) →
    v.blockIn name index tables = some stored → ∃ block,
      v.codec.decode stored = .ok block ∧ block.length = Layout.blockLen length v.blockSize index

variable {v : Volume} {tables : Bytes → Table} {files : Files}

theorem Holds.getElem?_storedForms (hv : v.Proper) {content : Bytes} {index : Nat} {stored : Bytes}
    (h : (v.storedForms content)[index]? = some stored) :
    index < Layout.blockCount content.length v.blockSize ∧ ∃ block,
      v.codec.decode stored = .ok block ∧
        block.length = Layout.blockLen content.length v.blockSize index := by
  have hindex : index < (v.storedForms content).length := (List.getElem?_eq_some_iff.1 h).1
  rw [length_storedForms hv] at hindex
  refine ⟨hindex, ?_⟩
  rw [storedForms, List.getElem?_map, Option.map_eq_some_iff] at h
  obtain ⟨block, hblock, rfl⟩ := h
  have hlength := length_of_getElem?_chunks hv.blockSize_pos hblock
  refine ⟨block, Codec.decode_form v.codec ?_, hlength⟩
  have hle : Layout.blockLen content.length v.blockSize index ≤ v.blockSize := Nat.min_le_right _ _
  have hsize := hv.blockSize_le
  omega

/-- Tables that hold files match. -/
theorem Holds.consistent (hv : v.Proper) (h : v.Holds tables files) : v.Consistent tables := by
  have hlength : ∀ {name length}, v.lengthIn name tables = .ok (some length) →
      ∃ content, files[name]? = some content ∧ content.length = length := by
    intro name length hlength
    rw [h.lengthIn] at hlength
    exact Option.map_eq_some_iff.1 (Except.ok.inj hlength)
  refine ⟨h.entries, fun field stored hstored => ?_, fun field => ⟨fun hmem => ?_, ?_⟩, ?_⟩
  · obtain ⟨name, rfl⟩ := h.entries field (Std.ExtTreeMap.mem_iff_isSome_getElem?.2 (by simp [hstored]))
    have hentry := h.entry name
    rw [entryIn, hstored] at hentry
    obtain ⟨content, -, rfl⟩ := Option.map_eq_some_iff.1 hentry.symm
    exact Layout.length_encodeLength _
  · obtain ⟨name, index, rfl⟩ := h.blocks field hmem
    rw [Std.ExtTreeMap.mem_iff_isSome_getElem?] at hmem
    obtain ⟨stored, hstored⟩ := Option.isSome_iff_exists.1 hmem
    have hblock := h.block name index
    rw [blockIn, hstored] at hblock
    obtain ⟨content, hfile, hform⟩ := Option.bind_eq_some_iff.1 hblock.symm
    refine ⟨name, content.length, index, ?_, (Holds.getElem?_storedForms hv hform).1, rfl⟩
    rw [h.lengthIn, hfile]
    rfl
  · rintro ⟨name, length, index, hentry, hindex, rfl⟩
    obtain ⟨content, hfile, rfl⟩ := hlength hentry
    rw [Std.ExtTreeMap.mem_iff_isSome_getElem?]
    have hblock := h.block name index
    rw [blockIn, hfile, Option.bind_some] at hblock
    rw [← length_storedForms hv] at hindex
    rw [hblock, List.getElem?_eq_getElem hindex]
    rfl
  · intro name length index stored hentry hstored
    obtain ⟨content, hfile, rfl⟩ := hlength hentry
    rw [h.block, hfile, Option.bind_some] at hstored
    exact (Holds.getElem?_storedForms hv hstored).2

end Volume

namespace Site

variable {ι κ : Type} [DecidableEq ι] [DecidableEq κ] {v : Volume} {place : Bytes → Nat}
  {site : Site ι κ} {files : Files} {shelf : Shelf}

/-- On every backend, no fault waits and all keys are served, or mutations are all or nothing. -/
def Reliable (keys : List Bytes) (site : Site ι κ) : Prop :=
  ∀ b, Client.Reliable keys ⟨site.backend b, site.wire, none⟩

/-- No output has come to 2 ^ 64 bytes, which no position could count. -/
def InRange (site : Site ι κ) : Prop :=
  ∀ i output, some (i, output) ∈ site.outputs → output.position < 2 ^ 64

theorem Reliable.leave {keys : List Bytes} (h : site.Reliable keys)
    (hsound : ∀ b, (site.backend b).Sound) (i : ι) {desk : Desk}
    (hlater : (site.desk i).client.Later desk.client) : (site.leave i desk).Reliable keys :=
  forall_leave (P := Client.Reliable keys) Client.Later.reliable h hsound i hlater

/-- A directory that mutates reliably leaves tables that hold files. -/
theorem Keeps.mutate {α : Type} (h : site.Keeps v place files) (hreliable : site.Reliable v.keys)
    (i : ι) {act : ClientM α} {plan : Plan α}
    (hmutates : Client.Mutates (site.directory i).volume.keys act plan)
    (hplan : ∃ files', (site.directory i).volume.Holds
      (Batch.onTables (plan.batch (site.desk i).client.table) (site.desk i).client.table) files')
    (directory : Directory)
    (hdirectory : directory.config = (site.directory i).config ∧
      directory.closed = (site.directory i).closed) :
    let after : Desk := ⟨directory, finalState (act (site.desk i).client)⟩
    (∃ files', (site.leave i after).Keeps v place files') ∧ (site.leave i after).Reliable v.keys := by
  intro after
  rw [(h.format i).1] at hmutates
  obtain ⟨hlater, hstore⟩ := hmutates.reliable (h.sound i) (hreliable _)
  refine ⟨?_, hreliable.leave h.backends i hlater⟩
  rcases hstore with hsame | hall
  · exact ⟨files, h.leave_same i hdirectory hlater.backend.toKept hsame⟩
  · obtain ⟨files', hholds⟩ := hplan
    refine ⟨files', h.leave i hdirectory hlater.backend.toKept ?_⟩
    rw [Client.table_of_onStores hlater.backend.place hall]
    exact hholds

theorem Keeps.consult {α : Type} (h : site.Keeps v place files) (hreliable : site.Reliable v.keys)
    (i : ι) (act : Directory → ClientM α) {f : (Bytes → Table) → Except Error α}
    (hreads : Client.Reads (site.directory i).volume.keys (act (site.directory i)) f)
    (answer : α → Answer) :
    (site.perform i (Desk.onClient act) answer).2.Keeps v place files ∧
      (site.perform i (Desk.onClient act) answer).2.Reliable v.keys ∧
      (site.perform i (Desk.onClient act) answer).2.outputs = site.outputs := by
  rw [(h.format i).1] at hreads
  obtain ⟨hlater, hstore⟩ := hreads.finalState (h.sound i) (hreliable _).truthful
  rw [perform_snd, Desk.finalState_onClient]
  exact ⟨h.leave_same i ⟨rfl, rfl⟩ hlater.backend.toKept hstore,
    hreliable.leave h.backends i hlater, rfl⟩

/-- An output that is closed, and stored if nothing fails. -/
theorem Shows.close (hv : v.Proper) (h : site.Shows v place shelf) (hreliable : site.Reliable v.keys)
    (hrange : site.InRange) (number : Nat) :
    (∃ shelf', (site.step (.close number)).2.Shows v place shelf') ∧
      (site.step (.close number)).2.Reliable v.keys := by
  obtain ⟨hnone, -⟩ | ⟨i, output, content, hsome, -, hsize, hcollected⟩ := h.output? number
  · rw [Site.step, hnone]
    exact ⟨⟨shelf, h⟩, hreliable⟩
  · rw [Site.step, hsome]
    have hshort : content.length < 2 ^ 64 := by
      rw [← hcollected.position]
      exact hrange i output (mem_of_output? hsome)
    obtain ⟨⟨files', hkeeps⟩, hreliable'⟩ := h.keeps.mutate hreliable i
      ((site.directory i).mutates_store output)
      (Directory.holds_storePlan (h.keeps.directories i).1 (h.keeps.proper hv i)
        (h.keeps.holdsAt i) (hsize.trans (h.keeps.format i).2.symm) hcollected hshort)
      ((site.directory i).release output) ⟨rfl, rfl⟩
    have hafter : (site.perform i (Desk.closeOutput output) fun _ => .done).2 = _ :=
      perform_snd ..
    rw [Desk.finalState_closeOutput] at hafter
    refine ⟨⟨⟨files', shelf.outputs.set number none⟩, ?_, ?_⟩, ?_⟩
    · dsimp only
      rw [hafter]
      exact hkeeps.outputs _
    · exact forall₂_set h.outputs number trivial
    · dsimp only
      rw [hafter]
      exact hreliable'

/-- A call leaves a site that shows some shelf, whatever failed. -/
theorem Shows.step (hv : v.Proper) (h : site.Shows v place shelf) (hreliable : site.Reliable v.keys)
    (hrange : site.InRange) (call : Call ι) :
    (∃ shelf', (site.step call).2.Shows v place shelf') ∧
      (site.step call).2.Reliable v.keys := by
  cases call with
  | create i name =>
    obtain ⟨-, hshows, hreliable'⟩ := h.create Client.Later.reliable hreliable i name
    exact ⟨⟨_, hshows⟩, hreliable'⟩
  | write number data =>
    obtain ⟨-, hshows, hreliable'⟩ := h.write Client.Later.reliable hreliable hv number data
    exact ⟨⟨_, hshows⟩, hreliable'⟩
  | close number => exact h.close hv hreliable hrange number
  | drop number =>
    obtain ⟨-, hshows, hreliable'⟩ := h.drop Client.Later.reliable hreliable number
    exact ⟨⟨_, hshows⟩, hreliable'⟩
  | delete i name =>
    obtain ⟨⟨files', hkeeps⟩, hreliable'⟩ := h.keeps.mutate hreliable i
      ((site.directory i).mutates_deleteFile name)
      (Directory.holds_deleteFilePlan (h.keeps.directories i).1 (h.keeps.proper hv i)
        (h.keeps.holdsAt i) name) (site.directory i) ⟨rfl, rfl⟩
    rw [Site.step, perform_snd, Desk.finalState_onClient]
    exact ⟨⟨⟨files', shelf.outputs⟩, hkeeps, h.outputs⟩, hreliable'⟩
  | rename i source dest =>
    obtain ⟨⟨files', hkeeps⟩, hreliable'⟩ := h.keeps.mutate hreliable i
      ((site.directory i).mutates_renameFile source dest)
      (Directory.holds_renameFilePlan (h.keeps.directories i).1 (h.keeps.proper hv i)
        (h.keeps.holdsAt i) source dest) (site.directory i) ⟨rfl, rfl⟩
    rw [Site.step, perform_snd, Desk.finalState_onClient]
    exact ⟨⟨⟨files', shelf.outputs⟩, hkeeps, h.outputs⟩, hreliable'⟩
  | read i name =>
    obtain ⟨hkeeps, hreliable', houtputs⟩ :=
      h.keeps.consult hreliable i (·.openInput name) ((site.directory i).reads_openInput name)
        readOut
    exact ⟨⟨shelf, hkeeps, houtputs ▸ h.outputs⟩, hreliable'⟩
  | list i =>
    obtain ⟨hkeeps, hreliable', houtputs⟩ :=
      h.keeps.consult hreliable i (·.list) (site.directory i).reads_list .names
    exact ⟨⟨shelf, hkeeps, houtputs ▸ h.outputs⟩, hreliable'⟩
  | has i name =>
    obtain ⟨hkeeps, hreliable', houtputs⟩ :=
      h.keeps.consult hreliable i (·.fileExists name)
        ((site.directory i).reads_fileExists name) .truth
    exact ⟨⟨shelf, hkeeps, houtputs ▸ h.outputs⟩, hreliable'⟩
  | length i name =>
    obtain ⟨hkeeps, hreliable', houtputs⟩ :=
      h.keeps.consult hreliable i (·.fileLength name)
        ((site.directory i).reads_fileLength name) .size
    exact ⟨⟨shelf, hkeeps, houtputs ▸ h.outputs⟩, hreliable'⟩

/-- Calls that are made in turn leave a site that shows some shelf. -/
theorem Shows.run (hv : v.Proper) (h : site.Shows v place shelf) (hreliable : site.Reliable v.keys)
    (calls : List (Call ι))
    (hrange : ∀ count, (runCalls Site.step site (calls.take count)).2.InRange) :
    ∃ shelf', (runCalls Site.step site calls).2.Shows v place shelf' := by
  induction calls generalizing site shelf with
  | nil => exact ⟨shelf, h⟩
  | cons call rest ih =>
    obtain ⟨⟨next, hnext⟩, hreliable'⟩ := h.step hv hreliable (hrange 0) call
    exact ih hnext hreliable' fun count => hrange (count + 1)

theorem perform_outputs {α : Type} (site : Site ι κ) (i : ι) (act : DeskM α) (answer : α → Answer) :
    (site.perform i act answer).2.outputs = site.outputs := by
  rw [perform_snd]
  rfl

theorem position_createOutput {name : String} {desk after : Desk} {output : Output}
    (h : Desk.createOutput name desk = .ok output after) : output.position = 0 := by
  rw [Desk.createOutput, Directory.createOutput] at h
  split at h
  · rename_i heq
    split at heq
    · cases heq
    · split at heq
      · cases heq
      · cases heq
        cases h
        rfl
  · cases h

/-- An output grows only by what is written to it. -/
theorem step_positions {bound : Nat}
    (h : ∀ i output, some (i, output) ∈ site.outputs → output.position ≤ bound) (call : Call ι) :
    ∀ i output, some (i, output) ∈ (site.step call).2.outputs →
      output.position ≤ bound + call.size := by
  have hsame : ∀ i output, some (i, output) ∈ site.outputs → output.position ≤ bound + call.size :=
    fun i output hmem => Nat.le_add_right_of_le (h i output hmem)
  have hgone : ∀ number i output, some (i, output) ∈ site.outputs.set number none →
      output.position ≤ bound + call.size := by
    intro number i output hmem
    rcases List.mem_or_eq_of_mem_set hmem with hmem | heq
    · exact hsame i output hmem
    · cases heq
  cases call with
  | create i name =>
    intro j other hmem
    rw [Site.step] at hmem
    split at hmem
    · rename_i output desk hcreate
      rcases List.mem_append.1 hmem with hmem | hmem
      · exact hsame j other hmem
      · obtain ⟨rfl, rfl⟩ := Prod.mk.inj (Option.some.inj (List.mem_singleton.1 hmem))
        rw [position_createOutput hcreate]
        exact Nat.zero_le _
    · exact hsame j other hmem
  | write number data =>
    intro j other hmem
    rw [Site.step] at hmem
    split at hmem
    · exact hsame j other hmem
    · rename_i i output hsome
      have hposition : output.position ≤ bound := h i output (mem_of_output? hsome)
      rcases List.mem_or_eq_of_mem_set hmem with hmem | heq
      · exact hsame j other hmem
      · obtain ⟨rfl, rfl⟩ := Prod.mk.inj (Option.some.inj heq)
        exact Nat.add_le_add_right hposition data.length
  | close number =>
    rw [Site.step]
    split
    · exact hsame
    · exact hgone number
  | drop number =>
    rw [Site.step]
    split
    · exact hsame
    · exact hgone number
  | delete i name | rename i source dest | read i name | list i | has i name | length i name =>
    rw [Site.step, perform_outputs]
    exact hsame

/-- No output is longer than what is written in all. -/
theorem run_positions (calls : List (Call ι)) (bound : Nat)
    (h : ∀ i output, some (i, output) ∈ site.outputs → output.position ≤ bound) :
    ∀ i output, some (i, output) ∈ (runCalls Site.step site calls).2.outputs →
      output.position ≤ bound + (calls.map Call.size).sum := by
  induction calls generalizing site bound with
  | nil => exact h
  | cons call rest ih =>
    intro i output hmem
    have hrest := ih (bound + call.size) (step_positions h call) i output hmem
    rw [List.map_cons, List.sum_cons]
    omega

/-- Outputs stay in range if fewer than 2 ^ 64 bytes are written in all. -/
theorem inRange_of_sizes {calls : List (Call ι)} (hnone : site.outputs = [])
    (hsize : (calls.map Call.size).sum < 2 ^ 64) (count : Nat) :
    (runCalls Site.step site (calls.take count)).2.InRange := by
  intro i output hmem
  have hposition := run_positions (calls.take count) 0 (by simp [hnone]) i output hmem
  have htake : ((calls.take count).map Call.size).sum ≤ (calls.map Call.size).sum := by
    rw [List.map_take]
    exact (List.take_sublist _ _).sum_le_sum (by simp)
  omega

/-- After any calls to the directories of a fresh site, the two tables match, as every directory
sees them: on any backends if nothing fails, and whatever fails if both tables are kept together,
reads are truthful and transactions whole. -/
theorem consistent_of_calls {c : Config} (h : site.Fresh c place)
    (hfaults : site.wire.faults = [] ∨
      site.wire.Suffers Fault.Truthful ∧ site.wire.Suffers Fault.Atomic ∧
        ∀ b, (site.backend b).Together (Volume.ofConfig c).catalogKey (Volume.ofConfig c).blocksKey)
    (calls : List (Call ι))
    (hrange : ∀ count, (runCalls Site.step site (calls.take count)).2.InRange) (i : ι) :
    let last := (runCalls Site.step site calls).2
    (last.directory i).volume.Consistent (last.desk i).client.table := by
  intro last
  have hv := Volume.proper_ofConfig h.valid
  have hreliable : site.Reliable (Volume.ofConfig c).keys := by
    intro b
    rcases hfaults with hnone | ⟨htrue, hatomic, htogether⟩
    · exact .inl ⟨Wire.threats_eq_nil_iff.2 hnone, fun key _ => (h.backends b).ready.2 key⟩
    · exact .inr ⟨htrue, hatomic, Backend.together_keys (htogether b)⟩
  obtain ⟨shelf, hshows⟩ := h.shows.run hv hreliable calls hrange
  exact (hshows.keeps.holdsAt i).consistent (hshows.keeps.proper hv i)

/-- A directory over a pool, with a transaction that is applied and then reported as failed: the
file is there in spite of the report and can be moved, and the tables match. -/
theorem consistent_of_calls_lost_reply :
    let fault : ArmedFault := ⟨.send .transaction, Fault.after, 1⟩
    let site := alone ⟨.standard, 0, [], false⟩ (.pooled ⟨.standard, 0, [], 0, false⟩)
      (Wire.new.arm fault)
    let calls : List (Call Unit) :=
      [.create () "a", .write 0 [1, 2, 3], .close 0, .rename () "a" "b"]
    let last := (runCalls Site.step site calls).2
    (last.directory ()).volume.Consistent (last.desk ()).client.table ∧
      (last.directory ()).volume.entryIn "b" (last.desk ()).client.table =
        some (Layout.encodeLength 3) := by
  intro fault site calls last
  have hopen : Backend.openPooled .standard 0 = .ok (.pooled ⟨.standard, 0, [], 0, false⟩) := rfl
  have hnone : ∀ sort, Wire.new.Suffers sort := Wire.suffers_of_threats_nil rfl
  refine ⟨consistent_of_calls (c := .standard) (fresh_alone rfl (.pooled hopen) fun number => ?_)
    (.inr ⟨(hnone _).arm (Fault.truthful_transaction _), (hnone _).arm ?_, fun _ => ?_⟩) calls
    (inRange_of_sizes rfl (by decide)) (), by decide +kernel⟩
  · rfl
  · intro _ applied error heq
    cases heq
  · have hkind : (Backend.pooled ⟨.standard, 0, [], 0, false⟩).kind ≠ .cluster := by
      intro heq
      cases heq
    exact Backend.together_of_one_store hkind rfl _ _

end Site

end BlockDir
