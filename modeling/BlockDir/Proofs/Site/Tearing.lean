import BlockDir.Proofs.Directory.Overlapping
import BlockDir.Proofs.Site.Racing
import BlockDir.Proofs.Site.Refinement

/-!
# Opening a file while it is overwritten

One directory overwrites a file in a single commit, and others open it meanwhile. Nothing ties the
blocks that they find to the length that they read before, so that what they read may be neither
version: a new version that is at least as long as the old one fills all of its places, and is taken
for it from the first block on that is read after the commit (`Works.opened_amid_overwriting`).
-/

namespace BlockDir

/-- How a name is overwritten: an output is closed on it to which `writes` were written, or another
file is renamed to it. -/
inductive Overwrite where
  | close (writes : List Bytes)
  | rename (source : String)

namespace Overwrite

/-- The overwriting in steps. -/
def staged (d : Directory) (name : String) : Overwrite → Staged Unit
  | close writes => d.closing (d.outputOf name writes)
  | rename source => d.moving source name

/-- Whether a content is what the overwriting brings, where `files` are there. -/
def Brings (files : Files) (name : String) : Overwrite → Bytes → Prop
  | close writes, content => content = writes.flatten ∧ content.length < 2 ^ 64
  | rename source, content => source ≠ name ∧ files[source]? = some content

/-- The files after it. -/
def onFiles (files : Files) (name : String) (content : Bytes) : Overwrite → Files
  | close _ => files.insert name content
  | rename source => (files.insert name content).erase source

variable {files : Files} {name : String} {m : Overwrite} {content : Bytes}

theorem Brings.getElem?_onFiles (h : m.Brings files name content) :
    (m.onFiles files name content)[name]? = some content := by
  cases m with
  | close writes => simp [onFiles]
  | rename source =>
    have hne := h.1
    simp [onFiles, hne]

theorem Brings.overwrites {d : Directory} (hv : d.volume.Proper) (h : m.Brings files name content)
    (place : Bytes → Nat) :
    (m.staged d name).Overwrites d.volume place files (m.onFiles files name content) := by
  cases m with
  | close writes =>
    obtain ⟨rfl, hshort⟩ := h
    obtain ⟨hname, hsize, hcollected⟩ := Directory.outputOf_spec hv name writes
    have hoverwrites : (d.closing (d.outputOf name writes)).Overwrites d.volume place files
        (files.insert (d.outputOf name writes).name writes.flatten) :=
      d.overwrites_closing hv hsize hcollected hshort
    rw [hname] at hoverwrites
    exact hoverwrites
  | rename source => exact d.overwrites_moving hv h.1 h.2

end Overwrite

namespace Site

variable {ι κ : Type} {v : Volume} {place : Bytes → Nat} {site : Site ι κ} {files : Files}

/-- A site that keeps files in tables that are kept together, with truthful reads and whole
transactions. -/
structure Guards (v : Volume) (place : Bytes → Nat) (files : Files) (site : Site ι κ) : Prop where
  keeps : site.Keeps v place files
  truthful : site.wire.Suffers Fault.Truthful
  atomic : site.wire.Suffers Fault.Atomic
  together : ∀ b, (site.backend b).Together v.catalogKey v.blocksKey

theorem Guards.beholds (h : site.Guards v place files) (i : ι) :
    (site.desk i).client.Beholds (site.directory i).volume place files where
  sound := h.keeps.sound i
  truthful := h.truthful
  placed key hkey := h.keeps.placed _ key ((h.keeps.format i).1 ▸ hkey)
  holds := h.keeps.holdsAt i

theorem Guards.whole (h : site.Guards v place files) (i : ι) :
    (site.desk i).client.Whole (site.directory i).volume.keys := by
  rw [(h.keeps.format i).1]
  exact ⟨h.atomic, Backend.together_keys (h.together _)⟩

/-- What remains to be seen once a client worked: which files its tables hold. -/
theorem Guards.leave [DecidableEq ι] [DecidableEq κ] (h : site.Guards v place files) (i : ι)
    {client : Client} (hkept : (site.desk i).client.backend.Kept client.backend)
    (hthreats : client.wire.threats ⊆ site.wire.threats) {files' : Files}
    (hholds : (site.directory i).volume.Holds client.table files') :
    (site.leave i ⟨site.directory i, client⟩).Guards v place files' where
  keeps := h.keeps.leave i ⟨rfl, rfl⟩ hkept hholds
  truthful := h.truthful.mono hthreats
  atomic := h.atomic.mono hthreats
  together b := by
    show (Function.update site.backend _ _ b).Together _ _
    rw [Function.update_apply]
    split
    · exact (hkept.together _ _).2 (h.together _)
    · exact h.together b

end Site

/-- What work has come to, once it is over, unless it failed. -/
def Staged.answer? {α : Type} : Staged α → Option α
  | ended (.ok a) => some a
  | _ => none

namespace Works

variable {ι κ : Type}

/-- One directory overwrites a name, and all others open it and read it out. -/
def overlap [DecidableEq ι] (site : Site ι κ) (name : String) (writer : ι) (m : Overwrite) :
    Works ι κ Answer :=
  ⟨site, fun i =>
    if i = writer then do
      m.staged (site.directory i) name
      return .done
    else do
      return Site.readOut (← (site.directory i).opening name)⟩

/-- The files are overwritten once the phase is past, and not before; until then the writer is still to
do it or has failed, and all others come to their goals. -/
structure Amid (v : Volume) (place : Bytes → Nat) (files : Bool → Files) (writer : ι)
    (goal : ι → Answer → Prop) (phase : Bool) (works : Works ι κ Answer) : Prop where
  guards : works.site.Guards v place (files phase)
  writing : phase = false →
    (works.work writer).Overwrites (works.site.directory writer).volume place (files false) (files true)
  written : phase = true → ∃ result, works.work writer = .ended result
  reading : ∀ i ≠ writer,
    (works.work i).Leads (works.site.directory i).volume place files (fun _ => goal i) phase

variable [DecidableEq ι] [DecidableEq κ] {v : Volume} {place : Bytes → Nat} {files : Bool → Files}
  {writer : ι} {goal : ι → Answer → Prop} {phase : Bool} {works : Works ι κ Answer}

/-- A step of a reader. -/
theorem Amid.step_reader (h : works.Amid v place files writer goal phase) {i : ι} (hi : i ≠ writer) :
    (works.step i).Amid v place files writer goal phase := by
  have hbeholds := h.guards.beholds i
  obtain ⟨hkept, hleads⟩ := (h.reading i hi).advance hbeholds
  refine ⟨?_, ?_, ?_, fun j hj => ?_⟩
  · apply h.guards.leave i hkept.backend hkept.threats
    rw [Client.table_of_place hkept.backend.place hkept.stores]
    exact hbeholds.holds
  · rw [directory_step, work_step, if_neg hi.symm]
    exact h.writing
  · rw [work_step, if_neg hi.symm]
    exact h.written
  · rw [directory_step, work_step]
    split
    · rename_i heq
      rw [heq]
      exact hleads
    · exact h.reading j hj

/-- A step of the writer. -/
theorem Amid.step_writer (h : works.Amid v place files writer goal phase) :
    ∃ later, phase ≤ later ∧ (works.step writer).Amid v place files writer goal later := by
  have hbeholds := h.guards.beholds writer
  have hreading : ∀ later, phase ≤ later → ∀ i ≠ writer, ((works.step writer).work i).Leads
      ((works.step writer).site.directory i).volume place files (fun _ => goal i) later := by
    intro later hle i hi
    rw [directory_step, work_step, if_neg hi]
    exact (h.reading i hi).later (fun _ _ _ _ hgoal => hgoal) hle
  cases phase with
  | false =>
    obtain ⟨hkept, hthreats, hleft⟩ := (h.writing rfl).advance hbeholds (h.guards.whole writer)
    rcases hleft with ⟨hholds, hoverwrites⟩ | ⟨hholds, last, hended⟩
    · refine ⟨false, le_rfl, h.guards.leave writer hkept hthreats hholds, fun _ => ?_,
        fun hno => absurd hno Bool.false_ne_true, hreading _ le_rfl⟩
      rw [directory_step, work_step, if_pos rfl]
      exact hoverwrites
    · refine ⟨true, bot_le, h.guards.leave writer hkept hthreats hholds,
        fun hno => absurd hno.symm Bool.false_ne_true, fun _ => ⟨last, ?_⟩, hreading _ bot_le⟩
      rw [work_step, if_pos rfl]
      exact hended
  | true =>
    obtain ⟨result, hended⟩ := h.written rfl
    have hleft : (works.work writer).advance (works.site.desk writer).client =
        (.ended result, (works.site.desk writer).client) := by
      rw [hended]
      rfl
    refine ⟨true, le_rfl, ?_, fun hno => absurd hno.symm Bool.false_ne_true, fun _ => ⟨result, ?_⟩,
      hreading _ le_rfl⟩
    · have hsite : (works.step writer).site =
          works.site.leave writer ⟨works.site.directory writer, (works.site.desk writer).client⟩ := by
        unfold Works.step
        rw [hleft]
      rw [hsite]
      exact h.guards.leave writer (.refl hbeholds.sound.backend) (fun _ hmem => hmem) hbeholds.holds
    · rw [work_step, if_pos rfl, hleft]

theorem Amid.run (h : works.Amid v place files writer goal phase) (schedule : List ι) :
    ∃ later, (works.run schedule).Amid v place files writer goal later := by
  induction schedule generalizing works phase with
  | nil => exact ⟨phase, h⟩
  | cons i rest ih =>
    by_cases hi : i = writer
    · subst hi
      obtain ⟨later, -, hstep⟩ := h.step_writer
      exact ih hstep
    · exact ih (h.step_reader hi)

variable {site : Site ι κ} {name : String} {m : Overwrite} {old new : Bytes}

omit [DecidableEq κ] in
/-- The overwriting is still to come, and all others are about to open the file. -/
theorem amid_overlap (hv : v.Proper) {files : Files} (h : site.Guards v place files)
    (hold : files[name]? = some old) (hnew : m.Brings files name new) (writer : ι) :
    (overlap site name writer m).Amid v place
      (fun phase => if phase then m.onFiles files name new else files) writer
      (fun i answer => ∃ content, answer = .content content ∧
        (site.directory i).volume.MayRead old new content) false where
  guards := h
  writing _ := by
    have hwork : (overlap site name writer m).work writer = (do
        m.staged (site.directory writer) name
        return .done) := if_pos rfl
    rw [hwork]
    exact (hnew.overwrites (h.keeps.proper hv writer) place).map _
  written hno := absurd hno Bool.false_ne_true
  reading i hi := by
    have hproper := h.keeps.proper hv i
    have hwork : (overlap site name writer m).work i = (do
        return Site.readOut (← (site.directory i).opening name)) := if_neg hi
    rw [hwork]
    apply ((site.directory i).leads_opening hproper hold hnew.getElem?_onFiles).bind
    rintro _ - _ ⟨content, rfl, hcontent⟩
    rw [Site.readOut_new name hproper.blockSize_pos content]
    exact Staged.leads_pure ⟨content, rfl, hcontent⟩

/-- Whenever the one commit of an overwriting falls among the steps of those who open the file, and
whatever fails, what one of them reads is the old version, the new one, or the old one as far as some
first blocks reach and the new one in the place of the others. Only a new version that is at least as
long is mixed in so: it is one of the two if the new version is shorter, if it was only appended to,
or if both are of one length that fits a single block. -/
theorem opened_amid_overwriting (hv : v.Proper) {files : Files} (h : site.Guards v place files)
    (hold : files[name]? = some old) (hnew : m.Brings files name new) (writer : ι)
    (schedule : List ι) {i : ι} (hi : i ≠ writer) {answer : Answer}
    (hanswer : (((overlap site name writer m).run schedule).work i).answer? = some answer) :
    let reader := (site.directory i).volume
    ∃ content, answer = .content content ∧ reader.MayRead old new content ∧
      (new.length < old.length ∨ old <+: new ∨
          old.length = new.length ∧ old.length ≤ reader.blockSize →
        content = old ∨ content = new) := by
  intro reader
  obtain ⟨later, hamid⟩ := (amid_overlap hv h hold hnew writer).run schedule
  have hleads := hamid.reading i hi
  cases hwork : ((overlap site name writer m).run schedule).work i with
  | ended result =>
    rw [hwork] at hleads hanswer
    cases result with
    | ok answer' =>
      obtain rfl : answer' = answer := Option.some.inj hanswer
      obtain ⟨content, hcontent, hmay⟩ := hleads
      exact ⟨content, hcontent, hmay, hmay.eq_or_eq⟩
    | error e => cases hanswer
  | next act rest =>
    rw [hwork] at hanswer
    cases hanswer
  | commit batch interval rest =>
    rw [hwork] at hanswer
    cases hanswer

/-- A file of two blocks that grows by a byte after its first block was read. -/
theorem opened_amid_overwriting_appended :
    let d : Directory := ⟨{ Config.standard with blockSize := 2 }, 0, [], false⟩
    let v := d.volume
    let wire := Wire.new.setStore 0 (Batch.onStores (fun _ => 0)
      (v.saveBatch "a" (v.storedForms [1, 2, 3]) 3 0) Wire.new.store 0)
    let site : Site Bool Unit :=
      ⟨fun _ => d, fun _ => .single ⟨0, 0, true⟩ false, fun _ => (), wire, []⟩
    let works := (overlap site "a" true (.close [[1, 2], [3, 4]])).run
      [false, false, false, false, true, true, false, false, false]
    ∃ content, (works.work false).answer? = some (.content content) ∧
      (content = [1, 2, 3] ∨ content = [1, 2, 3, 4]) := by
  intro d v wire site works
  have hv : v.Proper := Volume.proper_ofConfig (c := { Config.standard with blockSize := 2 }) rfl
  have hempty : v.Holds (fun key => (Wire.new.store 0).table key) ∅ :=
    Volume.holds_empty fun _ => rfl
  have hsaved : v.Holds (fun key => (wire.store 0).table key) ((∅ : Files).insert "a" [1, 2, 3]) := by
    have htables : (fun key => (wire.store 0).table key) =
        Batch.onTables (v.saveBatch "a" (v.storedForms [1, 2, 3]) 3 0)
          (fun key => (Wire.new.store 0).table key) := by
      funext key
      rw [Wire.store_setStore_eq]
      exact Batch.tables_onStores (fun _ => 0) _ _ key
    rw [htables]
    exact hempty.save hv "a" (by decide) (by simp)
  have hguards : site.Guards v (fun _ => 0) ((∅ : Files).insert "a" [1, 2, 3]) := by
    refine ⟨⟨fun _ => ⟨rfl, v.syncInterval, rfl⟩, fun _ _ => rfl, fun _ _ _ => rfl, hsaved⟩,
      Wire.suffers_of_threats_nil rfl _, Wire.suffers_of_threats_nil rfl _, fun _ => ?_⟩
    exact Backend.together_of_one_store BackendKind.noConfusion rfl _ _
  have hanswer : (works.work false).answer? = some (.content [1, 2, 3]) := by decide +kernel
  have hbrings : (Overwrite.close [[1, 2], [3, 4]]).Brings ((∅ : Files).insert "a" [1, 2, 3]) "a"
      [1, 2, 3, 4] := ⟨rfl, by decide⟩
  obtain ⟨content, hcontent, -, hwhole⟩ := opened_amid_overwriting hv hguards
    Std.ExtTreeMap.getElem?_insert_self hbrings true
    [false, false, false, false, true, true, false, false, false] Bool.false_ne_true hanswer
  exact ⟨content, hcontent ▸ hanswer, hwhole (.inr (.inl (by decide)))⟩

/-- A file of two blocks that is overwritten by a longer one after its first block was read: it is
opened as the first block of the old version and the first byte of the second block of the new one. -/
theorem opening_mixes_versions :
    let d : Directory := ⟨{ Config.standard with blockSize := 2, syncInterval := 1 }, 0, [], false⟩
    let v := d.volume
    let wire := Wire.new.setStore 0 (Batch.onStores (fun _ => 0)
      (v.saveBatch "a" (v.storedForms [1, 2, 3]) 3 0) Wire.new.store 0)
    let site : Site Bool Unit :=
      ⟨fun _ => d, fun _ => .single ⟨0, 0, true⟩ false, fun _ => (), wire, []⟩
    let works := overlap site "a" true (.close [[4, 5], [6, 7]])
    ((works.run (.replicate 9 false)).work false).answer? = some (.content [1, 2, 3]) ∧
      ((works.run ([true, true] ++ .replicate 9 false)).work false).answer? =
        some (.content [4, 5, 6, 7]) ∧
      ((works.run (.replicate 5 false ++ [true, true] ++ .replicate 4 false)).work false).answer? =
        some (.content [1, 2, 6]) := by
  decide +kernel

end Works

end BlockDir
