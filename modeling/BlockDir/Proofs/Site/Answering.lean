import BlockDir.Proofs.Site.Consistency

/-!
# What a site answers

Without faults, the users of a site see a shelf that is wary of large files: a file of more blocks than a
volume allows can be stored, but it is neither read nor removed, and nothing is stored or moved over it
(`Shelf.stepWithin`). Every call is answered as that shelf answers it, whatever the size of the files
(`Site.Shows.step_within`).
-/

namespace BlockDir

namespace Shelf

variable {ι : Type}

/-- Whether a call is refused because of a file of more blocks than a volume of that block size allows. -/
def refuses (size : Nat) (shelf : Shelf) : Call ι → Bool
  | .close number => (shelf.output? number).any fun named => shelf.files.isLarge size named.1
  | .delete _ name | .read _ name => shelf.files.isLarge size name
  | .rename _ source dest =>
    shelf.files.isLarge size source ||
      shelf.files[source]?.isSome && shelf.files.isLarge size dest
  | _ => false

/-- The shelf after a call that was refused. An output that was to be closed is gone. -/
def afterRefusal (shelf : Shelf) : Call ι → Shelf
  | .close number => { shelf with outputs := shelf.outputs.set number none }
  | _ => shelf

/-- The answer to a call, and the shelf after it, where large files are refused. -/
def stepWithin (size : Nat) (shelf : Shelf) (call : Call ι) : Answer × Shelf :=
  if shelf.refuses size call then (.refused .inconsistent, shelf.afterRefusal call)
  else shelf.step call

theorem stepWithin_of_refused {size : Nat} {shelf : Shelf} {call : Call ι}
    (h : shelf.refuses size call = true) :
    shelf.stepWithin size call = (.refused .inconsistent, shelf.afterRefusal call) :=
  if_pos h

theorem stepWithin_of_not_refused {size : Nat} {shelf : Shelf} {call : Call ι}
    (h : shelf.refuses size call = false) : shelf.stepWithin size call = shelf.step call := by
  rw [stepWithin, h, if_neg Bool.false_ne_true]

/-- A shelf without large files refuses no call because of one. -/
theorem refuses_eq_false {size : Nat} {shelf : Shelf} (h : shelf.files.Small size) (call : Call ι) :
    shelf.refuses size call = false := by
  cases call with
  | close number => cases hsome : shelf.output? number <;> simp [refuses, hsome, h.isLarge]
  | delete i name | read i name => exact h.isLarge name
  | rename i source dest => simp [refuses, h.isLarge]
  | create i name | write number data | drop number | list i | has i name | length i name => rfl

/-- Whether an output that a call closes has a length that can be stored. -/
def Fits (shelf : Shelf) : Call ι → Prop
  | .close number => ∀ name content, shelf.output? number = some (name, content) →
    content.length < 2 ^ 64
  | _ => True

end Shelf

namespace Site

variable {ι κ : Type} {v : Volume} {place : Bytes → Nat} {site : Site ι κ} {files : Files}
  {shelf : Shelf}

/-- Nothing stands in the way of any directory. -/
def Steady (keys : List Bytes) (site : Site ι κ) : Prop :=
  ∀ b, Client.Steady keys ⟨site.backend b, site.wire, none⟩

/-- What is answered if an operation comes to `result`. -/
def answerOf {α : Type} (answer : α → Answer) : Except Error α → Answer
  | .ok a => answer a
  | .error e => .refused e.kind

theorem readOut_new (name : String) {n : Nat} (hn : 0 < n) (content : Bytes) :
    readOut (Reader.new name (LoadedFile.ofContent n content)) = .content content := by
  have hbytes := LoadedFile.bytesAt_ofContent hn content 0 content.length (by omega)
  rw [List.drop_zero, List.take_length] at hbytes
  have hlength : (LoadedFile.ofContent n content).length = content.length := rfl
  simp only [readOut, Reader.readBytes, Reader.remaining, Reader.new, Reader.openFile, Nat.sub_zero,
    Nat.lt_irrefl, if_false, Nat.zero_add, hlength, hbytes]

theorem Keeps.inputIn (hv : v.Proper) (h : site.Keeps v place files) (i : ι) (name : String) :
    answerOf readOut ((site.directory i).inputIn name (site.desk i).client.table) =
      if files.isLarge v.blockSize name then .refused .inconsistent
      else match files[name]? with
        | none => .refused .notFound
        | some content => .content content := by
  have hproper := h.proper hv i
  have hclosed := (h.directories i).1
  rw [← (h.format i).2]
  cases hlarge : files.isLarge (site.directory i).volume.blockSize name with
  | true =>
    obtain ⟨damage, hdamage⟩ := Directory.inputIn_of_large hclosed hproper (h.holdsAt i) hlarge
    rw [hdamage]
    rfl
  | false =>
    rw [if_neg Bool.false_ne_true]
    cases hfile : files[name]? with
    | none =>
      have hlength := (h.holdsAt i).lengthIn name
      rw [hfile, Option.map_none] at hlength
      simp only [Directory.inputIn, Directory.ensureOpen, hclosed, hlength, bind, Except.bind,
        Bool.false_eq_true, if_false]
      rfl
    | some content =>
      have hcontent := Files.isLarge_eq_false_iff.1 hlarge content hfile
      rw [Directory.inputIn_of_holds hclosed hproper (h.holdsAt i) hfile hcontent]
      exact readOut_new name hproper.blockSize_pos content

theorem Keeps.namesIn (h : site.Keeps v place files) (i : ι) :
    (site.directory i).namesIn (site.desk i).client.table = .ok files.keys := by
  have hnames := Volume.mergeSort_eq_keys (h.holdsAt i).names_perm
  simp only [Directory.namesIn, Directory.ensureOpen, (h.directories i).1, bind, Except.bind,
    Bool.false_eq_true, if_false, hnames]
  rfl

variable [DecidableEq ι] [DecidableEq κ]

theorem Steady.leave {keys : List Bytes} (h : site.Steady keys)
    (hsound : ∀ b, (site.backend b).Sound) (i : ι) {desk : Desk}
    (hlater : (site.desk i).client.Later desk.client) : (site.leave i desk).Steady keys :=
  forall_leave (P := Client.Steady keys) (fun hkept hclient => hkept.steady hclient) h hsound i hlater

theorem perform_onClient {α : Type} {i : ι} {act : Directory → ClientM α} (result : Except Error α)
    {client : Client} (h : act (site.directory i) (site.desk i).client = give result client)
    (answer : α → Answer) :
    site.perform i (Desk.onClient act) answer =
      (answerOf answer result, site.leave i ⟨site.directory i, client⟩) := by
  have hdesk : act (site.desk i).directory (site.desk i).client = give result client := h
  simp only [perform, Desk.onClient, hdesk]
  cases result <;> rfl

theorem Keeps.consult_eq {α : Type} (h : site.Keeps v place files) (hsteady : site.Steady v.keys)
    (i : ι) (act : Directory → ClientM α) {f : (Bytes → Table) → Except Error α}
    (hreads : Client.Reads (site.directory i).volume.keys (act (site.directory i)) f)
    (answer : α → Answer) :
    ∃ after, site.perform i (Desk.onClient act) answer =
        (answerOf answer (f (site.desk i).client.table), after) ∧
      after.Keeps v place files ∧ after.Steady v.keys ∧ after.outputs = site.outputs := by
  rw [(h.format i).1] at hreads
  obtain ⟨client, hrun, hlater, hstore⟩ := hreads.steady (h.sound i) (hsteady _)
  exact ⟨site.leave i ⟨site.directory i, client⟩, perform_onClient _ hrun answer,
    h.leave_same i ⟨rfl, rfl⟩ hlater.backend.toKept hstore, hsteady.leave h.backends i hlater, rfl⟩

theorem Keeps.carry {α : Type} (h : site.Keeps v place files) (hsteady : site.Steady v.keys) (i : ι)
    {act : ClientM α} {plan : Plan α} {a : α} {batch : Batch} {files' : Files}
    (hmutates : Client.Mutates (site.directory i).volume.keys act plan)
    (hplan : plan (site.desk i).client.table = .ok (a, batch))
    (hholds : (site.directory i).volume.Holds
      (Batch.onTables batch (site.desk i).client.table) files')
    (directory : Directory)
    (hdirectory : directory.config = (site.directory i).config ∧
      directory.closed = (site.directory i).closed) :
    ∃ client, act (site.desk i).client = .ok a client ∧
      (site.leave i ⟨directory, client⟩).Keeps v place files' ∧
      (site.leave i ⟨directory, client⟩).Steady v.keys := by
  rw [(h.format i).1] at hmutates
  obtain ⟨client, hrun, hlater, hstore⟩ := hmutates.steady (h.sound i) (hsteady _)
  rw [Plan.answer, hplan] at hrun
  rw [Plan.onStores, Plan.batch, hplan] at hstore
  refine ⟨client, hrun, h.leave i hdirectory hlater.backend.toKept ?_, hsteady.leave h.backends i hlater⟩
  rw [Client.table_of_onStores hlater.backend.place hstore]
  exact hholds

/-- What is refused changes nothing. -/
theorem Keeps.refuse {α : Type} (h : site.Keeps v place files) (hsteady : site.Steady v.keys) (i : ι)
    {act : ClientM α} {plan : Plan α} {e : Error}
    (hmutates : Client.Mutates (site.directory i).volume.keys act plan)
    (hplan : plan (site.desk i).client.table = .error e) (directory : Directory)
    (hdirectory : directory.config = (site.directory i).config ∧
      directory.closed = (site.directory i).closed) :
    ∃ client, act (site.desk i).client = .error e client ∧
      (site.leave i ⟨directory, client⟩).Keeps v place files ∧
      (site.leave i ⟨directory, client⟩).Steady v.keys := by
  rw [(h.format i).1] at hmutates
  obtain ⟨client, hrun, hlater, hstore⟩ := hmutates.steady (h.sound i) (hsteady _)
  rw [Plan.answer, hplan] at hrun
  rw [Plan.onStores, Plan.batch, hplan] at hstore
  exact ⟨client, hrun, h.leave_same i hdirectory hlater.backend.toKept hstore,
    hsteady.leave h.backends i hlater⟩

/-- The site answers a call as a shelf does that is wary of large files, and shows the shelf as it is
then. -/
def FollowsWithin (v : Volume) (place : Bytes → Nat) (site : Site ι κ) (shelf : Shelf)
    (call : Call ι) : Prop :=
  (site.step call).1 = (shelf.stepWithin v.blockSize call).1 ∧
    (site.step call).2.Shows v place (shelf.stepWithin v.blockSize call).2 ∧
    (site.step call).2.Steady v.keys

/-- Calls that are not about large files are answered by all shelves alike. -/
theorem Follows.within {call : Call ι} (h : site.Follows v place (Client.Steady v.keys) shelf call)
    (hrefuses : shelf.refuses v.blockSize call = false) : site.FollowsWithin v place shelf call := by
  rw [FollowsWithin, Shelf.stepWithin_of_not_refused hrefuses]
  exact h

/-- An output that is closed is stored as the content that was written to it, unless a large file is in
its way. -/
theorem Shows.close_within (hv : v.Proper) (h : site.Shows v place shelf) (hsteady : site.Steady v.keys)
    (number : Nat) (hfits : shelf.Fits (.close number : Call ι)) :
    site.FollowsWithin v place shelf (.close number) := by
  obtain ⟨hnone, hnone'⟩ | ⟨i, output, content, hsome, hsome', hsize, hcollected⟩ := h.output? number
  · have hrefuses : shelf.refuses v.blockSize (.close number : Call ι) = false := by
      rw [Shelf.refuses, hnone', Option.any_none]
    refine Follows.within ?_ hrefuses
    rw [Follows, Site.step, Shelf.step, hnone, hnone']
    exact ⟨rfl, h, hsteady⟩
  · have hformat := (h.keeps.format i).2
    have hsize' := hsize.trans hformat.symm
    have hopen := (h.keeps.directories i).1
    have hproper := h.keeps.proper hv i
    have hrun : ∀ (result : Except Error Unit) (client : Client),
        (site.directory i).store output (site.desk i).client = give result client →
        site.perform i (Desk.closeOutput output) (fun _ => .done) =
          (answerOf (fun _ => .done) result,
            site.leave i ⟨(site.directory i).release output, client⟩) := by
      intro result client hstore
      have hdesk : (site.desk i).directory.store output (site.desk i).client = give result client :=
        hstore
      simp only [perform, Desk.closeOutput, hdesk]
      cases result <;> rfl
    have hrefuses : shelf.refuses v.blockSize (.close number : Call ι) =
        shelf.files.isLarge (site.directory i).volume.blockSize output.name := by
      rw [Shelf.refuses, hsome', Option.any_some, hformat]
    cases hlarge : shelf.files.isLarge (site.directory i).volume.blockSize output.name with
    | true =>
      rw [FollowsWithin, Shelf.stepWithin_of_refused (hrefuses.trans hlarge), Site.step, hsome]
      obtain ⟨damage, hplan⟩ := Directory.storePlan_of_large hopen hproper (h.keeps.holdsAt i) hlarge
        hsize' hcollected
      obtain ⟨client, hstore, hkeeps, hsteady'⟩ := h.keeps.refuse hsteady i
        ((site.directory i).mutates_store output) hplan ((site.directory i).release output) ⟨rfl, rfl⟩
      simp only [hrun (.error _) client hstore]
      exact ⟨rfl, ⟨hkeeps.outputs _, forall₂_set h.outputs number trivial⟩, hsteady'⟩
    | false =>
      refine Follows.within ?_ (hrefuses.trans hlarge)
      rw [Follows, Site.step, Shelf.step, hsome, hsome']
      obtain ⟨batch, hplan, hholds⟩ := Directory.storePlan_carried hopen hproper (h.keeps.holdsAt i)
        hlarge hsize' hcollected (hfits _ _ hsome')
      obtain ⟨client, hstore, hkeeps, hsteady'⟩ := h.keeps.carry hsteady i
        ((site.directory i).mutates_store output) hplan hholds
        ((site.directory i).release output) ⟨rfl, rfl⟩
      simp only [hrun (.ok ()) client hstore]
      exact ⟨rfl, ⟨hkeeps.outputs _, forall₂_set h.outputs number trivial⟩, hsteady'⟩

theorem Shows.delete_within (hv : v.Proper) (h : site.Shows v place shelf)
    (hsteady : site.Steady v.keys) (i : ι) (name : String) :
    site.FollowsWithin v place shelf (.delete i name) := by
  have hopen := (h.keeps.directories i).1
  have hrefuses : shelf.refuses v.blockSize (.delete i name) =
      shelf.files.isLarge (site.directory i).volume.blockSize name := by
    rw [Shelf.refuses, (h.keeps.format i).2]
  cases hlarge : shelf.files.isLarge (site.directory i).volume.blockSize name with
  | true =>
    rw [FollowsWithin, Shelf.stepWithin_of_refused (hrefuses.trans hlarge), Site.step]
    obtain ⟨damage, hplan⟩ :=
      Directory.deleteFilePlan_of_large hopen (h.keeps.proper hv i) (h.keeps.holdsAt i) hlarge
    obtain ⟨client, hrun, hkeeps, hsteady'⟩ := h.keeps.refuse hsteady i
      ((site.directory i).mutates_deleteFile name) hplan (site.directory i) ⟨rfl, rfl⟩
    rw [perform_onClient (.error _) hrun]
    exact ⟨rfl, ⟨hkeeps, h.outputs⟩, hsteady'⟩
  | false =>
    refine Follows.within ?_ (hrefuses.trans hlarge)
    obtain ⟨batch, hplan, hholds⟩ :=
      Directory.deleteFilePlan_carried hopen (h.keeps.proper hv i) (h.keeps.holdsAt i) hlarge
    obtain ⟨client, hrun, hkeeps, hsteady'⟩ := h.keeps.carry hsteady i
      ((site.directory i).mutates_deleteFile name) hplan hholds (site.directory i) ⟨rfl, rfl⟩
    rw [Follows, Site.step, Shelf.step, perform_onClient (.ok ()) hrun]
    exact ⟨rfl, ⟨hkeeps, h.outputs⟩, hsteady'⟩

/-- A file that is renamed takes the place of the one that had the name, if neither is large; a file that
is not there cannot be renamed. -/
theorem Shows.rename_within (hv : v.Proper) (h : site.Shows v place shelf)
    (hsteady : site.Steady v.keys) (i : ι) (source dest : String) :
    site.FollowsWithin v place shelf (.rename i source dest) := by
  have hopen := (h.keeps.directories i).1
  have hproper := h.keeps.proper hv i
  have hholds := h.keeps.holdsAt i
  cases hfile : shelf.files[source]? with
  | none =>
    have hrefuses : shelf.refuses v.blockSize (.rename i source dest) = false := by
      simp only [Shelf.refuses, Files.isLarge, hfile, Option.any_none, Option.isSome_none,
        Bool.false_and, Bool.or_false]
    refine Follows.within ?_ hrefuses
    have hplan := Directory.renameFilePlan_eq hopen hproper hholds source dest
    rw [hfile] at hplan
    obtain ⟨client, hrun, hkeeps, hsteady'⟩ := h.keeps.refuse hsteady i
      ((site.directory i).mutates_renameFile source dest) hplan (site.directory i) ⟨rfl, rfl⟩
    rw [Follows, Site.step, Shelf.step, perform_onClient (.error _) hrun, hfile]
    exact ⟨rfl, ⟨hkeeps, h.outputs⟩, hsteady'⟩
  | some content =>
    have hrefuses : shelf.refuses v.blockSize (.rename i source dest) =
        (shelf.files.isLarge (site.directory i).volume.blockSize source ||
          shelf.files.isLarge (site.directory i).volume.blockSize dest) := by
      simp only [Shelf.refuses, (h.keeps.format i).2, hfile, Option.isSome_some, Bool.true_and]
    cases hlarge : (shelf.files.isLarge (site.directory i).volume.blockSize source ||
        shelf.files.isLarge (site.directory i).volume.blockSize dest) with
    | true =>
      rw [FollowsWithin, Shelf.stepWithin_of_refused (hrefuses.trans hlarge), Site.step]
      obtain ⟨damage, hplan⟩ :=
        Directory.renameFilePlan_of_large hopen hproper hholds hfile (Bool.or_eq_true_iff.1 hlarge)
      obtain ⟨client, hrun, hkeeps, hsteady'⟩ := h.keeps.refuse hsteady i
        ((site.directory i).mutates_renameFile source dest) hplan (site.directory i) ⟨rfl, rfl⟩
      rw [perform_onClient (.error _) hrun]
      exact ⟨rfl, ⟨hkeeps, h.outputs⟩, hsteady'⟩
    | false =>
      refine Follows.within ?_ (hrefuses.trans hlarge)
      obtain ⟨hsource, hdest⟩ := Bool.or_eq_false_iff.1 hlarge
      obtain ⟨batch, hplan, hcarried⟩ :=
        Directory.renameFilePlan_carried hopen hproper hholds hfile hsource hdest
      obtain ⟨client, hrun, hkeeps, hsteady'⟩ := h.keeps.carry hsteady i
        ((site.directory i).mutates_renameFile source dest) hplan hcarried (site.directory i)
        ⟨rfl, rfl⟩
      rw [Follows, Site.step, Shelf.step, perform_onClient (.ok ()) hrun, hfile]
      by_cases hsame : source = dest
      · simp only [if_pos hsame] at hkeeps ⊢
        exact ⟨rfl, ⟨hkeeps, h.outputs⟩, hsteady'⟩
      · simp only [if_neg hsame] at hkeeps ⊢
        exact ⟨rfl, ⟨hkeeps, h.outputs⟩, hsteady'⟩

/-- Without faults, a call is answered as the shelf answers it that is wary of large files. -/
theorem Shows.step_within (hv : v.Proper) (h : site.Shows v place shelf) (hsteady : site.Steady v.keys)
    (call : Call ι) (hfits : shelf.Fits call) : site.FollowsWithin v place shelf call := by
  cases call with
  | create i name => exact (h.create Client.Later.steady hsteady i name).within rfl
  | write number data => exact (h.write Client.Later.steady hsteady hv number data).within rfl
  | close number => exact h.close_within hv hsteady number hfits
  | drop number => exact (h.drop Client.Later.steady hsteady number).within rfl
  | delete i name => exact h.delete_within hv hsteady i name
  | rename i source dest => exact h.rename_within hv hsteady i source dest
  | read i name =>
    obtain ⟨after, hrun, hkeeps, hsteady', houtputs⟩ := h.keeps.consult_eq hsteady i (·.openInput name)
      ((site.directory i).reads_openInput name) readOut
    have hshows : after.Shows v place shelf := ⟨hkeeps, houtputs ▸ h.outputs⟩
    have hrefuses : shelf.refuses v.blockSize (.read i name) = shelf.files.isLarge v.blockSize name := rfl
    rw [h.keeps.inputIn hv i name] at hrun
    cases hlarge : shelf.files.isLarge v.blockSize name with
    | true =>
      rw [hlarge] at hrun
      rw [FollowsWithin, Shelf.stepWithin_of_refused (hrefuses.trans hlarge), Site.step, hrun]
      exact ⟨rfl, hshows, hsteady'⟩
    | false =>
      rw [hlarge] at hrun
      refine Follows.within ?_ (hrefuses.trans hlarge)
      rw [Follows, Site.step, hrun, Shelf.step]
      cases shelf.files[name]? <;> exact ⟨rfl, hshows, hsteady'⟩
  | list i =>
    obtain ⟨after, hrun, hkeeps, hsteady', houtputs⟩ :=
      h.keeps.consult_eq hsteady i (·.list) (site.directory i).reads_list .names
    refine Follows.within ?_ rfl
    rw [Follows, Site.step, hrun, h.keeps.namesIn]
    exact ⟨rfl, ⟨hkeeps, houtputs ▸ h.outputs⟩, hsteady'⟩
  | has i name =>
    obtain ⟨after, hrun, hkeeps, hsteady', houtputs⟩ := h.keeps.consult_eq hsteady i
      (·.fileExists name) ((site.directory i).reads_fileExists name) .truth
    refine Follows.within ?_ rfl
    rw [Follows, Site.step, hrun]
    refine ⟨?_, ⟨hkeeps, houtputs ▸ h.outputs⟩, hsteady'⟩
    simp only [Directory.ensureOpen, (h.keeps.directories i).1, bind, Except.bind,
      Bool.false_eq_true, if_false, (h.keeps.holdsAt i).mem_catalog]
    rfl
  | length i name =>
    obtain ⟨after, hrun, hkeeps, hsteady', houtputs⟩ := h.keeps.consult_eq hsteady i
      (·.fileLength name) ((site.directory i).reads_fileLength name) .size
    refine Follows.within ?_ rfl
    rw [Follows, Site.step, hrun]
    refine ⟨?_, ⟨hkeeps, houtputs ▸ h.outputs⟩, hsteady'⟩
    simp only [Directory.ensureOpen, (h.keeps.directories i).1, bind, Except.bind,
      Bool.false_eq_true, if_false, (h.keeps.holdsAt i).lengthIn]
    rfl

end Site

end BlockDir
