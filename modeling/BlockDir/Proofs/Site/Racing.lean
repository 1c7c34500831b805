import BlockDir.Proofs.Backend.Requests
import BlockDir.Proofs.Backend.Courses
import BlockDir.Proofs.Directory.Appearing
import BlockDir.Proofs.Directory.Staging
import BlockDir.Proofs.Site.Files

/-!
# Directories that race for a name

Several directories close outputs on one name or delete it, step by step and in any order
(`Works.run`), so that the length that one of them read may be long outdated when it commits. What it
commits is made of its own content all the same, and only the number of stale blocks depends on what
it read; that number decides which blocks are left behind the file, but not what is read of it. So the
last commit wins (`Works.last_commit_wins`).
-/

namespace BlockDir

open Client

namespace Staged

variable {α β : Type} {keys : List Bytes} {sort : Batch → Prop}

/-- The batch that the next step commits, if it commits one. -/
def batch? : Staged α → Option Batch
  | ended _ => none
  | next _ _ => none
  | commit batch _ _ => some batch

/-- Work that only reads until it commits a batch of a sort, and is over then, well if the commit
succeeded. -/
def Prepares (keys : List Bytes) (sort : Batch → Prop) : Staged α → Prop
  | ended _ => True
  | next act rest => (∃ f, Reads keys act f) ∧ ∀ result, (rest result).Prepares keys sort
  | commit batch _ rest => sort batch ∧ (∃ a, rest (.ok ()) = ended (.ok a)) ∧
    ∀ e, rest (.error e) = ended (.error e)

theorem prepares_settle (result : Except Error α) {g : α → Staged β}
    (hg : ∀ a, (g a).Prepares keys sort) : (settle result >>= g).Prepares keys sort := by
  cases result with
  | ok a => exact hg a
  | error e => trivial

theorem prepares_step {act : ClientM α} {f : (Bytes → Table) → Except Error α}
    (hact : Reads keys act f) {g : α → Staged β} (hg : ∀ a, (g a).Prepares keys sort) :
    (step act >>= g).Prepares keys sort := by
  refine ⟨⟨f, hact⟩, fun result => ?_⟩
  cases result with
  | ok a => exact hg a
  | error e => trivial

theorem prepares_send {batch : Batch} (h : sort batch) (interval : Nat) (a : α) :
    (do send batch interval; return a : Staged α).Prepares keys sort :=
  ⟨h, ⟨a, rfl⟩, fun _ => rfl⟩

theorem Prepares.map {work : Staged α} (h : work.Prepares keys sort) (f : α → β) :
    (do return f (← work) : Staged β).Prepares keys sort := by
  induction work with
  | ended result => cases result <;> trivial
  | next act rest ih => exact ⟨h.1, fun result => ih result (h.2 result)⟩
  | commit batch interval rest ih =>
    obtain ⟨hsort, ⟨a, hok⟩, herror⟩ := h
    refine ⟨hsort, ⟨f a, ?_⟩, fun e => ?_⟩
    · show (rest (.ok ())).bind _ = _
      rw [hok]
      rfl
    · show (rest (.error e)).bind _ = _
      rw [herror]
      rfl

/-- A step without faults: what is left prepares the same, and a commit is carried out. -/
theorem Prepares.advance {work : Staged α} (h : work.Prepares keys sort) {client : Client}
    (hready : client.Ready) :
    (work.advance client).1.Prepares keys sort ∧ client.Later (work.advance client).2 ∧
      ∀ batch, work.batch? = some batch → sort batch ∧
        (∃ a, (work.advance client).1 = ended (.ok a)) ∧
        (work.advance client).2.wire.store =
          Batch.onStores client.backend.storeOf batch client.wire.store := by
  cases work with
  | ended result => exact ⟨trivial, .refl hready.sound, fun batch hbatch => nomatch hbatch⟩
  | next act rest =>
    obtain ⟨⟨f, hreads⟩, hrest⟩ := h
    have hnone := Wire.suffers_of_threats_nil hready.threats Fault.Truthful
    exact ⟨hrest _, (hreads.finalState hready.sound hnone).1, fun batch hbatch => nomatch hbatch⟩
  | commit batch interval rest =>
    obtain ⟨hsort, ⟨a, hok⟩, -⟩ := h
    obtain ⟨after, hcommit, hlater, hstore⟩ := commit_steady batch interval hready
    simp only [Staged.advance, hcommit, outcome, finalState, hok]
    refine ⟨trivial, hlater, ?_⟩
    rintro _ ⟨⟩
    exact ⟨hsort, ⟨a, rfl⟩, hstore⟩

end Staged

/-! ## Tasks -/

/-- What is to become of a name: an output is closed on it to which `writes` were written, or it is
deleted. -/
inductive Task where
  | close (writes : List Bytes)
  | delete

namespace Task

/-- The task in steps. -/
def staged (d : Directory) (name : String) : Task → Staged Unit
  | close writes => d.closing (d.outputOf name writes)
  | delete => d.deleting name

/-- What the task may commit: its own content and entry, or the removal of the entry, whatever
number of blocks it takes for stale. -/
def Commits (v : Volume) (name : String) : Task → Batch → Prop
  | close writes, batch => ∃ stale,
    batch = v.saveBatch name (v.storedForms writes.flatten) writes.flatten.length stale
  | delete, batch => ∃ count, batch = v.deleteBatch name count

/-- Whether the name is found as the task is to leave it: as the whole of what was written, or not
at all. -/
def Found (d : Directory) (client : Client) (name : String) : Task → Prop
  | close writes => d.ReadsAs client name writes.flatten
  | delete => outcome (d.openInput name client) = .error (.missing (.input name))

/-- The blocks of an output are within the limit. -/
def Small (v : Volume) : Task → Prop
  | close writes =>
    Layout.blockCount writes.flatten.length v.blockSize ≤ Layout.maxBlocks
  | delete => True

variable {v : Volume} {name : String} {task : Task} {batch : Batch}

theorem Commits.ne_nil (h : task.Commits v name batch) : batch ≠ [] := by
  cases task with
  | close writes =>
    obtain ⟨stale, rfl⟩ := h
    exact Volume.saveBatch_ne_nil _ _ _ _
  | delete =>
    obtain ⟨count, rfl⟩ := h
    exact Volume.deleteBatch_ne_nil _ _

theorem Commits.keys (h : task.Commits v name batch) : ∀ w ∈ batch, w.key ∈ v.keys := by
  intro w hmem
  cases task with
  | close writes =>
    obtain ⟨stale, rfl⟩ := h
    exact Volume.key_of_mem_saveBatch hmem
  | delete =>
    obtain ⟨count, rfl⟩ := h
    exact Volume.key_of_mem_deleteBatch hmem

/-- Whatever is read first, what a task commits is told by the task up to the number of stale
blocks. -/
theorem prepares_staged {d : Directory} (hv : d.volume.Proper) (name : String) (task : Task) :
    (task.staged d name).Prepares d.volume.keys (task.Commits d.volume name) := by
  cases task with
  | close writes =>
    obtain ⟨hname, hsize, hcollected⟩ := Directory.outputOf_spec hv name writes
    apply Staged.prepares_settle
    intro _
    rw [hname, hcollected.position, hcollected.blocks, hsize, Volume.saving_chunks hv]
    apply Staged.prepares_step (d.volume.reads_length? name)
    intro previous
    apply Staged.prepares_settle
    intro stale
    exact ⟨⟨stale, rfl⟩, ⟨(), rfl⟩, fun _ => rfl⟩
  | delete =>
    apply Staged.prepares_settle
    intro _
    apply Staged.Prepares.map
    apply Staged.prepares_step (d.volume.reads_length? name)
    intro previous
    cases previous with
    | none => trivial
    | some length =>
      apply Staged.prepares_settle
      intro count
      exact Staged.prepares_send ⟨count, rfl⟩ _ _

/-- After its commit, whatever was there before, the name is found as the task is to leave it. -/
theorem Commits.found {d : Directory} (hv : d.volume.Proper) (hopen : d.closed = false)
    (h : task.Commits d.volume name batch) (hsmall : task.Small d.volume) {client : Client}
    (hready : client.Ready) {tables : Bytes → Table}
    (htables : d.volume.Agree name client.table (Batch.onTables batch tables)) :
    task.Found d client name := by
  cases task with
  | close writes =>
    obtain ⟨stale, rfl⟩ := h
    apply Directory.readsAs_of_steady hready.sound (hready.steady _)
    apply Directory.readsIn_of_agree htables
    exact Directory.readsIn_saveBatch hv hopen hsmall name stale
  | delete =>
    obtain ⟨count, rfl⟩ := h
    have hnone : d.volume.entryIn name client.table = none := by
      rw [htables.entryIn, Volume.entryIn_deleteBatch hv.keys_ne, if_pos rfl]
    have hinput : d.inputIn name client.table = .error (.missing (.input name)) := by
      simp [Directory.inputIn, Directory.ensureOpen, hopen, Volume.lengthIn, hnone, bind, Except.bind,
        pure, Except.pure, throw, throwThe, MonadExceptOf.throw]
    obtain ⟨after, hok, -⟩ := (d.reads_openInput name).steady hready.sound (hready.steady _)
    show outcome (d.openInput name client) = _
    rw [hok, hinput]
    rfl

end Task

/-- The directories of a site, with what each of them has left to do. -/
structure Works (ι κ α : Type) where
  site : Site ι κ
  work : ι → Staged α

namespace Works

variable {ι κ α : Type}

/-- One directory goes on by a step. -/
def step [DecidableEq ι] [DecidableEq κ] (works : Works ι κ α) (i : ι) : Works ι κ α :=
  let (left, client) := (works.work i).advance (works.site.desk i).client
  ⟨works.site.leave i ⟨works.site.directory i, client⟩, Function.update works.work i left⟩

/-- The directories go on as a schedule says. -/
def run [DecidableEq ι] [DecidableEq κ] (works : Works ι κ α) (schedule : List ι) : Works ι κ α :=
  schedule.foldl step works

theorem directory_step [DecidableEq ι] [DecidableEq κ] (works : Works ι κ α) (i : ι) :
    (works.step i).site.directory = works.site.directory :=
  Function.update_eq_self i works.site.directory

theorem work_step [DecidableEq ι] [DecidableEq κ] (works : Works ι κ α) (i j : ι) :
    (works.step i).work j =
      if j = i then ((works.work i).advance (works.site.desk i).client).1 else works.work j :=
  Function.update_apply ..

/-- Directories that set about a task each, all on one name. -/
def start (site : Site ι κ) (name : String) (tasks : ι → Task) : Works ι κ Unit :=
  ⟨site, fun i => (tasks i).staged (site.directory i) name⟩

/-! ## Races -/

/-- Directories of one format in whose way nothing is, each of which may still commit what its task
says and nothing else. Both tables are kept together. -/
structure Races (v : Volume) (place : Bytes → Nat) (name : String) (tasks : ι → Task)
    (works : Works ι κ Unit) : Prop where
  shared : works.site.Shared v place
  clients : ∀ b, Client.Ready ⟨works.site.backend b, works.site.wire, none⟩ ∧
    (works.site.backend b).Together v.catalogKey v.blocksKey
  prepared : ∀ i, (works.work i).Prepares v.keys ((tasks i).Commits v name)

variable {v : Volume} {place : Bytes → Nat} {name : String} {tasks : ι → Task}

theorem races_start (hv : v.Proper) {site : Site ι κ} (h : site.Shared v place)
    (hclients : ∀ b, Client.Ready ⟨site.backend b, site.wire, none⟩ ∧
      (site.backend b).Together v.catalogKey v.blocksKey) (name : String) (tasks : ι → Task) :
    (start site name tasks).Races v place name tasks := by
  refine ⟨h, hclients, fun i => ?_⟩
  obtain ⟨-, interval, hvolume⟩ := h.directories i
  have hprepares := Task.prepares_staged (h.proper hv i) name (tasks i)
  rw [hvolume] at hprepares
  exact hprepares

/-- What a step of one directory leaves. -/
theorem Races.advance {works : Works ι κ Unit} (h : works.Races v place name tasks) (i : ι) :
    let client := (works.site.desk i).client
    let left := (works.work i).advance client
    left.1.Prepares v.keys ((tasks i).Commits v name) ∧ client.Later left.2 ∧
      ∀ batch, (works.work i).batch? = some batch → (tasks i).Commits v name batch ∧
        (∃ a, left.1 = .ended (.ok a)) ∧
        left.2.wire.store = Batch.onStores client.backend.storeOf batch client.wire.store :=
  (h.prepared i).advance (h.clients (works.site.serving i)).1

variable [DecidableEq ι] [DecidableEq κ]

/-- No step ends a race. -/
theorem Races.step {works : Works ι κ Unit} (h : works.Races v place name tasks) (i : ι) :
    (works.step i).Races v place name tasks := by
  obtain ⟨hleft, hlater, -⟩ := h.advance i
  refine ⟨h.shared.leave i ⟨rfl, rfl⟩ hlater.backend.toKept, ?_, fun j => ?_⟩
  · apply Site.forall_leave (P := fun client =>
      client.Ready ∧ client.backend.Together v.catalogKey v.blocksKey) _ h.clients
      h.shared.backends i hlater
    intro before after hlater hbefore
    exact ⟨hlater.ready hbefore.1, (hlater.backend.together _ _).2 hbefore.2⟩
  · rw [work_step]
    split
    · rename_i heq
      rw [heq]
      exact hleft
    · exact h.prepared j

theorem Races.run {works : Works ι κ Unit} (h : works.Races v place name tasks)
    (schedule : List ι) : (works.run schedule).Races v place name tasks := by
  induction schedule generalizing works with
  | nil => exact h
  | cons i rest ih => exact ih (h.step i)

/-- A commit leaves the name, to all directories, as its task is to leave it. -/
theorem Races.commit (hv : v.Proper) {works : Works ι κ Unit} (h : works.Races v place name tasks)
    {i : ι} (hsmall : (tasks i).Small v) {batch : Batch}
    (hbatch : (works.work i).batch? = some batch) (j : ι) :
    let after := works.step i
    (tasks i).Found (after.site.directory j) (after.site.desk j).client name := by
  intro after
  obtain ⟨-, -, hcommit⟩ := h.advance i
  obtain ⟨hcommits, -, hstores⟩ := hcommit batch hbatch
  have hafter := h.step i
  obtain ⟨hopen, interval, hvolume⟩ := hafter.shared.directories j
  have htables : ∀ key ∈ v.keys, (after.site.desk j).client.table key =
      Batch.onTables batch (works.site.desk i).client.table key := by
    intro key hkey
    rw [← hafter.shared.table j key hkey, Site.tablesAt, ← h.shared.placed (works.site.serving i) key
      hkey]
    show (((works.work i).advance (works.site.desk i).client).2.wire.store _).table key = _
    rw [hstores]
    exact Batch.tables_onStores _ _ _ _
  have hready := (hafter.clients (after.site.serving j)).1
  have hcommitted : (tasks i).Commits (after.site.directory j).volume name batch := by
    rw [hvolume]
    exact hcommits
  apply hcommitted.found (hafter.shared.proper hv j) hopen _ hready
  · rw [hvolume]
    exact Volume.agree_of_keys htables
  · rw [hvolume]
    exact hsmall

/-- Any number of outputs that are closed on one name and of deletions of it, by directories of one
format on tables that are kept together, in any order of their reads and commits: every commit is one
transaction and succeeds, and right after it every directory finds the name as the task of that commit
is to leave it. What other versions left behind, and how old the length is that was read for the
commit, does not matter. -/
theorem last_commit_wins (hv : v.Proper) {site : Site ι κ} (h : site.Shared v place)
    (hready : ∀ b, Client.Ready ⟨site.backend b, site.wire, none⟩)
    (htogether : ∀ b, (site.backend b).Together v.catalogKey v.blocksKey) (name : String)
    (tasks : ι → Task) (hsmall : ∀ i, (tasks i).Small v) (schedule : List ι) (i : ι) {batch : Batch}
    (hbatch : (((start site name tasks).run schedule).work i).batch? = some batch) :
    let before := (start site name tasks).run schedule
    let after := before.step i
    (∀ interval, (before.site.desk i).client.backend.legs interval batch = [.whole batch]) ∧
      after.work i = .ended (.ok ()) ∧
      ∀ j, (tasks i).Found (after.site.directory j) (after.site.desk j).client name := by
  intro before after
  have hraces : before.Races v place name tasks :=
    (races_start hv h (fun b => ⟨hready b, htogether b⟩) name tasks).run schedule
  obtain ⟨-, -, hcommit⟩ := hraces.advance i
  obtain ⟨hcommits, ⟨⟨⟩, hended⟩, -⟩ := hcommit batch hbatch
  refine ⟨fun interval => ?_, ?_, hraces.commit hv (hsmall i) hbatch⟩
  · exact Backend.legs_of_together
      (Backend.together_keys (hraces.clients (before.site.serving i)).2) hcommits.ne_nil
      hcommits.keys interval
  · rw [work_step, if_pos rfl]
    exact hended

/-- Two outputs and a deletion over a pool and a link to one store. The second output is closed after
the first, for which it found no length, and leaves a block of it behind. -/
theorem last_commit_wins_outdated :
    let d : Directory := ⟨{ Config.standard with blockSize := 2 }, 0, [], false⟩
    let v := d.volume
    let pooled : Backend := .pooled ⟨.standard, 0, [], 0, false⟩
    let site : Site (Fin 3) Bool := ⟨fun _ => d,
      fun b => if b then pooled else .single ⟨0, 0, true⟩ false, fun i => i.val < 2, Wire.new, []⟩
    let tasks : Fin 3 → Task := ![.close [[1, 2], [3]], .close [[9]], .delete]
    let before := (start site "a" tasks).run [0, 1, 0, 2]
    let after := before.step 1
    Layout.blockKey "a" 1 ∈ (after.site.desk 1).client.table v.blocksKey ∧
      ∃ batch, (before.work 1).batch? = some batch ∧
        (∀ interval, (before.site.desk 1).client.backend.legs interval batch = [.whole batch]) ∧
        after.work 1 = .ended (.ok ()) ∧
        ∀ j, (tasks 1).Found (after.site.directory j) (after.site.desk j).client "a" := by
  intro d v pooled site tasks before after
  have hv : v.Proper := Volume.proper_ofConfig (c := { Config.standard with blockSize := 2 }) rfl
  have hshared : site.Shared v fun _ => 0 := by
    refine ⟨fun _ => ⟨rfl, v.syncInterval, rfl⟩, fun b => ?_, fun b key _ => ?_⟩
    · cases b with
      | true => exact ⟨fun _ hmem => absurd hmem List.not_mem_nil, by decide, by decide⟩
      | false => exact fun _ => rfl
    · cases b <;> rfl
  have hready : ∀ b, Client.Ready ⟨site.backend b, site.wire, none⟩ := by
    refine fun b => ⟨⟨hshared.backends b, rfl⟩, rfl, fun key => ?_⟩
    cases b with
    | true => exact ⟨rfl, fun _ => by decide⟩
    | false => rfl
  have htogether : ∀ b, (site.backend b).Together v.catalogKey v.blocksKey := by
    intro b
    have hkind : (site.backend b).kind ≠ .cluster := by
      cases b <;> exact BackendKind.noConfusion
    cases b <;> exact Backend.together_of_one_store hkind rfl _ _
  have hsmall : ∀ i, (tasks i).Small v := by
    intro i
    fin_cases i
    · show Layout.blockCount 3 2 ≤ _
      decide
    · show Layout.blockCount 1 2 ≤ _
      decide
    · trivial
  have hsome : (before.work 1).batch?.isSome := by decide +kernel
  obtain ⟨batch, hbatch⟩ := Option.isSome_iff_exists.1 hsome
  exact ⟨by decide +kernel, batch, hbatch,
    last_commit_wins hv hshared hready htogether "a" tasks hsmall [0, 1, 0, 2] 1 hbatch⟩

end Works

end BlockDir
