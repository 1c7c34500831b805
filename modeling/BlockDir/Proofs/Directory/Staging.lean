import BlockDir.Proofs.Backend.Staging
import BlockDir.Proofs.Volume.Files
import BlockDir.Proofs.Volume.Plans

/-!
# Operations of a directory in steps

The operations of a directory that read before they commit, or that read more than once, cut where
other clients may come between: each read of a length, each round of a batched read and each commit
is a step. Done without a break, they are the operations of the directory.
-/

namespace BlockDir

open Client

namespace Volume

variable (v : Volume)

/-- Saves a file: reads the length of the previous version, and commits. -/
def saving (name : String) (blocks : List Bytes) (length : Nat) : Staged Unit := do
  let count ← Staged.settle (Layout.countBlocks length v.blockSize)
  if blocks.length < count then
    Staged.settle (.error (.argument (.tooFewBlocks name length count blocks.length)))
  else
    let previous ← Staged.step (v.length? name)
    let stale ← Staged.settle (v.staleCount name previous)
    let stored ← Staged.settle (v.encodeBlocks length count blocks)
    Staged.send (v.saveBatch name stored length stale) v.syncInterval

/-- Deletes a file: reads its length, and commits if it is there. -/
def deleting (name : String) : Staged Bool := do
  match ← Staged.step (v.length? name) with
  | none => return false
  | some length =>
    let count ← Staged.settle (v.storedCount name length)
    Staged.send (v.deleteBatch name count) v.syncInterval
    return true

/-- Reads the stored forms of all blocks of a file. -/
def gathering (name : String) (length : Nat) : Staged (List Bytes) := do
  let count ← Staged.settle (v.storedCount name length)
  let fields := (List.range count).map (Layout.blockKey name)
  let slots ← Client.fetching v.blocksKey fields v.syncInterval
  Staged.settle (assemble name length count (Fetched.ofSlots slots))

/-- Loads a file of the given length. -/
def loading (name : String) (length : Nat) : Staged LoadedFile := do
  let stored ← v.gathering name length
  let blocks ← Staged.settle (v.decodeBlocks name length stored)
  return ⟨blocks.toArray, length, v.blockSize⟩

/-- Moves a file, given the stored forms of its blocks: reads the length of the file that it
replaces, and commits. -/
def moving (source dest : String) (stored : List Bytes) (length : Nat) : Staged Unit :=
  if source = dest then
    return ()
  else do
    let count ← Staged.settle (v.storedCount source length)
    let previous ← Staged.step (v.length? dest)
    let stale ← Staged.settle (v.staleCount dest previous)
    if stored.length ≠ count then
      Staged.settle (.error (.argument (.blockCount dest count stored.length)))
    else
      Staged.send (v.renameBatch source dest stored length stale) v.syncInterval

variable {v} in
/-- The blocks of a content are enough, and each fits its place. -/
theorem saving_chunks (hv : v.Proper) (name : String) (content : Bytes) :
    v.saving name (chunks v.blockSize content) content.length = (do
      let previous ← Staged.step (v.length? name)
      let stale ← Staged.settle (v.staleCount name previous)
      Staged.send (v.saveBatch name (v.storedForms content) content.length stale)
        v.syncInterval) := by
  have henough : ¬ (chunks v.blockSize content).length <
      Layout.blockCount content.length v.blockSize := by
    rw [length_chunks hv.blockSize_pos]
    exact Nat.lt_irrefl _
  rw [saving, Layout.countBlocks_of_pos hv.blockSize_pos]
  refine (if_neg henough).trans ?_
  rw [encodeBlocks_chunks hv]
  rfl

theorem run_saving (name : String) (blocks : List Bytes) (length : Nat) :
    (v.saving name blocks length).run = v.save name blocks length := by
  rw [saving, save, Staged.run_bind, Staged.run_settle]
  congr 1
  funext count
  by_cases hfew : blocks.length < count
  · rw [if_pos hfew, if_pos hfew]
    rfl
  · rw [if_neg hfew, if_neg hfew]
    simp only [Staged.run_bind, Staged.run_step, Staged.run_settle, Staged.run_send]

theorem run_deleting (name : String) : (v.deleting name).run = v.delete name := by
  rw [deleting, delete, Staged.run_bind, Staged.run_step]
  congr 1
  funext previous
  cases previous with
  | none => rfl
  | some length =>
    simp only [erase, Staged.run_bind, Staged.run_settle, Staged.run_send, Staged.run_pure,
      bind_assoc]

theorem run_moving (source dest : String) (stored : List Bytes) (length : Nat) :
    (v.moving source dest stored length).run = v.rename source dest stored length := by
  rw [moving, rename]
  by_cases hsame : source = dest
  · rw [if_pos hsame, if_pos hsame]
    rfl
  · rw [if_neg hsame, if_neg hsame]
    simp only [Staged.run_bind, Staged.run_step, Staged.run_settle]
    congr 1
    funext count
    congr 1
    funext previous
    congr 1
    funext stale
    by_cases hcount : stored.length ≠ count
    · rw [if_pos hcount, if_pos hcount]
      rfl
    · rw [if_neg hcount, if_neg hcount, Staged.run_send]

theorem run_gathering (name : String) (length : Nat) {client : Client} (hsound : client.Sound)
    (htrue : client.wire.Suffers Fault.Truthful) (hkind : client.backend.kind ≠ .cluster) :
    (v.gathering name length).run client = v.loadStored name length client := by
  rw [gathering, loadStored, Staged.run_bind, Staged.run_settle]
  cases hcount : v.storedCount name length with
  | error e => rfl
  | ok count =>
    obtain ⟨slots, after, hok, hlater, -⟩ := fetchSlots_spec v.blocksKey
      ((List.range count).map (Layout.blockKey name)) v.syncInterval hsound htrue.overt
    have hrun := run_fetching v.blocksKey ((List.range count).map (Layout.blockKey name))
      v.syncInterval hkind
    rw [hok] at hrun
    have hwindow := hlater.window.trans hsound.window
    simp only [Staged.run_bind, Staged.run_settle]
    simp [fetch, bind, EStateM.bind, hrun, hok, get, getThe, MonadStateOf.get, EStateM.get, hwindow,
      pure, EStateM.pure]

theorem run_loading (name : String) (length : Nat) {client : Client} (hsound : client.Sound)
    (htrue : client.wire.Suffers Fault.Truthful) (hkind : client.backend.kind ≠ .cluster) :
    (v.loading name length).run client = v.load name length client := by
  have hgather := v.run_gathering name length hsound htrue hkind
  simp only [loading, load, Staged.run_bind, Staged.run_settle, Staged.run_pure]
  simp only [bind, EStateM.bind, hgather]

end Volume

namespace Directory

variable (d : Directory)

/-- Stores the file of an output. -/
def closing (output : Output) : Staged Unit := do
  Staged.settle (d.ensureOpen "close output")
  d.volume.saving output.name output.blocks.toList output.position

/-- Deletes a file, if it is there. -/
def deleting (name : String) : Staged Unit := do
  Staged.settle (d.ensureOpen "delete_file")
  let _ ← d.volume.deleting name

/-- Gives a file another name, over a file of that name. -/
def moving (source dest : String) : Staged Unit := do
  Staged.settle (d.ensureOpen "rename_file")
  match ← Staged.step (d.volume.length? source) with
  | none => Staged.settle (.error (.missing (.renamed source dest)))
  | some length =>
    let stored ← d.volume.gathering source length
    d.volume.moving source dest stored length

/-- A cursor at the start of a file. -/
def opening (name : String) : Staged Reader := do
  Staged.settle (d.ensureOpen "open_input")
  match ← Staged.step (d.volume.length? name) with
  | none => Staged.settle (.error (.missing (.input name)))
  | some length => return Reader.new name (← d.volume.loading name length)

theorem run_closing (output : Output) : (d.closing output).run = d.store output := by
  simp only [closing, store, Staged.run_bind, Staged.run_settle, Volume.run_saving]

theorem run_deleting (name : String) : (d.deleting name).run = d.deleteFile name := by
  simp only [deleting, deleteFile, Staged.run_bind, Staged.run_settle, Volume.run_deleting,
    Staged.run_pure]

variable {client : Client} (hsound : client.Sound) (htrue : client.wire.Suffers Fault.Truthful)
  (hkind : client.backend.kind ≠ .cluster)

include hsound htrue hkind

theorem run_moving (source dest : String) :
    (d.moving source dest).run client = d.renameFile source dest client := by
  obtain ⟨hlater, -⟩ := (d.volume.reads_length? source).finalState hsound htrue
  simp only [moving, renameFile, Staged.run_bind, Staged.run_settle, Staged.run_step]
  cases d.ensureOpen "rename_file" with
  | error e => rfl
  | ok _ =>
    simp only [bind, EStateM.bind, give_ok]
    cases hfound : d.volume.length? source client with
    | error e after => rfl
    | ok found after =>
      rw [hfound] at hlater
      cases found with
      | none => rfl
      | some length =>
        have hgather : (d.volume.gathering source length).run after =
            d.volume.loadStored source length after :=
          d.volume.run_gathering source length (hlater.sound hsound) (hlater.suffers htrue)
            (hlater.backend.kind ▸ hkind)
        show (d.volume.gathering source length >>= fun stored =>
          d.volume.moving source dest stored length).run after = _
        simp only [Staged.run_bind, Volume.run_moving]
        simp only [bind, EStateM.bind]
        rw [hgather]

theorem run_opening (name : String) :
    (d.opening name).run client = d.openInput name client := by
  obtain ⟨hlater, -⟩ := (d.volume.reads_length? name).finalState hsound htrue
  simp only [opening, openInput, Staged.run_bind, Staged.run_settle, Staged.run_step]
  cases d.ensureOpen "open_input" with
  | error e => rfl
  | ok _ =>
    simp only [bind, EStateM.bind, give_ok]
    cases hfound : d.volume.length? name client with
    | error e after => rfl
    | ok found after =>
      rw [hfound] at hlater
      cases found with
      | none => rfl
      | some length =>
        have hload : (d.volume.loading name length).run after = d.volume.load name length after :=
          d.volume.run_loading name length (hlater.sound hsound) (hlater.suffers htrue)
            (hlater.backend.kind ▸ hkind)
        show (d.volume.loading name length >>= fun file =>
          pure (Reader.new name file)).run after = _
        simp only [Staged.run_bind, Staged.run_pure]
        simp only [bind, EStateM.bind]
        rw [hload]

end Directory

end BlockDir
