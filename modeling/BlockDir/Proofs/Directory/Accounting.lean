import BlockDir.Proofs.Directory.Mutations
import BlockDir.Proofs.Directory.Sessions

/-!
# The account of open outputs

A directory keeps account of the outputs that it handed out: of the memory that they take, and of their
names. Several of them may have one name, and each is struck off once, whether it is closed, cannot be
stored, or is dropped. So the account is always that of the outputs that are still open
(`Session.account_exact`).
-/

namespace BlockDir

theorem reduceOption_perm {α : Type} {entries : List (Option α)} {number : Nat} {a : α}
    (h : entries[number]? = some (some a)) :
    entries.reduceOption.Perm (a :: (entries.set number none).reduceOption) := by
  induction entries generalizing number with
  | nil => cases h
  | cons entry entries ih =>
    cases number with
    | zero =>
      obtain rfl : entry = some a := Option.some_inj.1 h
      exact .refl _
    | succ number =>
      have hrest := ih h
      cases entry with
      | none => exact hrest
      | some b => exact (hrest.cons b).trans (.swap a b _)

theorem reduceOption_set_perm {α : Type} {entries : List (Option α)} {number : Nat} {a : α}
    (h : entries[number]? = some (some a)) (b : α) :
    (entries.set number (some b)).reduceOption.Perm (b :: (entries.set number none).reduceOption) := by
  obtain ⟨hlt, -⟩ := List.getElem?_eq_some_iff.1 h
  have hperm := reduceOption_perm (List.getElem?_set_self (a := some b) hlt)
  rwa [List.set_set] at hperm

namespace Directory

/-- Whether the account of a directory is that of `outputs`. -/
structure Accounts (d : Directory) (outputs : List Output) : Prop where
  tidy : ∀ output ∈ outputs, output.Tidy ∧ output.blockSize = d.config.blockSize
  buffered : d.buffered = (outputs.map (·.allocated)).sum
  pending : d.pending.Perm (outputs.map (·.name))

variable {d : Directory} {output : Output} {outputs others : List Output}

theorem accounts_new {config : Config} (h : Directory.new config = .ok d) :
    d.Accounts [] ∧ d.config = config ∧ 0 < config.blockSize := by
  unfold Directory.new at h
  cases hvalid : config.validate with
  | error e =>
    rw [hvalid] at h
    cases h
  | ok done =>
    rw [hvalid] at h
    obtain rfl := Except.ok.inj h
    exact ⟨⟨nofun, rfl, .refl _⟩, rfl, (Config.validate_eq_ok_iff.1 hvalid).1⟩

namespace Accounts

theorem perm (h : d.Accounts outputs) (hperm : outputs.Perm others) : d.Accounts others where
  tidy := fun output hmem => h.tidy output (hperm.mem_iff.2 hmem)
  buffered := h.buffered.trans (hperm.map _).sum_eq
  pending := h.pending.trans (hperm.map _)

theorem close (h : d.Accounts outputs) : ({ d with closed := true } : Directory).Accounts outputs :=
  ⟨h.tidy, h.buffered, h.pending⟩

/-- An output that is made is entered. -/
theorem create (h : d.Accounts outputs) (hsize : 0 < d.config.blockSize) {name : String}
    {after : Directory} (hcreate : d.createOutput name = .ok (output, after)) :
    after.Accounts (output :: outputs) ∧ after.config = d.config := by
  unfold createOutput at hcreate
  split at hcreate
  · cases hcreate
  · split at hcreate
    · cases hcreate
    · obtain ⟨rfl, rfl⟩ := Prod.mk.inj (Except.ok.inj hcreate)
      refine ⟨⟨?_, ?_, h.pending.cons name⟩, rfl⟩
      · rw [List.forall_mem_cons]
        exact ⟨⟨Output.tidy_new name hsize _, rfl⟩, h.tidy⟩
      · show d.buffered = 0 + (outputs.map (·.allocated)).sum
        rw [Nat.zero_add, h.buffered]

/-- What an output takes more when it is written to is entered. -/
theorem write (h : d.Accounts (output :: others)) (data : Bytes) :
    (d.write output data).2.Accounts ((d.write output data).1 :: others) where
  tidy := by
    obtain ⟨⟨htidy, hsize⟩, hothers⟩ := List.forall_mem_cons.1 h.tidy
    exact List.forall_mem_cons.2 ⟨⟨htidy.write data, hsize⟩, hothers⟩
  buffered := by
    have hbuffered := h.buffered
    rw [List.map_cons, List.sum_cons] at hbuffered ⊢
    have hgrown : output.allocated ≤ (output.write data).allocated := Nat.le_add_right _ _
    show d.buffered + ((output.write data).allocated - output.allocated) =
      (output.write data).allocated + (others.map (·.allocated)).sum
    omega
  pending := h.pending

/-- An output that is gone is struck off, and no other. -/
theorem release (h : d.Accounts (output :: others)) : (d.release output).Accounts others where
  tidy := (List.forall_mem_cons.1 h.tidy).2
  buffered := by
    have hbuffered := h.buffered
    rw [List.map_cons, List.sum_cons] at hbuffered
    show d.buffered - output.allocated = (others.map (·.allocated)).sum
    omega
  pending := by
    have hpending := h.pending.erase output.name
    rwa [List.map_cons, List.erase_cons_head] at hpending

/-- The memory is that of as many blocks as the outputs have begun. -/
theorem buffered_eq (h : d.Accounts outputs) :
    d.buffered = d.config.blockSize *
      (outputs.map fun output => output.position ⌈/⌉ d.config.blockSize).sum := by
  rw [h.buffered, ← List.sum_map_mul_left]
  refine congrArg List.sum (List.map_congr_left fun output hmem => ?_)
  obtain ⟨htidy, hsize⟩ := h.tidy output hmem
  obtain ⟨content, hcollected⟩ := htidy.collected
  have hpos := htidy.divisor
  rw [htidy.memory, hcollected.size_eq hpos, hsize, Layout.blockCount, Nat.ceilDiv_eq_add_pred_div]
  rw [hsize] at hpos
  rw [Nat.add_sub_assoc hpos]

theorem mem_pendingOutputs (h : d.Accounts outputs) {name : String} :
    name ∈ d.pendingOutputs ↔ ∃ output ∈ outputs, output.name = name := by
  rw [pendingOutputs, mem_ascending, h.pending.mem_iff, List.mem_map]

end Accounts

end Directory

namespace Desk

theorem directory_close (desk : Desk) :
    (finalState (close desk)).directory = { desk.directory with closed := true } := by
  unfold close
  split
  · rename_i hclosed
    rw [← hclosed]
    rfl
  · dsimp only
    cases Client.close desk.client <;> rfl

end Desk

namespace Session

variable {s : Session} {config : Config}

/-- The outputs that were handed out and are not gone. -/
def openOutputs (s : Session) : List Output := s.outputs.reduceOption

/-- A session of a directory of the given settings that keeps account of its open outputs. -/
structure Accounted (config : Config) (s : Session) : Prop where
  config_eq : s.desk.directory.config = config
  accounts : s.desk.directory.Accounts s.openOutputs

theorem openOutputs_perm {number : Nat} {output : Output} (h : s.output? number = some output) :
    s.openOutputs.Perm (output :: (s.outputs.set number none).reduceOption) :=
  reduceOption_perm (Option.join_eq_some_iff.1 h)

theorem perform_eq {α : Type} (s : Session) (act : DeskM α) (answer : α → SessionAnswer) :
    (s.perform act answer).2 = { s with desk := finalState (act s.desk) } := by
  unfold perform
  cases act s.desk <;> rfl

namespace Accounted

/-- What leaves the outputs and the account as they are. -/
theorem keep (h : Accounted config s) {after : Session}
    (hdirectory : after.desk.directory = s.desk.directory) (houtputs : after.outputs = s.outputs) :
    Accounted config after := by
  obtain ⟨hconfig, haccounts⟩ := h
  refine ⟨by rw [hdirectory, hconfig], ?_⟩
  rw [hdirectory, openOutputs, houtputs]
  exact haccounts

theorem consult (h : Accounted config s) {α : Type} (act : Directory → ClientM α)
    (answer : α → SessionAnswer) : Accounted config (s.consult act answer).2 := by
  rw [Session.consult, perform_eq, Desk.finalState_onClient]
  exact h.keep rfl rfl

theorem close (h : Accounted config s) (answer : Unit → SessionAnswer) :
    Accounted config (s.perform Desk.close answer).2 := by
  rw [perform_eq]
  refine ⟨?_, ?_⟩
  · rw [Desk.directory_close]
    exact h.config_eq
  · rw [Desk.directory_close]
    exact h.accounts.close

/-- An output that is gone, for whatever reason, is struck off. -/
theorem release (h : Accounted config s) {number : Nat} {output : Output}
    (houtput : s.output? number = some output) {after : Session}
    (hdirectory : after.desk.directory = s.desk.directory.release output)
    (houtputs : after.outputs = s.outputs.set number none) : Accounted config after := by
  have haccounts := (h.accounts.perm (openOutputs_perm houtput)).release
  refine ⟨by rw [hdirectory]; exact h.config_eq, ?_⟩
  rw [hdirectory, openOutputs, houtputs]
  exact haccounts

theorem create (h : Accounted config s) (hsize : 0 < config.blockSize) (name : String) :
    Accounted config (s.step (.create name)).2 := by
  rw [step, Desk.createOutput]
  cases hcreate : s.desk.directory.createOutput name with
  | error e => exact h.keep rfl rfl
  | ok made =>
    obtain ⟨haccounts, hconfig⟩ := h.accounts.create (h.config_eq ▸ hsize) hcreate
    refine ⟨hconfig.trans h.config_eq, haccounts.perm ?_⟩
    show (made.1 :: s.openOutputs).Perm (s.outputs ++ [some made.1]).reduceOption
    rw [List.reduceOption_append]
    exact (List.perm_append_singleton _ _).symm

theorem write (h : Accounted config s) (number : Nat) (datum : Datum) :
    Accounted config (s.step (.write number datum)).2 := by
  rw [step]
  cases houtput : s.output? number with
  | none => exact h
  | some output =>
    dsimp only
    cases datum.encode with
    | error e => exact h
    | ok data =>
      have haccounts := (h.accounts.perm (openOutputs_perm houtput)).write data
      exact ⟨h.config_eq,
        haccounts.perm (reduceOption_set_perm (Option.join_eq_some_iff.1 houtput) _).symm⟩

/-- What one call does to the account. -/
theorem step (h : Accounted config s) (hsize : 0 < config.blockSize) (call : SessionCall) :
    Accounted config (s.step call).2 := by
  cases call with
  | list | has | length | delete | rename | check => exact h.consult _ _
  | sync names => exact h
  | lock name =>
    rw [Session.step]
    cases s.desk.directory.ensureOpen "obtain_lock" with
    | error e => exact h
    | ok =>
      dsimp only
      cases LockManager.acquire name s.locks <;> exact h.keep rfl rfl
  | create name => exact h.create hsize name
  | openInput name =>
    have hdirectory :=
      congrArg Desk.directory (Desk.finalState_onClient (·.openInput name) s.desk)
    rw [Session.step]
    cases hopen : Desk.onClient (·.openInput name) s.desk with
    | ok cursor desk | error e desk =>
      rw [hopen] at hdirectory
      exact h.keep hdirectory rfl
  | close => exact h.close _
  | write number datum => exact h.write number datum
  | checksum number =>
    rw [Session.step]
    cases s.output? number <;> exact h
  | closeOutput number =>
    rw [Session.step]
    cases houtput : s.output? number with
    | none => exact h
    | some output =>
      dsimp only
      rw [perform_eq, Desk.finalState_closeOutput]
      exact h.release houtput rfl rfl
  | dropOutput number =>
    rw [Session.step]
    cases houtput : s.output? number with
    | none => exact h
    | some output => exact h.release houtput rfl rfl
  | cursor number call => exact h.keep rfl rfl
  | read number shape =>
    rw [Session.step]
    cases s.cursors[number]? with
    | none => exact h
    | some cursor =>
      dsimp only
      cases shape.read cursor <;> exact h.keep rfl rfl
  | closeCursor number =>
    rw [Session.step]
    cases s.cursors[number]? <;> exact h.keep rfl rfl
  | meddle number store => exact h.keep rfl rfl

/-- What any calls do to the account. -/
theorem run (h : Accounted config s) (hsize : 0 < config.blockSize) (calls : List SessionCall) :
    Accounted config (s.run calls).2 := by
  induction calls generalizing s with
  | nil => exact h
  | cons call rest ih => exact ih (h.step hsize call)

end Accounted

/-- Whatever is called for, whatever fails, and whatever others do to the stores: at every moment the
memory that a directory has down is that of the blocks begun by the outputs that are still open, and
the names that it has down, in ascending order, are those of these outputs. Once none is open, nothing
is left of either. -/
theorem account_exact {config : Config} {d : Directory} (hnew : Directory.new config = .ok d)
    (client : Client) (locks : FileSystem × LockManager) (calls : List SessionCall) :
    let s := ((start ⟨d, client⟩ locks).run calls).2
    s.desk.directory.buffered = config.blockSize *
        (s.openOutputs.map fun output => output.position ⌈/⌉ config.blockSize).sum ∧
      s.desk.directory.pendingOutputs.Pairwise (· < ·) ∧
      (∀ name, name ∈ s.desk.directory.pendingOutputs ↔
        ∃ output ∈ s.openOutputs, output.name = name) ∧
      (s.openOutputs = [] →
        s.desk.directory.buffered = 0 ∧ s.desk.directory.pendingOutputs = []) := by
  intro s
  obtain ⟨hempty, hconfig, hsize⟩ := Directory.accounts_new hnew
  have hstart : Accounted config (start ⟨d, client⟩ locks) := ⟨hconfig, hempty⟩
  obtain ⟨hconfig', haccounts⟩ := hstart.run hsize calls
  have hbuffered := haccounts.buffered_eq
  rw [hconfig'] at hbuffered
  have hascending : s.desk.directory.pendingOutputs.Pairwise (· < ·) :=
    (pairwise_ascending _).imp compare_lt_iff_lt.1
  refine ⟨hbuffered, hascending, fun name => haccounts.mem_pendingOutputs, fun hnone => ⟨?_, ?_⟩⟩
  · have hsum : (s.openOutputs.map fun output => output.position ⌈/⌉ config.blockSize).sum = 0 := by
      rw [hnone]
      rfl
    rw [hbuffered, hsum, Nat.mul_zero]
  · refine List.eq_nil_iff_forall_not_mem.2 fun name hmem => ?_
    obtain ⟨output, hopen, -⟩ := haccounts.mem_pendingOutputs.1 hmem
    rw [hnone] at hopen
    exact absurd hopen List.not_mem_nil

/-- Two outputs have one name. The first of them cannot be stored, as the link breaks; then the other
two are still open. One of these is dropped, and the last is closed when the directory is closed. -/
theorem account_exact_overlapping :
    let config := { Config.standard with blockSize := 4 }
    let wire := Wire.new.arm ⟨.send .transaction, Fault.lost, 1⟩
    let client : Client := ⟨.single ⟨0, 0, true⟩ false, wire, none⟩
    let locks : FileSystem × LockManager := (.new "/", ⟨[], []⟩)
    let session := start ⟨⟨config, 0, [], false⟩, client⟩ locks
    let first : List SessionCall := [.create "b", .create "a", .create "b",
      .write 0 (.bytes [1, 2, 3, 4, 5]), .write 1 (.byte 6), .write 2 (.bytes [7, 8, 9, 10]),
      .closeOutput 0]
    let rest : List SessionCall := [.dropOutput 1, .close, .closeOutput 2]
    Directory.new config = .ok ⟨config, 0, [], false⟩ ∧
      (session.run first).2.openOutputs.map (fun output => (output.name, output.position)) =
        [("a", 1), ("b", 4)] ∧
      (session.run first).2.desk.directory.buffered = 8 ∧
      (∀ name, name ∈ (session.run first).2.desk.directory.pendingOutputs ↔
        name = "a" ∨ name = "b") ∧
      (session.run (first ++ rest)).2.desk.directory.buffered = 0 ∧
      (session.run (first ++ rest)).2.desk.directory.pendingOutputs = [] := by
  intro config wire client locks session first rest
  have hnew : Directory.new config = .ok ⟨config, 0, [], false⟩ := rfl
  have hopen : (session.run first).2.openOutputs.map (fun output => (output.name, output.position)) =
      [("a", 1), ("b", 4)] := by decide +kernel
  have hnone : (session.run (first ++ rest)).2.openOutputs = [] := by
    rw [← List.length_eq_zero_iff]
    decide +kernel
  obtain ⟨hbuffered, -, hnames, -⟩ := account_exact hnew client locks first
  obtain ⟨-, -, -, hempty⟩ := account_exact hnew client locks (first ++ rest)
  refine ⟨hnew, hopen, ?_, fun name => ?_, hempty hnone⟩
  · have hblocks : (session.run first).2.openOutputs.map (fun output => output.position ⌈/⌉ 4) =
        [1 ⌈/⌉ 4, 4 ⌈/⌉ 4] := by
      have hpositions := congrArg (List.map fun entry => entry.2 ⌈/⌉ 4) hopen
      rwa [List.map_map] at hpositions
    rw [hbuffered, hblocks]
    rfl
  · have hnamed : (session.run first).2.openOutputs.map (·.name) = ["a", "b"] := by
      have hentries := congrArg (List.map fun entry => entry.1) hopen
      rwa [List.map_map] at hentries
    rw [hnames, ← List.mem_map, hnamed]
    simp

end Session

end BlockDir
