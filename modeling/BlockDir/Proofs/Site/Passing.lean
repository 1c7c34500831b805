import BlockDir.Proofs.Site.Files

/-!
# The stores that calls pass through

A call makes at most one mutation, and apart from it no call changes a store (`Site.leaves_step`). So
the stores that a run passes through are told by the plans of its mutations, each cut somewhere
(`Site.Visits`), and what every cut of every plan keeps is kept throughout (`Site.Shared.visits`).
-/

namespace BlockDir

variable {ι κ : Type} {v : Volume} {place : Bytes → Nat} {site : Site ι κ}

/-- Whether `P` is a matter of the tables of a volume, and what every mutation keeps wherever it is
cut. -/
structure Volume.Invariant (v : Volume) (P : (Bytes → Table) → Prop) : Prop where
  congr : ∀ {a b : Bytes → Table}, (∀ key ∈ v.keys, a key = b key) → P a → P b
  cut : ∀ (d : Directory) (m : Mutation) (interval : Nat),
    d.volume = { v with syncInterval := interval } → ∀ (tables : Bytes → Table) (count : Nat),
      P tables → P (Batch.onTables (((m.plan d).batch tables).take count) tables)

namespace Site

/-- The mutation that a call makes, with the directory that makes it. -/
def mutation? (site : Site ι κ) : Call ι → Option (ι × Mutation)
  | .close number => (site.output? number).map fun (i, output) => (i, .closeOutput output)
  | .delete i name => some (i, .deleteFile name)
  | .rename i source dest => some (i, .renameFile source dest)
  | _ => none

/-- Whether a call passes through `stores`: they are those that it finds, or those after some first
writes of the batch that it commits. -/
def Passes (site : Site ι κ) (call : Call ι) (stores : Nat → Store) : Prop :=
  stores = site.wire.store ∨ ∃ i m count, site.mutation? call = some (i, m) ∧
    stores = (m.plan (site.directory i)).storesAt (site.desk i).client count

theorem Shared.passes (h : site.Shared v place) {P : (Bytes → Table) → Prop}
    (hkept : v.Invariant P) (hP : P (tablesAt place site.wire.store)) {call : Call ι}
    {stores : Nat → Store} (hpasses : site.Passes call stores) : P (tablesAt place stores) := by
  rcases hpasses with rfl | ⟨i, m, count, -, rfl⟩
  · exact hP
  · obtain ⟨-, interval, hvolume⟩ := h.directories i
    have hclient : P (site.desk i).client.table := hkept.congr (h.table i) hP
    apply hkept.congr _ (hkept.cut _ m interval hvolume _ count hclient)
    intro key hkey
    rw [tablesAt, ← h.placed (site.serving i) key hkey]
    exact (Batch.tables_onStores _ _ _ _).symm

/-- Whether calls that are made in turn pass through `stores`. -/
def Visits [DecidableEq ι] [DecidableEq κ] (site : Site ι κ) :
    List (Call ι) → (Nat → Store) → Prop
  | [], stores => stores = site.wire.store
  | call :: rest, stores => site.Passes call stores ∨ (site.step call).2.Visits rest stores

/-- The last stores are among those that calls pass through. -/
theorem visits_last [DecidableEq ι] [DecidableEq κ] (site : Site ι κ) (calls : List (Call ι)) :
    site.Visits calls (runCalls Site.step site calls).2.wire.store := by
  induction calls generalizing site with
  | nil => rfl
  | cons call rest ih => exact .inr (ih (site.step call).2)

/-- What a directory that worked leaves: its format, and a client that can go on. -/
structure Worked (site : Site ι κ) (i : ι) (desk : Desk) : Prop where
  directory : desk.directory.config = (site.directory i).config ∧
    desk.directory.closed = (site.directory i).closed
  later : (site.desk i).client.Later desk.client

theorem worked_mutation (hsound : ∀ b, (site.backend b).Sound)
    (htrue : site.wire.Suffers Fault.Truthful) (i : ι) (m : Mutation) :
    site.Worked i (finalState (m.run (site.desk i))) := by
  have hclient : (site.desk i).client.Sound := ⟨hsound _, rfl⟩
  obtain ⟨after, count, houtcome, -⟩ := m.mutates (site.directory i) _ hclient htrue
  have hlater : (site.desk i).client.Later
      (finalState (m.act (site.directory i) (site.desk i).client)) := by
    rw [houtcome.finalState]
    exact houtcome.later
  rw [m.finalState_run]
  exact ⟨m.account_same _, hlater⟩

theorem worked_read {α : Type} (hsound : ∀ b, (site.backend b).Sound)
    (htrue : site.wire.Suffers Fault.Truthful) (i : ι) {act : Directory → ClientM α}
    {keys : List Bytes} {f : (Bytes → Table) → Except Error α}
    (hreads : Client.Reads keys (act (site.directory i)) f) :
    site.Worked i (finalState (Desk.onClient act (site.desk i))) ∧
      (finalState (Desk.onClient act (site.desk i))).stores = site.wire.store := by
  have hclient : (site.desk i).client.Sound := ⟨hsound _, rfl⟩
  obtain ⟨hlater, hstore⟩ := hreads.finalState hclient htrue
  rw [Desk.finalState_onClient]
  exact ⟨⟨⟨rfl, rfl⟩, hlater⟩, hstore⟩

section

variable [DecidableEq ι] [DecidableEq κ]

/-- What a call may leave: the site as it was, or one in which a directory worked without changing a
store, or one in which a directory made the mutation of the call. Outputs are not considered. -/
inductive Leaves (site : Site ι κ) (call : Call ι) : Site ι κ → Prop where
  | same : Leaves site call site
  | idle (i : ι) (desk : Desk) (outputs : List (Option (ι × Output))) (worked : site.Worked i desk)
      (stores : desk.stores = site.wire.store) :
      Leaves site call { site.leave i desk with outputs }
  | mutation (i : ι) (m : Mutation) (outputs : List (Option (ι × Output)))
      (made : site.mutation? call = some (i, m)) :
      Leaves site call { site.leave i (finalState (m.run (site.desk i))) with outputs }

theorem leaves_account (hsound : ∀ b, (site.backend b).Sound) (call : Call ι) (i : ι)
    (directory : Directory)
    (hdirectory : directory.config = (site.directory i).config ∧
      directory.closed = (site.directory i).closed) (outputs : List (Option (ι × Output))) :
    site.Leaves call { site.leave i ⟨directory, (site.desk i).client⟩ with outputs } := by
  have hclient : (site.desk i).client.Sound := ⟨hsound _, rfl⟩
  exact .idle i _ outputs ⟨hdirectory, .refl hclient⟩ rfl

theorem leaves_read {α : Type} (hsound : ∀ b, (site.backend b).Sound)
    (htrue : site.wire.Suffers Fault.Truthful) (call : Call ι) (i : ι)
    {act : Directory → ClientM α} {keys : List Bytes} {f : (Bytes → Table) → Except Error α}
    (hreads : Client.Reads keys (act (site.directory i)) f) (answer : α → Answer) :
    site.Leaves call (site.perform i (Desk.onClient act) answer).2 := by
  obtain ⟨hworked, hstores⟩ := worked_read hsound htrue i hreads
  rw [perform_snd]
  exact .idle i _ site.outputs hworked hstores

theorem leaves_step (h : site.Shared v place) (htrue : site.wire.Suffers Fault.Truthful)
    (call : Call ι) : site.Leaves call (site.step call).2 := by
  have hsound := h.backends
  cases call with
  | create i name =>
    rw [step_create (h.directories i).1]
    split
    · exact leaves_account hsound _ i (site.directory i) ⟨rfl, rfl⟩ site.outputs
    · exact leaves_account hsound _ i
        { site.directory i with pending := name :: (site.directory i).pending } ⟨rfl, rfl⟩ _
  | write number data =>
    rw [Site.step]
    cases site.output? number with
    | none => exact .same
    | some found =>
      exact leaves_account hsound _ found.1 ((site.directory found.1).write found.2 data).2
        ⟨rfl, rfl⟩ _
  | close number =>
    rw [Site.step]
    cases hsome : site.output? number with
    | none => exact .same
    | some found =>
      have hperform := perform_snd site found.1 (Desk.closeOutput found.2) fun _ => .done
      dsimp only
      rw [hperform]
      exact .mutation found.1 (.closeOutput found.2) _ (by simp [mutation?, hsome])
  | drop number =>
    rw [Site.step]
    cases site.output? number with
    | none => exact .same
    | some found =>
      exact leaves_account hsound _ found.1 ((site.directory found.1).release found.2)
        ⟨rfl, rfl⟩ _
  | delete i name =>
    rw [Site.step, perform_snd]
    exact .mutation i (.deleteFile name) site.outputs rfl
  | rename i source dest =>
    rw [Site.step, perform_snd]
    exact .mutation i (.renameFile source dest) site.outputs rfl
  | read i name =>
    exact leaves_read hsound htrue _ i ((site.directory i).reads_openInput name) readOut
  | list i => exact leaves_read hsound htrue _ i (site.directory i).reads_list .names
  | has i name =>
    exact leaves_read hsound htrue _ i ((site.directory i).reads_fileExists name) .truth
  | length i name =>
    exact leaves_read hsound htrue _ i ((site.directory i).reads_fileLength name) .size

/-- After a call the site still shares its tables, no new fault waits, and the call passed through
the stores that are left. -/
theorem Shared.step (h : site.Shared v place) (htrue : site.wire.Suffers Fault.Truthful)
    (call : Call ι) :
    (site.step call).2.Shared v place ∧ (site.step call).2.wire.threats ⊆ site.wire.threats ∧
      site.Passes call (site.step call).2.wire.store := by
  have hleaves := leaves_step h htrue call
  generalize (site.step call).2 = next at hleaves
  cases hleaves with
  | same => exact ⟨h, fun _ hmem => hmem, .inl rfl⟩
  | idle i desk outputs hworked hstores =>
    exact ⟨(h.leave i hworked.directory hworked.later.backend.toKept).outputs outputs,
      hworked.later.threats, .inl hstores⟩
  | mutation i m outputs hcall =>
    have hworked := worked_mutation h.backends htrue i m
    have hclient : (site.desk i).client.Sound := ⟨h.backends _, rfl⟩
    obtain ⟨count, hstores, -⟩ := m.stores_cut hclient htrue
    exact ⟨(h.leave i hworked.directory hworked.later.backend.toKept).outputs outputs,
      hworked.later.threats, .inr ⟨i, m, count, hcall, hstores⟩⟩

/-- After calls that are made in turn the site still shares its tables, and no new fault waits. -/
theorem Shared.run (h : site.Shared v place) (htrue : site.wire.Suffers Fault.Truthful)
    (calls : List (Call ι)) :
    (runCalls Site.step site calls).2.Shared v place ∧
      (runCalls Site.step site calls).2.wire.threats ⊆ site.wire.threats := by
  induction calls generalizing site with
  | nil => exact ⟨h, fun _ hmem => hmem⟩
  | cons call rest ih =>
    obtain ⟨hshared, hthreats, -⟩ := h.step htrue call
    obtain ⟨hlast, hless⟩ := ih hshared (htrue.mono hthreats)
    exact ⟨hlast, fun _ hmem => hthreats (hless hmem)⟩

/-- What is kept of the tables wherever a mutation is cut holds of all that calls pass through. -/
theorem Shared.visits (h : site.Shared v place) (htrue : site.wire.Suffers Fault.Truthful)
    {P : (Bytes → Table) → Prop} (hkept : v.Invariant P) (hP : P (tablesAt place site.wire.store))
    {calls : List (Call ι)} {stores : Nat → Store} (hvisits : site.Visits calls stores) :
    P (tablesAt place stores) := by
  induction calls generalizing site with
  | nil =>
    obtain rfl := hvisits
    exact hP
  | cons call rest ih =>
    obtain ⟨hshared, hthreats, hpasses⟩ := h.step htrue call
    rcases hvisits with hvisits | hvisits
    · exact h.passes hkept hP hvisits
    · exact ih hshared (htrue.mono hthreats) (h.passes hkept hP hpasses) hvisits

end

end Site

end BlockDir
