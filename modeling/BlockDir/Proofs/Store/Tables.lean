import BlockDir.Store.Keyspace
import Mathlib

/-!
# Writes and tables

A batch acts on the tables of a keyspace (`Batch.onTables`) and, given the store that each key leads
to, on the stores that hold them (`Batch.onStores`). Both views agree (`tables_onStores`). What a
batch leaves alone is told by the fields that its writes touch (`getElem?_onTables_of_untouched`), and
so is which batches may change places (`onTables_comm`).
-/

namespace BlockDir

namespace Table

/-- The table after a change. -/
def change (table : Table) (c : Change) : Table := (table.apply c).2

@[simp] theorem getElem?_change_set (table : Table) (field value other : Bytes) :
    (table.change (.set field value))[other]? = if field = other then some value else table[other]? := by
  simp [change, apply, Std.ExtTreeMap.getElem?_insert]

theorem deleteCounting_snd (table : Table) (fields : List Bytes) :
    (table.deleteCounting fields).2 = fields.foldl (fun t field => t.erase field) table := by
  suffices h : ∀ n, (fields.foldl (fun (p : Nat × Table) field =>
      (if field ∈ p.2 then p.1 + 1 else p.1, p.2.erase field)) (n, table)).2 =
      fields.foldl (fun t field => t.erase field) table from h 0
  induction fields generalizing table with
  | nil => intro n; rfl
  | cons field rest ih => intro n; exact ih (table.erase field) _

/-- Deleting counts the fields that were there, each once. -/
theorem deleteCounting_fst (table : Table) (fields : List Bytes) :
    (table.deleteCounting fields).1 =
      (fields.toFinset.filter fun field => table[field]?.isSome).card := by
  suffices h : ∀ n, (fields.foldl (fun (p : Nat × Table) field =>
      (if field ∈ p.2 then p.1 + 1 else p.1, p.2.erase field)) (n, table)).1 =
      n + (fields.toFinset.filter fun field => table[field]?.isSome).card by
    have hzero := h 0
    rw [Nat.zero_add] at hzero
    exact hzero
  induction fields generalizing table with
  | nil => intro n; rfl
  | cons field rest ih =>
    intro n
    -- what is left to count is counted in a table that has lost the first field
    have herase : (rest.toFinset.filter fun other => (table.erase field)[other]?.isSome) =
        (rest.toFinset.filter fun other => table[other]?.isSome).erase field := by
      ext other
      simp only [Finset.mem_filter, Finset.mem_erase, Std.ExtTreeMap.getElem?_erase,
        Std.LawfulEqCmp.compare_eq_iff_eq]
      by_cases hother : field = other
      · simp [hother]
      · simp [hother, Ne.symm hother]
    rw [List.foldl_cons, ih, herase, List.toFinset_cons, Finset.filter_insert]
    by_cases hmem : field ∈ table
    · have hsome : table[field]?.isSome := Std.ExtTreeMap.mem_iff_isSome_getElem?.1 hmem
      rw [if_pos hmem, if_pos hsome, ← Finset.card_erase_add_one (Finset.mem_insert_self field _),
        Finset.erase_insert_eq_erase]
      omega
    · have hnone : ¬ table[field]?.isSome := by
        rwa [← Std.ExtTreeMap.mem_iff_isSome_getElem?]
      rw [if_neg hmem, if_neg hnone, Finset.erase_eq_of_notMem]
      intro hcounted
      exact hnone (Finset.mem_filter.1 hcounted).2

@[simp] theorem getElem?_change_delete (table : Table) (fields : List Bytes) (other : Bytes) :
    (table.change (.delete fields))[other]? = if other ∈ fields then none else table[other]? := by
  have hdelete : table.change (.delete fields) = fields.foldl (fun t field => t.erase field) table :=
    deleteCounting_snd table fields
  rw [hdelete]
  induction fields generalizing table with
  | nil => simp
  | cons field rest ih =>
    rw [List.foldl_cons, ih _ (deleteCounting_snd _ _), Std.ExtTreeMap.getElem?_erase]
    simp only [Std.LawfulEqCmp.compare_eq_iff_eq, List.mem_cons]
    by_cases hrest : other ∈ rest
    · simp [hrest]
    · by_cases hfield : field = other
      · simp [hfield]
      · simp [hrest, hfield, Ne.symm hfield]

end Table

namespace Store

/-- The store after a write. -/
def write (store : Store) (w : Write) : Store :=
  store.setTable w.key ((store.table w.key).change w.change)

@[simp] theorem table_write (store : Store) (w : Write) (key : Bytes) :
    (store.write w).table key =
      if w.key = key then (store.table w.key).change w.change else store.table key :=
  table_setTable store w.key key _

theorem run_write (store : Store) (w : Write) :
    ∃ n : Int, store.run (.write w) = (.integer n, store.write w) := by
  obtain ⟨key, change⟩ := w
  cases change with
  | set field value => exact ⟨_, rfl⟩
  | delete fields => exact ⟨_, rfl⟩

/-- A store answers every write with a number. -/
theorem runAll_commands (store : Store) (batch : Batch) :
    ∃ numbers : List Int, numbers.length = batch.length ∧
      store.runAll batch.commands = (numbers.map .integer, batch.foldl write store) := by
  induction batch generalizing store with
  | nil => exact ⟨[], rfl, rfl⟩
  | cons w rest ih =>
    obtain ⟨n, hn⟩ := run_write store w
    obtain ⟨numbers, hlength, hrun⟩ := ih (store.write w)
    refine ⟨n :: numbers, by simp [hlength], ?_⟩
    simp only [Batch.commands, List.map_cons, runAll, hn] at hrun ⊢
    rw [hrun]
    rfl

/-- Questions change nothing. -/
theorem runAll_asks (store : Store) (key : Bytes) (queries : List Query) :
    store.runAll (queries.map (.ask key)) = (queries.map (store.table key).answer, store) := by
  induction queries with
  | nil => rfl
  | cons query rest ih => simp [runAll, run, ih]

end Store

namespace Batch

/-- The stores after a batch whose keys lead to the stores that `locate` says. -/
def onStores (locate : Bytes → Nat) (batch : Batch) (stores : Nat → Store) : Nat → Store :=
  batch.foldl (fun stores w =>
    Function.update stores (locate w.key) ((stores (locate w.key)).write w)) stores

/-- The tables after a batch. -/
def onTables (batch : Batch) (tables : Bytes → Table) : Bytes → Table :=
  batch.foldl (fun tables w => Function.update tables w.key ((tables w.key).change w.change)) tables

@[simp] theorem onStores_nil (locate : Bytes → Nat) (stores : Nat → Store) :
    onStores locate [] stores = stores := rfl

@[simp] theorem onTables_nil (tables : Bytes → Table) : onTables [] tables = tables := rfl

theorem onStores_append (locate : Bytes → Nat) (a b : Batch) (stores : Nat → Store) :
    onStores locate (a ++ b) stores = onStores locate b (onStores locate a stores) :=
  List.foldl_append

theorem onTables_append (a b : Batch) (tables : Bytes → Table) :
    onTables (a ++ b) tables = onTables b (onTables a tables) :=
  List.foldl_append

theorem mem_set {key field value : Bytes} {w : Write} (h : w ∈ Batch.set key field value) :
    w = ⟨key, .set field value⟩ :=
  List.mem_singleton.1 h

theorem mem_delete {key : Bytes} {fields : List Bytes} {w : Write} (h : w ∈ Batch.delete key fields) :
    w = ⟨key, .delete fields⟩ := by
  unfold Batch.delete at h
  split at h
  · exact absurd h List.not_mem_nil
  · exact List.mem_singleton.1 h

/-- A batch for a single store changes that one only. -/
theorem onStores_of_single {locate : Bytes → Nat} {batch : Batch} {n : Nat}
    (h : ∀ w ∈ batch, locate w.key = n) (stores : Nat → Store) :
    onStores locate batch stores =
      Function.update stores n (batch.foldl Store.write (stores n)) := by
  induction batch generalizing stores with
  | nil => simp
  | cons w rest ih =>
    have hw := h w List.mem_cons_self
    have hrest := ih (fun w hmem => h w (List.mem_cons_of_mem _ hmem))
      (Function.update stores n ((stores n).write w))
    rw [Function.update_self, Function.update_idem] at hrest
    rw [List.foldl_cons, ← hrest, onStores, List.foldl_cons, hw]
    rfl

/-- The tables that the keys lead to after a batch. -/
theorem tables_onStores (locate : Bytes → Nat) (batch : Batch) (stores : Nat → Store) (key : Bytes) :
    (onStores locate batch stores (locate key)).table key =
      onTables batch (fun key => (stores (locate key)).table key) key := by
  induction batch generalizing stores with
  | nil => rfl
  | cons w rest ih =>
    have hstep : (fun key => (Function.update stores (locate w.key)
          ((stores (locate w.key)).write w) (locate key)).table key) =
        Function.update (fun key => (stores (locate key)).table key) w.key
          (((stores (locate w.key)).table w.key).change w.change) := by
      funext other
      by_cases hother : other = w.key
      · subst hother
        simp
      · rw [Function.update_of_ne hother]
        by_cases hstore : locate other = locate w.key
        · rw [hstore, Function.update_self, Store.table_write, if_neg (Ne.symm hother)]
        · rw [Function.update_of_ne hstore]
    have hrest := ih (Function.update stores (locate w.key) ((stores (locate w.key)).write w))
    rw [hstep] at hrest
    exact hrest

end Batch

/-- Whether a write may change the value of a field. -/
def Write.Touches (w : Write) (key field : Bytes) : Prop :=
  w.key = key ∧ match w.change with
    | .set changed _ => changed = field
    | .delete changed => field ∈ changed

theorem Write.getElem?_change_of_untouched {w : Write} {field : Bytes}
    (h : ¬ w.Touches w.key field) (table : Table) :
    (table.change w.change)[field]? = table[field]? := by
  obtain ⟨key, change⟩ := w
  cases change with
  | set changed value => rw [Table.getElem?_change_set, if_neg fun heq => h ⟨rfl, heq⟩]
  | delete changed => rw [Table.getElem?_change_delete, if_neg fun hmem => h ⟨rfl, hmem⟩]

theorem Store.getElem?_write_of_untouched (store : Store) {w : Write} {key field : Bytes}
    (h : ¬ w.Touches key field) : ((store.write w).table key)[field]? = (store.table key)[field]? := by
  rw [table_write]
  split
  · rename_i hkey
    subst hkey
    exact Write.getElem?_change_of_untouched h _
  · rfl

namespace Batch

theorem getElem?_onTables_singleton (w : Write) (tables : Bytes → Table) (key field : Bytes) :
    (onTables [w] tables key)[field]? =
      if w.key = key then ((tables key).change w.change)[field]? else (tables key)[field]? := by
  by_cases h : w.key = key
  · subst h
    simp [onTables]
  · simp [onTables, h, Function.update_of_ne (Ne.symm h)]

theorem getElem?_onTables_set (key field value : Bytes) (tables : Bytes → Table) (k f : Bytes) :
    (onTables (Batch.set key field value) tables k)[f]? =
      if key = k ∧ field = f then some value else (tables k)[f]? := by
  rw [Batch.set, getElem?_onTables_singleton, Table.getElem?_change_set]
  by_cases hkey : key = k <;> simp [hkey]

theorem getElem?_onTables_delete (key : Bytes) (fields : List Bytes) (tables : Bytes → Table)
    (k f : Bytes) :
    (onTables (Batch.delete key fields) tables k)[f]? =
      if key = k ∧ f ∈ fields then none else (tables k)[f]? := by
  unfold Batch.delete
  split
  · rename_i hempty
    simp [List.isEmpty_iff.1 hempty]
  · rw [getElem?_onTables_singleton, Table.getElem?_change_delete]
    by_cases hkey : key = k <;> simp [hkey]

/-- A field that no write of a batch touches keeps its value. -/
theorem getElem?_onTables_of_untouched {batch : Batch} {key field : Bytes}
    (h : ∀ w ∈ batch, ¬ w.Touches key field) (tables : Bytes → Table) :
    (onTables batch tables key)[field]? = (tables key)[field]? := by
  induction batch generalizing tables with
  | nil => rfl
  | cons w rest ih =>
    have hrest := ih (fun w hmem => h w (List.mem_cons_of_mem _ hmem)) (onTables [w] tables)
    have happend := onTables_append [w] rest tables
    rw [List.singleton_append] at happend
    rw [happend, hrest, getElem?_onTables_singleton]
    split
    · rename_i hkey
      subst hkey
      exact Write.getElem?_change_of_untouched (h w List.mem_cons_self) _
    · rfl

/-- What a batch makes of a field depends on nothing but the value that it had. -/
theorem getElem?_onTables_congr {a b : Bytes → Table} {key field : Bytes}
    (h : (a key)[field]? = (b key)[field]?) (batch : Batch) :
    (onTables batch a key)[field]? = (onTables batch b key)[field]? := by
  induction batch generalizing a b with
  | nil => exact h
  | cons w rest ih =>
    refine ih (a := onTables [w] a) (b := onTables [w] b) ?_
    rw [getElem?_onTables_singleton, getElem?_onTables_singleton]
    split
    · cases w.change with
      | set changed value => rw [Table.getElem?_change_set, Table.getElem?_change_set, h]
      | delete changed => rw [Table.getElem?_change_delete, Table.getElem?_change_delete, h]
    · exact h

/-- Batches that touch no common field may change places. -/
theorem onTables_comm {first second : Batch}
    (h : ∀ key field, (∃ w ∈ first, w.Touches key field) → ∀ w ∈ second, ¬ w.Touches key field)
    (tables : Bytes → Table) :
    onTables second (onTables first tables) = onTables first (onTables second tables) := by
  funext key
  refine Std.ExtTreeMap.ext_getElem? fun field => ?_
  by_cases htouched : ∃ w ∈ first, w.Touches key field
  · rw [getElem?_onTables_of_untouched (h key field htouched)]
    exact getElem?_onTables_congr (getElem?_onTables_of_untouched (h key field htouched) tables).symm _
  · have huntouched : ∀ w ∈ first, ¬ w.Touches key field :=
      fun w hmem htouches => htouched ⟨w, hmem, htouches⟩
    rw [getElem?_onTables_of_untouched huntouched (onTables second tables)]
    exact getElem?_onTables_congr (getElem?_onTables_of_untouched huntouched tables) _

end Batch

end BlockDir
