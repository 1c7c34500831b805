import BlockDir.Store.Command
import Std.Data.ExtTreeMap.Lemmas

/-!
# Stores

A store is one server's keyspace: tables under keys. A table that loses its last field is gone, so a
store is determined by what its tables hold (`Store.ext_table`). All changes go through
`Store.setTable`, and `table_setTable` is all that need be known of it.
-/

namespace BlockDir

/-- Fields and their values, in the order of the fields' bytes. -/
abbrev Table := Std.ExtTreeMap Bytes Bytes

/-- The tables of one server; no empty table is kept. -/
structure Store where
  tables : Std.ExtTreeMap Bytes Table
  inhabited : ∀ (key : Bytes) (table : Table), tables[key]? = some table → table ≠ ∅

namespace Table

/-- The reply to a question about a table. -/
def answer (table : Table) : Query → Reply
  | .has field => .integer (if field ∈ table then 1 else 0)
  | .get field =>
    match table[field]? with
    | some value => .bulk value
    | none => .nil
  | .fields => .multi table.keys

/-- Deletes fields in turn, counting those that were there. -/
def deleteCounting (table : Table) (fields : List Bytes) : Nat × Table :=
  fields.foldl (fun (n, t) field => (if field ∈ t then n + 1 else n, t.erase field)) (0, table)

/-- Changes a table. The reply counts the fields created or deleted. -/
def apply (table : Table) : Change → Reply × Table
  | .set field value =>
    (.integer (if field ∈ table then 0 else 1), table.insert field value)
  | .delete fields =>
    let (count, table) := table.deleteCounting fields
    (.integer count, table)

end Table

namespace Store

/-- A store without tables. -/
def empty : Store := ⟨∅, by simp⟩

instance : EmptyCollection Store := ⟨empty⟩

/-- The table under a key; a key that is not there has the empty table. -/
def table (store : Store) (key : Bytes) : Table := store.tables.getD key ∅

/-- Puts a table under a key. -/
def setTable (store : Store) (key : Bytes) (table : Table) : Store :=
  if h : table = ∅ then
    ⟨store.tables.erase key, fun k t ht => by
      rw [Std.ExtTreeMap.getElem?_erase] at ht
      split at ht
      · simp at ht
      · exact store.inhabited k t ht⟩
  else
    ⟨store.tables.insert key table, fun k t ht => by
      rw [Std.ExtTreeMap.getElem?_insert] at ht
      split at ht
      · rw [← Option.some.inj ht]; exact h
      · exact store.inhabited k t ht⟩

/-- Runs one command. -/
def run (store : Store) : Command → Reply × Store
  | .ask key query => ((store.table key).answer query, store)
  | .write ⟨key, change⟩ =>
    let (reply, table) := (store.table key).apply change
    (reply, store.setTable key table)

/-- Runs commands in turn. -/
def runAll (store : Store) : List Command → List Reply × Store
  | [] => ([], store)
  | command :: rest =>
    let (reply, store) := store.run command
    let (replies, store) := runAll store rest
    (reply :: replies, store)

/-- The value of one field. -/
def get? (store : Store) (key field : Bytes) : Option Bytes := (store.table key)[field]?

/-- Sets one field. -/
def put (store : Store) (key field value : Bytes) : Store :=
  store.setTable key ((store.table key).insert field value)

/-- Deletes one field. -/
def remove (store : Store) (key field : Bytes) : Store :=
  store.setTable key ((store.table key).erase field)

@[simp] theorem table_empty (key : Bytes) : (∅ : Store).table key = ∅ := by
  show Store.empty.table key = ∅
  simp [table, empty]

/-- After a table is put under a key, that key has it and all others have what they had. -/
theorem table_setTable (store : Store) (key other : Bytes) (t : Table) :
    (store.setTable key t).table other = if key = other then t else store.table other := by
  by_cases h : t = ∅
  · by_cases hk : key = other <;>
      simp [setTable, table, h, hk, Std.ExtTreeMap.getD_erase]
  · by_cases hk : key = other <;>
      simp [setTable, table, h, hk, Std.ExtTreeMap.getD_insert]

/-- Stores with the same tables are the same. -/
theorem ext_table {a b : Store} (h : ∀ key, a.table key = b.table key) : a = b := by
  obtain ⟨ta, ha⟩ := a
  obtain ⟨tb, hb⟩ := b
  have ht : ta = tb := by
    refine Std.ExtTreeMap.ext_getElem? fun key => ?_
    have hkey := h key
    simp only [table, Std.ExtTreeMap.getD_eq_getD_getElem?] at hkey
    cases hla : ta[key]? with
    | none =>
      cases hlb : tb[key]? with
      | none => rfl
      | some t => exact absurd (by simpa [hla, hlb] using hkey.symm) (hb key t hlb)
    | some s =>
      cases hlb : tb[key]? with
      | none => exact absurd (by simpa [hla, hlb] using hkey) (ha key s hla)
      | some t => simpa [hla, hlb] using hkey
  subst ht
  rfl

end Store

end BlockDir
