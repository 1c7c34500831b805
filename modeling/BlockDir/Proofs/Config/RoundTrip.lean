import BlockDir.Proofs.Json.Writing

/-!
# Settings survive their JSON form

An object that has all settings in their order is read like the array of them (`readRecord_object`), and
every setting is read as it was written (`Config.stands_members`). So valid settings that were written are
read back as they were, and are found valid again (`Config.ofFile_toJson`).
-/

namespace BlockDir

namespace Json

variable {α : Type}

theorem find?_schema {schema front back : Schema α} {key : String} {change : Json → α → Option α}
    (hsplit : schema = front ++ (key, change) :: back) (hfront : key ∉ front.map (·.1)) :
    schema.find? (·.1 = key) = some (key, change) := by
  have hnone : front.find? (·.1 = key) = none := by
    rw [List.find?_eq_none]
    intro entry hmem heq
    exact hfront (List.mem_map.2 ⟨entry, hmem, by simpa using heq⟩)
  rw [hsplit, List.find?_append, hnone, Option.none_or, List.find?_cons_of_pos (by simp)]

/-- Fields that come in the order of the schema are read like items, if those before them belong to other
settings. -/
theorem readFields_of_order {schema : Schema α} (hnodup : (schema.map (·.1)).Nodup)
    {front back : Schema α} (hsplit : schema = front ++ back) {seen : List String}
    (hseen : ∀ key ∈ seen, key ∈ front.map (·.1)) (values : List Json)
    (hlength : values.length = back.length) (record : α) :
    readFields schema seen record (List.zipWith (fun entry value => (some entry.1, value)) back values) =
      readItems record back values := by
  induction back generalizing front seen values record with
  | nil =>
    obtain rfl := List.length_eq_zero_iff.1 hlength
    rfl
  | cons entry back ih =>
    obtain ⟨key, change⟩ := entry
    obtain ⟨value, values, rfl⟩ := List.exists_cons_of_length_eq_add_one hlength
    have hfront : key ∉ front.map (·.1) := by
      rw [hsplit, List.map_append, List.map_cons] at hnodup
      intro hmem
      exact (List.nodup_append.1 hnodup).2.2 key hmem key List.mem_cons_self rfl
    have hnew : seen.contains key = false := by
      rw [List.contains_eq_mem, decide_eq_false_iff_not]
      exact fun hmem => hfront (hseen key hmem)
    rw [List.zipWith_cons_cons, readFields, find?_schema hsplit hfront, readItems]
    simp only [hnew, Bool.false_eq_true, if_false]
    cases change value record with
    | none => rfl
    | some changed =>
      have hmore : schema = (front ++ [(key, change)]) ++ back := by
        rw [hsplit, List.append_assoc, List.singleton_append]
      refine ih hmore ?_ values (by simpa using hlength) changed
      intro other hmem
      rw [List.map_append]
      rcases List.mem_cons.1 hmem with rfl | hmem
      · exact List.mem_append_right _ (by simp)
      · exact List.mem_append_left _ (hseen other hmem)

/-- An object that has all settings in their order is read like the array of them. -/
theorem readRecord_object {schema : Schema α} (hnodup : (schema.map (·.1)).Nodup) {values : List Json}
    (hlength : values.length = schema.length) (standard : α) :
    readRecord schema standard
        (.object (List.zipWith (fun entry value => (some entry.1, value)) schema values)) =
      readRecord schema standard (.array values) :=
  readFields_of_order hnodup (List.nil_append schema).symm (fun _ hmem => absurd hmem List.not_mem_nil)
    values hlength standard

end Json

namespace Config

/-- The settings of a directory as the members of an object. -/
def members (c : Config) : List Json.Member :=
  [⟨"block_size", Decimal.digits c.blockSize, .number (some c.blockSize)⟩,
    ⟨"catalog_key", Json.writeText c.catalogKey, .string (some c.catalogKey)⟩,
    ⟨"blocks_key", Json.writeText c.blocksKey, .string (some c.blocksKey)⟩,
    ⟨"connection_timeout_ms", Decimal.digits c.connectionTimeout, .number (some c.connectionTimeout)⟩,
    ⟨"lock_dir", Json.writeText c.lockDir, .string (some c.lockDir)⟩,
    ⟨"compress", Json.writeBool c.compress, .bool c.compress⟩,
    ⟨"sync_interval", Decimal.digits c.syncInterval, .number (some c.syncInterval)⟩,
    ⟨"checksum", Json.writeBool c.checksum, .bool c.checksum⟩]

/-- Every setting is written as a token that stands for it, if the numbers have at most 64 bits. -/
theorem stands_members {c : Config} (hsize : c.blockSize ≤ Decimal.max64)
    (htimeout : c.connectionTimeout ≤ Decimal.max64) (hinterval : c.syncInterval ≤ Decimal.max64) :
    ∀ member ∈ c.members, member.Stands := by
  have hnumber : ∀ key n, n ≤ Decimal.max64 →
      (⟨key, Decimal.digits n, .number (some n)⟩ : Json.Member).Stands :=
    fun _ n h => ⟨.number (some n), Json.writes_digits h, rfl⟩
  have htext : ∀ key text, (⟨key, Json.writeText text, .string (some text)⟩ : Json.Member).Stands :=
    fun _ text => ⟨.string (some text), Json.writes_text text, rfl⟩
  have hbool : ∀ key value, (⟨key, Json.writeBool value, .bool value⟩ : Json.Member).Stands :=
    fun _ value => ⟨.bool value, Json.writes_bool value, rfl⟩
  simp only [members, List.forall_mem_cons, List.not_mem_nil, false_imp_iff, implies_true, and_true]
  exact ⟨hnumber _ _ hsize, htext _ _, htext _ _, hnumber _ _ htimeout, htext _ _, hbool _ _,
    hnumber _ _ hinterval, hbool _ _⟩

/-- Settings that were written are read from the members that they were written as. -/
theorem readRecord_members (c : Config) :
    Json.readRecord schema standard (.object (c.members.map fun m => (some m.key, m.value))) =
      some c := by
  have hnodup : (schema.map (·.1)).Nodup := by decide
  have hobject : (c.members.map fun m => (some m.key, m.value)) =
      List.zipWith (fun entry value => (some entry.1, value)) schema (c.members.map (·.value)) := rfl
  rw [hobject, Json.readRecord_object hnodup rfl]
  rfl

/-- Valid settings, whatever texts and numbers of 64 bits they consist of, are read back from a file that
they were written to. -/
theorem ofFile_toJson {c : Config} (hvalid : c.validate = .ok ())
    (htimeout : c.connectionTimeout ≤ Decimal.max64) (hinterval : c.syncInterval ≤ Decimal.max64)
    (path : String) : ofFile path (.ok c.toJson) = .ok c := by
  have hsize : c.blockSize ≤ Decimal.max64 := by
    have hblock := (validate_eq_ok_iff.1 hvalid).2.1
    unfold maxBlockSize at hblock
    unfold Decimal.max64
    omega
  have hparse : Json.parse c.toJson =
      some (.object (c.members.map fun m => (some m.key, m.value))) :=
    Json.parse_writeObject (stands_members hsize htimeout hinterval)
  rw [ofFile, ofJson, hparse, Option.bind_some, readRecord_members]
  simp only [hvalid]

/-- Settings with quotes, backslashes, control characters and letters beyond ASCII in their texts, and with
the longest wait. -/
theorem ofFile_toJson_escaped :
    let c : Config :=
      ⟨4096, "a\"b\\\x01\n", "größe\t\x7f", Decimal.max64, "/tmp/錠/\x00", true, 1, false⟩
    c.validate = .ok () ∧ ofFile "settings.json" (.ok c.toJson) = .ok c := by
  intro c
  have hvalid : c.validate = .ok () := validate_eq_ok_iff.2 (by decide)
  exact ⟨hvalid, ofFile_toJson hvalid (Nat.le_refl _) (by decide) "settings.json"⟩

end Config

end BlockDir
