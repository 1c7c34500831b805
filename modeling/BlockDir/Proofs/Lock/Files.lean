import BlockDir.Lock
import Mathlib

/-!
# Lock files

A lock name is one part of a path, so a lock file lies right in the directory of its manager. Opening
it fails and changes nothing, or finds the file, or makes it: then it is a file of its own, and no
other name of the directory leads elsewhere than before (`FileSystem.openOrCreate_cases`).
-/

namespace BlockDir

section

variable {name : String}

theorem isLockName_iff : isLockName name = true ↔
    name ≠ "" ∧ name ≠ "." ∧ name ≠ ".." ∧ '/' ∉ name.toList ∧ '\\' ∉ name.toList := by
  simp [isLockName, and_assoc]

/-- A lock name, read as a path, is the one part that it is. -/
theorem names_parse_of_isLockName (h : isLockName name = true) : (Path.parse name).names = [name] := by
  obtain ⟨hempty, hdot, -, hslash, -⟩ := isLockName_iff.1 h
  simp [Path.parse, List.splitOn_eq_singleton hslash, Path.names, Path.isIdle, hempty, hdot]

theorem isFromTop_of_isLockName (h : isLockName name = true) : Path.isFromTop name = false := by
  obtain ⟨-, -, -, hslash, -⟩ := isLockName_iff.1 h
  rw [Path.isFromTop, decide_eq_false_iff_not]
  exact fun hhead => hslash (List.mem_of_head? hhead)

end

namespace FileSystem

variable {files : FileSystem} {directory : Path} {name : String} {way : Way}

theorem follow_append (hname : isLockName name = true) (hwalk : files.walk directory = .ok way) :
    files.follow (directory ++ [name]) =
      if maxPartLength < name.utf8ByteSize then .error .invalidFilename
      else .ok (.name way name (files.lookup way.number name)) := by
  obtain ⟨hempty, hdot, hup, -, -⟩ := isLockName_iff.1 hname
  have hidle : Path.isIdle name = false := by simp [Path.isIdle, hempty, hdot]
  simp only [follow, List.dropLast_concat, hwalk, List.getLast?_concat, hidle, hup, if_false,
    Bool.false_eq_true]

/-- Where the path of a lock file ends depends on its directory and on what its name leads to there. -/
theorem resolve_append (hname : isLockName name = true) (hwalk : files.walk directory = .ok way) :
    files.resolve (directory ++ [name]) =
      match (directory ++ [name]).check with
      | .error e => .error e
      | .ok () =>
        if maxPartLength < name.utf8ByteSize then .error .invalidFilename
        else .ok (.name way name (files.lookup way.number name)) := by
  have hfollow := follow_append hname hwalk
  cases hcheck : (directory ++ [name]).check <;> simp only [resolve, hcheck, hfollow]

theorem resolve_cases (files : FileSystem) (directory : Path) (hname : isLockName name = true) :
    (∃ e, files.resolve (directory ++ [name]) = .error e) ∨
      ∃ way, files.walk directory = .ok way ∧ files.resolve (directory ++ [name]) =
        .ok (.name way name (files.lookup way.number name)) := by
  cases hwalk : files.walk directory with
  | error e =>
    left
    simp only [resolve, follow, List.dropLast_concat, hwalk]
    split <;> exact ⟨_, rfl⟩
  | ok way =>
    rw [resolve_append hname hwalk]
    split
    · exact .inl ⟨_, rfl⟩
    · split
      · exact .inl ⟨_, rfl⟩
      · exact .inr ⟨way, rfl, rfl⟩

/-- A path that can be followed can be followed also where the directory has changed. -/
theorem resolve_of_resolve {after : FileSystem} {entry : Option Entry} (hname : isLockName name = true)
    (hwalk : files.walk directory = .ok way) (hwalk' : after.walk directory = .ok way)
    (h : files.resolve (directory ++ [name]) = .ok (.name way name entry)) :
    after.resolve (directory ++ [name]) = .ok (.name way name (after.lookup way.number name)) := by
  rw [resolve_append hname hwalk] at h
  rw [resolve_append hname hwalk']
  split at h
  · cases h
  · split at h
    · cases h
    · rw [if_neg ‹_›]

/-- There is no slash at the end of the path. -/
theorem resolveNew_append (hname : isLockName name = true) :
    files.resolveNew (directory ++ [name]) = files.resolve (directory ++ [name]) := by
  have hempty := (isLockName_iff.1 hname).1
  have hsame : Path.withoutSlashes (directory ++ [name]) = directory ++ [name] := by
    simp [Path.withoutSlashes, hempty]
  rw [resolveNew, resolve, hsame]

theorem identity_eq_some_iff {path : Path} {entry : Option Entry}
    (h : files.resolve path = .ok (.name way name entry)) {identity : Nat} :
    files.identity path = .ok (some identity) ↔ entry = some (.file identity) := by
  simp only [FileSystem.identity, find, h]
  rcases entry with _ | _ | _ <;> simp

/-- Directories are walked through as before where all their entries for directories are as before. -/
theorem walk_of_lookup {after : FileSystem}
    (h : ∀ number part found, files.lookup number part = some (.directory found) →
      after.lookup number part = some (.directory found))
    {path : Path} (hwalk : files.walk path = .ok way) : after.walk path = .ok way := by
  have hstep : ∀ {start next : Way} {part : String}, files.step start part = .ok next →
      after.step start part = .ok next := by
    intro start next part hnext
    rw [step] at hnext ⊢
    split at hnext
    · rwa [if_pos ‹_›]
    · rw [if_neg ‹_›]
      split at hnext
      · rwa [if_pos ‹_›]
      · rw [if_neg ‹_›]
        split at hnext
        · cases hnext
        · rw [if_neg ‹_›]
          split at hnext
          · rename_i found hfound
            rw [h _ _ _ hfound]
            exact hnext
          · cases hnext
          · cases hnext
  have hfold : ∀ (path : Path) (start : Way), path.foldlM files.step start = .ok way →
      path.foldlM after.step start = .ok way := by
    intro path
    induction path with
    | nil => exact fun _ hall => hall
    | cons part rest ih =>
      intro start hall
      rw [List.foldlM_cons] at hall ⊢
      cases hpart : files.step start part with
      | error e =>
        rw [hpart] at hall
        cases hall
      | ok next =>
        rw [hpart] at hall
        rw [hstep hpart]
        exact ih next hall
  exact hfold path [] hwalk

/-- What happens to a directory and to the locks on files if a new file is made in the directory. -/
structure Gains (files : FileSystem) (directory : Path) (name : String) (after : FileSystem) :
    Prop where
  absent : ∀ identity, files.identity (directory ++ [name]) ≠ .ok (some identity)
  there : after.identity (directory ++ [name]) = .ok (some files.next)
  others : ∀ other, isLockName other = true → other ≠ name →
    after.identity (directory ++ [other]) = files.identity (directory ++ [other])
  next : after.next = files.next + 1
  locked : after.locked = files.locked

/-- A new file under a name that leads nowhere. -/
theorem gains_newFile (hname : isLockName name = true) (hwalk : files.walk directory = .ok way)
    (hfree : files.lookup way.number name = none)
    (hway : files.resolve (directory ++ [name]) = .ok (.name way name none)) :
    ∃ after, newFile way.number name files = .ok files.next after ∧
      files.Gains directory name after := by
  refine ⟨_, rfl, ?_⟩
  generalize hafter : FileSystem.mk _ _ _ _ _ _ = after
  have hlookup : ∀ number part, after.lookup number part =
      if way.number = number ∧ name = part then some (.file files.next)
      else files.lookup number part := by
    intro number part
    rw [← files.lookup_setEntry, ← hafter]
    rfl
  have hwalk' : after.walk directory = .ok way := by
    refine walk_of_lookup (fun number part found hfound => ?_) hwalk
    rw [hlookup, if_neg]
    · exact hfound
    · rintro ⟨rfl, rfl⟩
      rw [hfree] at hfound
      cases hfound
  refine ⟨fun identity hidentity => ?_, ?_, fun other hother hne => ?_, ?_, ?_⟩
  · cases (identity_eq_some_iff hway).1 hidentity
  · refine (identity_eq_some_iff (resolve_of_resolve hname hwalk hwalk' hway)).2 ?_
    rw [hlookup, if_pos ⟨rfl, rfl⟩]
  · have hsame : after.resolve (directory ++ [other]) = files.resolve (directory ++ [other]) := by
      have hfree' : ¬ (way.number = way.number ∧ name = other) := fun h => hne h.2.symm
      rw [resolve_append hother hwalk', resolve_append hother hwalk, hlookup, if_neg hfree']
    rw [identity, find, hsame, ← find, ← identity]
  · rw [← hafter]
  · rw [← hafter]
    rfl

/-- Opening a lock file fails and changes nothing, or it finds the file, or it makes it. -/
theorem openOrCreate_cases (files : FileSystem) (directory : Path) (hname : isLockName name = true) :
    (∃ e, openOrCreate (directory ++ [name]) files = .error e files) ∨
      (∃ identity, files.identity (directory ++ [name]) = .ok (some identity) ∧
        openOrCreate (directory ++ [name]) files = .ok identity files) ∨
      ∃ after, openOrCreate (directory ++ [name]) files = .ok files.next after ∧
        files.Gains directory name after := by
  have hslash : (directory ++ [name]).getLast? ≠ some "" := by
    rw [List.getLast?_concat]
    exact fun h => (isLockName_iff.1 hname).1 (Option.some.inj h)
  rw [openOrCreate, resolveNew_append hname]
  obtain ⟨e, he⟩ | ⟨way, hwalk, hway⟩ := files.resolve_cases directory hname
  · rw [he]
    exact .inl ⟨e, rfl⟩
  · rw [hway]
    simp only [hslash, if_false]
    cases hentry : files.lookup way.number name with
    | none =>
      rw [hentry] at hway
      exact .inr (.inr (gains_newFile hname hwalk hentry hway))
    | some entry =>
      rw [hentry] at hway
      cases entry with
      | directory number => exact .inl ⟨_, rfl⟩
      | file identity => exact .inr (.inl ⟨identity, (identity_eq_some_iff hway).2 rfl, rfl⟩)

/-- Different lock names lead to different files, and a new file will be yet another one. -/
structure Apart (files : FileSystem) (directory : Path) : Prop where
  distinct : ∀ {a b : String} {identity : Nat}, isLockName a = true → isLockName b = true →
    files.identity (directory ++ [a]) = .ok (some identity) →
    files.identity (directory ++ [b]) = .ok (some identity) → a = b
  fresh : ∀ {a : String} {identity : Nat}, isLockName a = true →
    files.identity (directory ++ [a]) = .ok (some identity) → identity < files.next

/-- A directory in which there is nothing. -/
theorem apart_of_empty (hwalk : files.walk directory = .ok way)
    (hempty : ∀ name, files.lookup way.number name = none) : files.Apart directory := by
  have hnone : ∀ {a : String} {identity : Nat}, isLockName a = true →
      files.identity (directory ++ [a]) ≠ .ok (some identity) := by
    intro a identity ha hidentity
    obtain ⟨e, he⟩ | ⟨other, hother, hway⟩ := files.resolve_cases directory ha
    · simp only [FileSystem.identity, find, he] at hidentity
      cases hidentity
    · obtain rfl := Except.ok.inj (hwalk.symm.trans hother)
      rw [hempty] at hway
      cases (identity_eq_some_iff hway).1 hidentity
  exact ⟨fun ha _ hidentity _ => absurd hidentity (hnone ha),
    fun ha hidentity => absurd hidentity (hnone ha)⟩

theorem apart_new (top : String) : (FileSystem.new top).Apart [] :=
  apart_of_empty rfl fun name => by simp [lookup, FileSystem.new]

/-- What opening a lock file comes to for the others: nothing, or a new file. -/
inductive Opened (files : FileSystem) (directory : Path) : FileSystem → Prop where
  | found : Opened files directory files
  | made {name : String} {after : FileSystem} (valid : isLockName name = true)
    (gains : files.Gains directory name after) : Opened files directory after

/-- Opening a lock file leads to a file at its path, or it fails. -/
theorem openOrCreate_opened (files : FileSystem) (directory : Path) (hname : isLockName name = true) :
    ∃ after, files.Opened directory after ∧
      ((∃ e, openOrCreate (directory ++ [name]) files = .error e after) ∨
        ∃ identity, after.identity (directory ++ [name]) = .ok (some identity) ∧
          openOrCreate (directory ++ [name]) files = .ok identity after) := by
  obtain herror | ⟨identity, hthere, hok⟩ | ⟨after, hok, hgains⟩ :=
    files.openOrCreate_cases directory hname
  · exact ⟨files, .found, .inl herror⟩
  · exact ⟨files, .found, .inr ⟨identity, hthere, hok⟩⟩
  · exact ⟨after, .made hname hgains, .inr ⟨_, hgains.there, hok⟩⟩

theorem openOrCreate_eq_ok (hname : isLockName name = true) {identity : Nat} {after : FileSystem}
    (h : openOrCreate (directory ++ [name]) files = .ok identity after) :
    files.Opened directory after ∧ after.identity (directory ++ [name]) = .ok (some identity) := by
  obtain ⟨found, hopened, ⟨e, he⟩ | ⟨other, hthere, hok⟩⟩ := files.openOrCreate_opened directory hname
  · cases he.symm.trans h
  · cases hok.symm.trans h
    exact ⟨hopened, hthere⟩

namespace Opened

variable {after : FileSystem}

theorem locked (h : files.Opened directory after) : after.locked = files.locked := by
  cases h with
  | found => rfl
  | made _ gains => exact gains.locked

/-- A file stays where it is. -/
theorem identity (h : files.Opened directory after) {other : String} {identity : Nat}
    (hother : isLockName other = true)
    (hthere : files.identity (directory ++ [other]) = .ok (some identity)) :
    after.identity (directory ++ [other]) = .ok (some identity) := by
  cases h with
  | found => exact hthere
  | made _ gains =>
    rw [gains.others other hother]
    · exact hthere
    · rintro rfl
      exact gains.absent identity hthere

theorem apart (h : files.Opened directory after) (hapart : files.Apart directory) :
    after.Apart directory := by
  cases h with
  | found => exact hapart
  | @made name after hname gains =>
    have hcases : ∀ {a : String} {identity : Nat}, isLockName a = true →
        after.identity (directory ++ [a]) = .ok (some identity) →
        a = name ∧ identity = files.next ∨
          files.identity (directory ++ [a]) = .ok (some identity) ∧ identity < files.next := by
      intro a identity ha hidentity
      by_cases hsame : a = name
      · subst hsame
        rw [gains.there] at hidentity
        exact .inl ⟨rfl, (Option.some.inj (Except.ok.inj hidentity)).symm⟩
      · rw [gains.others a ha hsame] at hidentity
        exact .inr ⟨hidentity, hapart.fresh ha hidentity⟩
    constructor
    · intro a b identity ha hb hidentity hidentity'
      obtain ⟨rfl, rfl⟩ | ⟨hold, hlt⟩ := hcases ha hidentity
      · obtain ⟨rfl, -⟩ | ⟨-, hlt⟩ := hcases hb hidentity'
        · rfl
        · exact absurd hlt (Nat.lt_irrefl _)
      · obtain ⟨-, rfl⟩ | ⟨hold', -⟩ := hcases hb hidentity'
        · exact absurd hlt (Nat.lt_irrefl _)
        · exact hapart.distinct ha hb hold hold'
    · intro a identity ha hidentity
      rw [gains.next]
      obtain ⟨-, rfl⟩ | ⟨-, hlt⟩ := hcases ha hidentity
      · exact Nat.lt_succ_self _
      · exact Nat.lt_succ_of_lt hlt

end Opened

end FileSystem

end BlockDir
