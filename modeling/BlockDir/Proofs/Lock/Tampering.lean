import BlockDir.Proofs.Link.Sending
import BlockDir.Proofs.Lock.Sites

/-!
# Locks on files that are tampered with

Others may move, replace, delete and fill the lock files. Then several locks of one path can be held
at once, each on a file of its own, for the operating system keeps one lock to a file and knows of no
paths. Only one of them is good all the same (`LockSite.good_lock_unique`): the path leads to one file,
and files that are in use are told apart by their marks, although the mark of a file that is gone may
come up again.
-/

namespace BlockDir

/-- The file that a name leads to, if it is one. -/
def Entry.file? : Entry → Option Nat
  | file identity => some identity
  | directory _ => none

namespace FileSystem

/-- The files that have a name. -/
def linked (files : FileSystem) : List Nat :=
  files.directories.toList.flatMap fun directory =>
    directory.2.toList.filterMap fun named => named.2.file?

variable {files : FileSystem}

theorem mem_linked {number identity : Nat} {name : String}
    (h : files.lookup number name = some (.file identity)) : identity ∈ files.linked := by
  rw [lookup, Std.ExtTreeMap.getD_eq_getD_getElem?] at h
  cases hentries : files.directories[number]? with
  | none =>
    rw [hentries, Option.getD_none, Std.ExtTreeMap.getElem?_empty] at h
    cases h
  | some entries =>
    rw [hentries, Option.getD_some] at h
    refine List.mem_flatMap.2
      ⟨(number, entries), ?_, List.mem_filterMap.2 ⟨(name, .file identity), ?_, rfl⟩⟩
    · exact Std.ExtTreeMap.mem_toList_iff_getElem?_eq_some.2 hentries
    · exact Std.ExtTreeMap.mem_toList_iff_getElem?_eq_some.2 h

/-- Where a path ends at a name, it leads to what the name leads to. -/
theorem lookup_of_resolve {path : Path} {way : Way} {name : String} {entry : Option Entry}
    (h : files.resolve path = .ok (.name way name entry)) :
    files.lookup way.number name = entry := by
  unfold resolve follow at h
  split at h
  · cases h
  · split at h
    · cases h
    · split at h
      · cases h
      · split at h
        · cases h
        · split at h
          · cases h
          · split at h
            · cases h
            · cases h
              rfl

theorem linked_of_identity {path : Path} {identity : Nat}
    (h : files.identity path = .ok (some identity)) : identity ∈ files.linked := by
  unfold FileSystem.identity find at h
  cases hresolve : files.resolve path with
  | error e =>
    rw [hresolve] at h
    cases h
  | ok target =>
    rw [hresolve] at h
    rcases target with way | ⟨way, name, _ | _ | found⟩
    · cases h
    · cases h
    · cases h
    · cases h
      exact mem_linked (lookup_of_resolve hresolve)

theorem locked_openOrCreate (path : Path) (files : FileSystem) :
    (finalState (openOrCreate path files)).locked = files.locked := by
  unfold openOrCreate
  split
  · rfl
  · split
    · rfl
    · split <;> rfl

end FileSystem

/-- What others may do to files. -/
inductive Tampering where
  | write (path : Path) (data : Bytes)
  | append (path : Path) (data : Bytes)
  | truncate (path : Path)
  | remove (path : Path)
  /-- A new empty file comes in the place of a file. -/
  | replace (path : Path)
  /-- A file comes to another path, perhaps in the place of another file. -/
  | move (source dest : Path)

namespace Tampering

/-- The action on files. -/
def act : Tampering → FileM Unit
  | write path data => FileSystem.writeFile path data
  | append path data => FileSystem.appendFile path data
  | truncate path => FileSystem.writeFile path []
  | remove path => FileSystem.removeFile path
  | replace path => FileSystem.replaceFile path
  | move source dest => FileSystem.moveFile source dest

/-- Whatever others do to files, those that are locked stay locked. -/
theorem locked_act (what : Tampering) (files : FileSystem) :
    (finalState (what.act files)).locked = files.locked := by
  -- a file that is opened to be written to is changed only in its contents
  have hchange : ∀ (path : Path) (change : Nat → FileSystem → FileSystem),
      (∀ identity files, (change identity files).locked = files.locked) →
      (finalState ((FileSystem.openOrCreate path >>= fun identity => modify (change identity) :
        FileM Unit) files)).locked = files.locked := by
    intro path change hlocked
    have hopen := FileSystem.locked_openOrCreate path files
    simp only [bind, EStateM.bind]
    cases hresult : FileSystem.openOrCreate path files with
    | ok identity after =>
      rw [hresult] at hopen
      exact (hlocked identity after).trans hopen
    | error e after =>
      rw [hresult] at hopen
      exact hopen
  cases what with
  | write path data | truncate path => exact hchange path _ fun _ _ => rfl
  | append path data => exact hchange path _ fun _ _ => rfl
  | remove path =>
    simp only [act, FileSystem.removeFile]
    split <;> rfl
  | replace path =>
    simp only [act, FileSystem.replaceFile, FileSystem.newFile]
    split <;> rfl
  | move source dest =>
    simp only [act, FileSystem.moveFile]
    split
    · rfl
    · rfl
    · rfl
    · rfl
    · split <;> rfl

end Tampering

namespace HeldLock

/-- The file that a lock keeps open. -/
def openFile? (lock : HeldLock) : Option Nat := if lock.released then none else some lock.identity

/-- What makes a lock good. -/
theorem validate_eq_ok_iff {lock : HeldLock} {files : FileSystem} {m : LockManager} :
    lock.validate files m = .ok () ↔
      lock.released = false ∧ lock.path ∈ m.held ∧ files.content lock.identity = [] ∧
        ∃ identity, files.identity lock.path = .ok (some identity) ∧
          files.mark identity = files.mark lock.identity := by
  have hflaw : lock.validate files m = .ok () ↔ lock.flaw? files m = none := by
    unfold validate
    cases lock.flaw? files m <;> simp
  rw [hflaw, flaw?]
  by_cases hreleased : lock.released = true
  · simp [hreleased]
  · by_cases hheld : lock.path ∈ m.held
    · by_cases hempty : files.content lock.identity = []
      · cases files.identity lock.path with
        | error e => simp [hreleased, hheld, hempty]
        | ok found => simp [hreleased, hheld, hempty]
      · simp [hreleased, hheld, hempty]
    · simp [hreleased, hheld]

end HeldLock

namespace LockSite

variable {ι : Type} {site : LockSite ι} {directory : Path} {number : Nat} {i : ι} {lock : HeldLock}

/-- Whether a lock is there and found to be good. -/
def Good (site : LockSite ι) (number : Nat) (manager : ι) (lock : HeldLock) : Prop :=
  site.lock? number = some (manager, lock) ∧
    lock.validate site.files (site.managers manager) = .ok ()

/-- The files that are in use: they are kept open by a lock, or have a name. -/
def inUse (site : LockSite ι) : List Nat :=
  (site.locks.filterMap fun held => held.bind fun held => held.2.openFile?) ++ site.files.linked

/-- Whether files that are in use are told apart by their marks. -/
def ToldApart (site : LockSite ι) : Prop :=
  ∀ a ∈ site.inUse, ∀ b ∈ site.inUse, site.files.mark a = site.files.mark b → a = b

instance (site : LockSite ι) : Decidable site.ToldApart :=
  inferInstanceAs (Decidable (∀ a ∈ site.inUse, ∀ b ∈ site.inUse,
    site.files.mark a = site.files.mark b → a = b))

theorem Holds.inUse (h : site.Holds number i lock) : lock.identity ∈ site.inUse := by
  have hheld : some (i, lock) ∈ site.locks := List.mem_of_getElem? (Option.join_eq_some_iff.1 h.1)
  refine List.mem_append_left _ (List.mem_filterMap.2 ⟨_, hheld, ?_⟩)
  simp [HeldLock.openFile?, h.2]

/-- A path leads to one file, and a lock on another file is not good. -/
theorem identity_of_good (htold : site.ToldApart) (h : site.Good number i lock) :
    site.files.identity lock.path = .ok (some lock.identity) := by
  obtain ⟨hreleased, -, -, identity, hthere, hmark⟩ := HeldLock.validate_eq_ok_iff.1 h.2
  have hlinked : identity ∈ site.inUse :=
    List.mem_append_right _ (FileSystem.linked_of_identity hthere)
  have hopen : lock.identity ∈ site.inUse := Holds.inUse ⟨h.1, hreleased⟩
  rw [← htold _ hlinked _ hopen hmark]
  exact hthere

namespace Guarded

variable (h : site.Guarded directory)

include h

/-- A lock is good just if it was not given back, its file is empty, and its path leads to that file. -/
theorem validate_iff (htold : site.ToldApart) (hlock : site.lock? number = some (i, lock)) :
    lock.validate site.files (site.managers i) = .ok () ↔
      lock.released = false ∧ site.files.content lock.identity = [] ∧
        site.files.identity lock.path = .ok (some lock.identity) := by
  constructor
  · intro hgood
    obtain ⟨hreleased, -, hempty, -⟩ := HeldLock.validate_eq_ok_iff.1 hgood
    exact ⟨hreleased, hempty, identity_of_good htold ⟨hlock, hgood⟩⟩
  · rintro ⟨hreleased, hempty, hthere⟩
    exact HeldLock.validate_eq_ok_iff.2
      ⟨hreleased, h.path_mem ⟨hlock, hreleased⟩, hempty, _, hthere, rfl⟩

/-- Good locks of one path are on one file, which is locked once. -/
theorem good_unique (htold : site.ToldApart) {m n : Nat} {j : ι} {a b : HeldLock}
    (ha : site.Good m i a) (hb : site.Good n j b) (hpath : a.path = b.path) : m = n := by
  have hthere := identity_of_good htold ha
  rw [hpath, identity_of_good htold hb] at hthere
  have hidentity : a.identity = b.identity := (Option.some.inj (Except.ok.inj hthere)).symm
  exact h.eq_of_identity ⟨ha.1, (HeldLock.validate_eq_ok_iff.1 ha.2).1⟩
    ⟨hb.1, (HeldLock.validate_eq_ok_iff.1 hb.2).1⟩ hidentity

end Guarded

end LockSite

/-- What happens to managers and their files: a call, or something from outside. -/
inductive LockEvent (ι : Type) where
  | call (call : LockCall ι)
  | tampering (what : Tampering)

namespace LockSite

variable {ι : Type} [DecidableEq ι] {site : LockSite ι} {directory : Path}

/-- The managers after an event. -/
def happen (site : LockSite ι) : LockEvent ι → LockSite ι
  | .call call => (site.step call).2
  | .tampering what => { site with files := finalState (what.act site.files) }

/-- The managers after events, one after the other. -/
def runAmid (site : LockSite ι) (events : List (LockEvent ι)) : LockSite ι :=
  events.foldl happen site

/-- Whatever happens, the accounts are kept. -/
theorem Guarded.happen (h : site.Guarded directory) (event : LockEvent ι) :
    (site.happen event).Guarded directory := by
  cases event with
  | call call => exact h.step call
  | tampering what =>
    refine ⟨h.place, h.held, ?_⟩
    rw [LockSite.happen, what.locked_act]
    exact h.locked

theorem Guarded.runAmid (h : site.Guarded directory) (events : List (LockEvent ι)) :
    (site.runAmid events).Guarded directory := by
  induction events generalizing site with
  | nil => exact h
  | cons event rest ih => exact ih (h.happen event)

/-- Several managers of one directory give out locks and take them back, while others tamper with the
lock files as they like. Wherever files in use are told apart, at most one lock of a path is good, and
a lock is good just if it was not given back, its file is empty, and its path leads to that file. -/
theorem good_lock_unique {files : FileSystem} (hfree : files.locked = []) (directory : Path)
    (events : List (LockEvent ι)) (htold : ((start files directory).runAmid events).ToldApart) :
    let site := (start files directory).runAmid events
    (∀ {m n : Nat} {i j : ι} {a b : HeldLock}, site.Good m i a → site.Good n j b →
        a.path = b.path → m = n) ∧
      ∀ {number : Nat} {i : ι} {lock : HeldLock}, site.lock? number = some (i, lock) →
        (lock.validate site.files (site.managers i) = .ok () ↔
          lock.released = false ∧ site.files.content lock.identity = [] ∧
            site.files.identity lock.path = .ok (some lock.identity)) := by
  intro site
  have hguarded : site.Guarded directory := (guarded_start hfree).runAmid events
  exact ⟨hguarded.good_unique htold, hguarded.validate_iff htold⟩

/-- Two locks of one path are held on different files, and the first of these had been moved away and is
back: just its lock is good. The file of a lock that was given back is gone, and the second file has its
mark. -/
theorem good_lock_unique_moved_back :
    let files := { FileSystem.new "/" with mark := fun identity => min identity 2 }
    let events : List (LockEvent Bool) := [.call (.acquire true "w" none),
      .tampering (.move ["w"] ["kept"]), .call (.acquire false "w" none), .call (.release 1 none),
      .tampering (.remove ["w"]), .call (.acquire false "w" none),
      .tampering (.move ["w"] ["other"]), .tampering (.move ["kept"] ["w"])]
    let site := (start files []).runAmid events
    files.locked = [] ∧ site.ToldApart ∧ site.files.mark 2 = site.files.mark 3 ∧
      (∃ a b, site.Holds 0 true a ∧ site.Holds 2 false b ∧ a.path = b.path) ∧
      (∃ lock, site.Good 0 true lock) ∧ (∀ lock, ¬ site.Good 2 false lock) ∧
      ∀ {m n : Nat} {i j : Bool} {a b : HeldLock}, site.Good m i a → site.Good n j b →
        a.path = b.path → m = n := by
  intro files events site
  have hfree : files.locked = [] := rfl
  have htold : site.ToldApart := by decide +kernel
  have hmark : site.files.mark 2 = site.files.mark 3 := by decide +kernel
  have hfirst : site.lock? 0 = some (true, ⟨"w", ["w"], 1, false⟩) := by decide +kernel
  have hsecond : site.lock? 2 = some (false, ⟨"w", ["w"], 3, false⟩) := by decide +kernel
  have hempty : site.files.content 1 = [] := by decide +kernel
  have hfound : (site.files.identity ["w"]).toOption = some (some 1) := by decide +kernel
  obtain ⟨hunique, hgood⟩ := good_lock_unique hfree [] events htold
  -- from here on nothing is to be computed
  have hsite : (start files []).runAmid events = site := rfl
  rw [hsite] at hunique hgood
  clear_value site
  have hthere : site.files.identity ["w"] = .ok (some 1) := by
    generalize site.files.identity ["w"] = result at hfound
    cases result with
    | error e => cases hfound
    | ok found => exact congrArg Except.ok (Option.some.inj hfound)
  refine ⟨hfree, htold, hmark, ⟨_, _, ⟨hfirst, rfl⟩, ⟨hsecond, rfl⟩, rfl⟩,
    ⟨_, hfirst, (hgood hfirst).2 ⟨rfl, hempty, hthere⟩⟩, fun lock hlock => ?_, hunique⟩
  cases hsecond.symm.trans hlock.1
  obtain ⟨-, -, hother⟩ := (hgood hsecond).1 hlock.2
  cases hthere.symm.trans hother

end LockSite

end BlockDir
