import BlockDir.Proofs.Lock.Sites

/-!
# Locks exclude each other

Managers of one directory, with nobody else at the lock files. Then a lock file stays where it is, and
different names stay different files (`LockSite.InStep`), so of one name there is never more than one
lock that was not given back (`LockSite.exclusive`).
-/

namespace BlockDir

namespace LockSite

variable {ι : Type} [DecidableEq ι] {site after : LockSite ι} {directory : Path} {number gone : Nat}
  {i j : ι} {lock new : HeldLock}

/-- The accounts are in order, and every lock is on the file of its name, which is that of no other. -/
structure InStep (site : LockSite ι) (directory : Path) : Prop extends site.Guarded directory where
  apart : site.files.Apart directory
  valid : ∀ {number i lock}, site.Holds number i lock → isLockName lock.name = true
  path : ∀ {number i lock}, site.Holds number i lock → lock.path = directory ++ [lock.name]
  there : ∀ {number i lock}, site.Holds number i lock →
    site.files.identity (directory ++ [lock.name]) = .ok (some lock.identity)

omit [DecidableEq ι] in
theorem inStep_start {files : FileSystem} (hapart : files.Apart directory) (hfree : files.locked = []) :
    (start files directory : LockSite ι).InStep directory := by
  have hnone : ∀ {number : Nat} {i : ι} {lock : HeldLock},
      ¬ (start files directory).Holds number i lock := by
    rintro number i lock ⟨hlock, -⟩
    cases hlock
  exact {
    toGuarded := guarded_start hfree
    apart := hapart
    valid := fun h => absurd h hnone
    path := fun h => absurd h hnone
    there := fun h => absurd h hnone }

namespace InStep

variable (h : site.InStep directory)

include h

omit [DecidableEq ι] in
/-- No two locks are of one name. -/
theorem alone {m n : Nat} {a b : HeldLock} (ha : site.Holds m i a) (hb : site.Holds n j b)
    (hname : a.name = b.name) : m = n := by
  have hsame := (h.there ha).symm.trans (hname ▸ h.there hb)
  exact h.eq_of_identity ha hb (Option.some.inj (Except.ok.inj hsame))

/-- What one call does to managers that are in step. -/
theorem step (call : LockCall ι) : (site.step call).2.InStep directory := by
  have hguarded := h.toGuarded.step call
  have hafter := h.toGuarded.becomes call
  generalize (site.step call).2 = after at hguarded hafter
  cases hafter with
  | same opened managers holds =>
    exact {
      toGuarded := hguarded
      apart := opened.apart h.apart
      valid := fun hlock => h.valid (holds.1 hlock)
      path := fun hlock => h.path (holds.1 hlock)
      there := fun hlock => opened.identity (h.valid (holds.1 hlock)) (h.there (holds.1 hlock)) }
  | @obtained i lock files opened valid path there unheld free new =>
    have hholds : ∀ {number j other}, (site.grant i lock files).Holds number j other ↔
        site.Holds number j other ∨ number = site.locks.length ∧ j = i ∧ other = lock :=
      holds_append rfl new
    have hapart := opened.apart h.apart
    refine ⟨hguarded, ⟨hapart.distinct, hapart.fresh⟩, fun hlock => ?_, fun hlock => ?_, fun hlock => ?_⟩
    · obtain hold | ⟨-, -, rfl⟩ := hholds.1 hlock
      · exact h.valid hold
      · exact valid
    · obtain hold | ⟨-, -, rfl⟩ := hholds.1 hlock
      · exact h.path hold
      · exact path
    · obtain hold | ⟨-, -, rfl⟩ := hholds.1 hlock
      · exact opened.identity (h.valid hold) (h.there hold)
      · exact there
  | @givenBack gone i lock rest there released =>
    have hold : ∀ {number j other}, (site.withdraw gone i lock rest).Holds number j other →
        site.Holds number j other := fun hlock => ((holds_set rfl released).1 hlock).1
    exact {
      toGuarded := hguarded
      apart := ⟨h.apart.distinct, h.apart.fresh⟩
      valid := fun hlock => h.valid (hold hlock)
      path := fun hlock => h.path (hold hlock)
      there := fun hlock => h.there (hold hlock) }

/-- What any calls do. -/
theorem run (calls : List (LockCall ι)) : (site.run calls).InStep directory := by
  induction calls generalizing site with
  | nil => exact h
  | cons call rest ih => exact ih (h.step call)

omit [DecidableEq ι] in
theorem isHeld_iff (i : ι) (name : String) : (site.managers i).isHeld site.files name = true ↔
    ∃ number lock, site.Holds number i lock ∧
      if Path.isFromTop name then Path.same name (site.files.display lock.path) = true
      else (Path.parse name).names = [lock.name] := by
  have hleads : ∀ {number lock}, site.Holds number i lock →
      ((site.managers i).leadsTo site.files name lock.path = true ↔
        if Path.isFromTop name then Path.same name (site.files.display lock.path) = true
        else (Path.parse name).names = [lock.name]) := by
    intro number lock hlock
    rw [LockManager.leadsTo]
    split
    · rfl
    · rw [h.path hlock, h.place i]
      simp
  rw [LockManager.isHeld, List.any_eq_true]
  constructor
  · rintro ⟨path, hpath, hname⟩
    obtain ⟨⟨number, lock⟩, hlock, rfl⟩ := (h.held i).mem.1 hpath
    exact ⟨number, lock, hlock, (hleads hlock).1 hname⟩
  · rintro ⟨number, lock, hlock, hname⟩
    exact ⟨lock.path, (h.held i).mem.2 ⟨(number, lock), hlock, rfl⟩, (hleads hlock).2 hname⟩

omit [DecidableEq ι] in
/-- A lock of a name is there just if its path is held or its file is locked. -/
theorem taken_iff (i : ι) {name : String} (hname : isLockName name = true) {identity : Nat}
    {opened : FileSystem}
    (hopen : FileSystem.openOrCreate (directory ++ [name]) site.files = .ok identity opened) :
    site.Taken name ↔ directory ++ [name] ∈ (site.managers i).held ∨ identity ∈ opened.locked := by
  obtain ⟨hopened, hthere⟩ := FileSystem.openOrCreate_eq_ok hname hopen
  rw [hopened.locked, (h.held i).mem, h.locked.mem]
  constructor
  · rintro ⟨number, j, lock, hlock, rfl⟩
    have hfound := (hopened.identity (h.valid hlock) (h.there hlock)).symm.trans hthere
    exact .inr ⟨(number, j, lock), hlock, Option.some.inj (Except.ok.inj hfound)⟩
  · rintro (⟨⟨number, lock⟩, hlock, hpath⟩ | ⟨⟨number, j, lock⟩, hlock, rfl⟩)
    · have hsame : lock.path = directory ++ [name] := hpath
      rw [h.path hlock] at hsame
      exact ⟨number, i, lock, hlock, by simpa using hsame⟩
    · have hold := hopened.identity (h.valid hlock) (h.there hlock)
      exact ⟨number, j, lock, hlock, (hopened.apart h.apart).distinct (h.valid hlock) hname hold hthere⟩

/-- A lock that can be obtained is obtained unless there is one of its name. -/
theorem acquire_iff (i : ι) {name : String} (hname : isLockName name = true) {identity : Nat}
    {opened : FileSystem}
    (hopen : FileSystem.openOrCreate (directory ++ [name]) site.files = .ok identity opened) :
    ((∃ number, (site.step (.acquire i name none)).1 = .obtained number) ↔ ¬ site.Taken name) ∧
      (site.Taken name → ∃ e, (site.step (.acquire i name none)).1 = .failed e ∧
        e.kind = .lockConflict) := by
  have htaken := h.taken_iff i hname hopen
  obtain rfl : (site.managers i).directory = directory := h.place i
  rw [LockSite.step]
  obtain ⟨hunheld, hfree, lock, state, hok⟩ | ⟨hrefused, e, state, herror, hkind⟩ :=
    LockManager.acquire_eq hname hopen
  · have hnot : ¬ site.Taken name := by
      rw [htaken]
      exact not_or.2 ⟨hunheld, hfree⟩
    rw [hok]
    exact ⟨⟨fun _ => hnot, fun _ => ⟨_, rfl⟩⟩, fun hthere => absurd hthere hnot⟩
  · have hthere := htaken.2 hrefused
    rw [herror]
    refine ⟨⟨?_, fun hnot => absurd hthere hnot⟩, fun _ => ⟨e, rfl, hkind⟩⟩
    rintro ⟨number, ⟨⟩⟩

omit [DecidableEq ι] in
/-- A lock that is given back is known to its manager. -/
theorem known_at_release (hlock : site.lock? number = some (i, lock)) (trouble : Option IoError)
    (path : String) (state : FileSystem × LockManager) :
    lock.releaseAmid trouble (site.files, site.managers i) ≠
      .error (.lockInvalid .unknownAtRelease path) state := by
  cases hreleased : lock.released with
  | true =>
    simp only [HeldLock.releaseAmid, hreleased, if_true]
    intro heq
    cases heq
  | false =>
    have hheld : lock.path ∈ (site.managers i).held :=
      (h.held i).mem.2 ⟨(number, lock), ⟨hlock, hreleased⟩, rfl⟩
    rw [HeldLock.releaseAmid_eq hreleased hheld]
    cases trouble with
    | none | some e =>
      intro heq
      cases heq

end InStep

/-- Of managers that share a directory in which nothing is locked and different names are different
files: whatever calls are made and whatever fails on the way, there is at most one lock of each name
that was not given back. A manager takes a name for held just if there is such a lock that was obtained
from it, and whose path the name leads to. A lock that is refused changes no manager; one whose file can
be opened and locked is obtained just if there is no lock of its name, and refused as held otherwise. A
lock that is given back is always known to its manager. -/
theorem exclusive {files : FileSystem} {directory : Path} (hapart : files.Apart directory)
    (hfree : files.locked = []) (calls : List (LockCall ι)) :
    let site := (start files directory).run calls
    (∀ {m n i j a b}, site.Holds m i a → site.Holds n j b → a.name = b.name → m = n) ∧
      (∀ i name, (site.managers i).isHeld site.files name = true ↔
        ∃ number lock, site.Holds number i lock ∧
          if Path.isFromTop name then Path.same name (site.files.display lock.path) = true
          else (Path.parse name).names = [lock.name]) ∧
      (∀ i name, isLockName name = true → ((site.managers i).isHeld site.files name = true ↔
        ∃ number lock, site.Holds number i lock ∧ lock.name = name)) ∧
      (∀ i name trouble e, (site.step (.acquire i name trouble)).1 = .failed e →
        (site.step (.acquire i name trouble)).2.managers = site.managers) ∧
      (∀ i name identity opened, isLockName name = true →
        FileSystem.openOrCreate (directory ++ [name]) site.files = .ok identity opened →
          ((∃ number, (site.step (.acquire i name none)).1 = .obtained number) ↔ ¬ site.Taken name) ∧
            (site.Taken name → ∃ e, (site.step (.acquire i name none)).1 = .failed e ∧
              e.kind = .lockConflict)) ∧
      ∀ number i lock trouble path state, site.lock? number = some (i, lock) →
        lock.releaseAmid trouble (site.files, site.managers i) ≠
          .error (.lockInvalid .unknownAtRelease path) state := by
  intro site
  have h : site.InStep directory := (inStep_start hapart hfree).run calls
  refine ⟨h.alone, h.isHeld_iff, fun i name hname => ?_,
    fun i name trouble e hfailed => managers_of_refused hfailed,
    fun i name identity opened hname hopen => h.acquire_iff i hname hopen,
    fun number i lock trouble path state hlock => h.known_at_release hlock trouble path state⟩
  rw [h.isHeld_iff]
  simp only [isFromTop_of_isLockName hname, names_parse_of_isLockName hname, List.cons.injEq,
    and_true, Bool.false_eq_true, if_false, eq_comm (a := name)]

/-- Two managers of one empty directory and one name: the second is refused until the first has given
the lock back, although the operating system reported an error then. -/
theorem exclusive_contended :
    let files := FileSystem.new "/"
    let calls : List (LockCall Bool) := [.acquire true "w" none, .acquire false "w" none,
      .acquire false "v" (some (.locking ⟨.other, "No locks available (os error 37)"⟩)),
      .release 0 (some ⟨.other, "Input/output error (os error 5)"⟩), .release 0 none,
      .acquire false "w" none, .acquire true "w" none]
    let site := (start files []).run calls
    files.Apart [] ∧ files.locked = [] ∧
      (∃ number lock, site.Holds number false lock ∧ lock.name = "w") ∧
      (¬ ∃ number lock, site.Holds number true lock ∧ lock.name = "w") ∧
      ∀ {m n i j a b}, site.Holds m i a → site.Holds n j b → a.name = b.name → m = n := by
  intro files calls site
  have hapart : files.Apart [] := FileSystem.apart_new "/"
  have hfalse : (site.managers false).isHeld site.files "w" = true := by decide +kernel
  have htrue : ¬ (site.managers true).isHeld site.files "w" = true := by decide +kernel
  have hname : isLockName "w" = true := by decide
  obtain ⟨halone, -, hheld, -⟩ := exclusive hapart rfl calls
  -- from here on nothing is to be computed
  have hsite : (start files []).run calls = site := rfl
  rw [hsite] at halone hheld
  clear_value site
  exact ⟨hapart, rfl, (hheld false "w" hname).1 hfalse, mt (hheld true "w" hname).2 htrue, halone⟩

/-- A name that is no lock name may be another spelling of one. It is taken for held with the lock of
that name, though there is no lock of the name itself. -/
theorem isHeld_another_spelling :
    let site : LockSite Unit := (start (FileSystem.new "/") []).run [.acquire () "w" none]
    (site.managers ()).isHeld site.files "./w" = true ∧
      ¬ ∃ number lock, site.Holds number () lock ∧ lock.name = "./w" := by
  intro site
  have h : site.InStep [] := (inStep_start (FileSystem.apart_new "/") rfl).run _
  refine ⟨by decide +kernel, ?_⟩
  rintro ⟨number, lock, hlock, hname⟩
  have hvalid := h.valid hlock
  rw [hname] at hvalid
  exact absurd hvalid (by decide)

end LockSite

end BlockDir
