import BlockDir.Proofs.Lock.Files

/-!
# Managers at work

Several managers give out the locks of one directory. Who holds what is kept in two places: each
manager knows the lock files that are held through it, and the operating system knows the files that
are locked. Both are accounts of the locks that were obtained and not given back
(`LockSite.Guarded`), and every call keeps them so, whatever fails on the way. What one call may do is
said once (`LockSite.Becomes`).
-/

namespace BlockDir

/-- Whether a list is an account of where `p` holds: it has the values that `f` takes there, each
once, and `f` takes none of them twice. -/
structure Lists {α β : Type} (account : List β) (p : α → Prop) (f : α → β) : Prop where
  nodup : account.Nodup
  mem : ∀ {b}, b ∈ account ↔ ∃ a, p a ∧ f a = b
  only : ∀ {x y}, p x → p y → f x = f y → x = y

namespace Lists

variable {α β : Type} {account : List β} {p q : α → Prop} {f : α → β}

theorem nil (hp : ∀ x, ¬ p x) : Lists [] p f :=
  ⟨List.nodup_nil, by simp [hp], fun hx => absurd hx (hp _)⟩

theorem congr (h : Lists account p f) (hq : ∀ x, q x ↔ p x) : Lists account q f :=
  ⟨h.nodup, by simp only [hq]; exact h.mem, fun hx hy => h.only ((hq _).1 hx) ((hq _).1 hy)⟩

theorem cons {a : α} (h : Lists account p f) (hnew : f a ∉ account) (hq : ∀ x, q x ↔ p x ∨ x = a) :
    Lists (f a :: account) q f := by
  have hother : ∀ x, p x → f x ≠ f a := fun x hx heq => hnew (h.mem.2 ⟨x, hx, heq⟩)
  refine ⟨List.nodup_cons.2 ⟨hnew, h.nodup⟩, fun {b} => ?_, fun {x y} hx hy heq => ?_⟩
  · rw [List.mem_cons, h.mem]
    constructor
    · rintro (rfl | ⟨x, hx, rfl⟩)
      · exact ⟨a, (hq a).2 (.inr rfl), rfl⟩
      · exact ⟨x, (hq x).2 (.inl hx), rfl⟩
    · rintro ⟨x, hx, rfl⟩
      obtain hx | rfl := (hq x).1 hx
      · exact .inr ⟨x, hx, rfl⟩
      · exact .inl rfl
  · obtain hx | rfl := (hq x).1 hx
    · obtain hy | rfl := (hq y).1 hy
      · exact h.only hx hy heq
      · exact absurd heq (hother x hx)
    · obtain hy | rfl := (hq y).1 hy
      · exact absurd heq.symm (hother y hy)
      · rfl

theorem erase [BEq β] [LawfulBEq β] {a : α} (h : Lists account p f) (ha : p a)
    (hq : ∀ x, q x ↔ p x ∧ x ≠ a) : Lists (account.erase (f a)) q f := by
  refine ⟨h.nodup.erase _, fun {b} => ?_, fun hx hy => h.only ((hq _).1 hx).1 ((hq _).1 hy).1⟩
  rw [h.nodup.mem_erase_iff, h.mem]
  constructor
  · rintro ⟨hne, x, hx, rfl⟩
    exact ⟨x, (hq x).2 ⟨hx, fun heq => hne (congrArg f heq)⟩, rfl⟩
  · rintro ⟨x, hx, rfl⟩
    obtain ⟨hx, hne⟩ := (hq x).1 hx
    exact ⟨fun heq => hne (h.only hx ha heq), x, hx, rfl⟩

end Lists

namespace LockManager

variable {files : FileSystem} {m : LockManager} {name : String}

/-- What obtaining a lock comes to: it is refused and the manager is as it was, or the file was not
locked, its path was not held, and now both are. -/
inductive Acquires (files : FileSystem) (m : LockManager) (name : String) :
    EStateM.Result Error (FileSystem × LockManager) HeldLock → Prop where
  | refused (e : Error) {after : FileSystem} (opened : files.Opened m.directory after) :
    Acquires files m name (.error e (after, m))
  | obtained {identity : Nat} {after : FileSystem} (valid : isLockName name = true)
    (opened : files.Opened m.directory after)
    (there : after.identity (m.directory ++ [name]) = .ok (some identity))
    (unheld : m.directory ++ [name] ∉ m.held) (free : identity ∉ after.locked) :
    Acquires files m name (.ok ⟨name, m.directory ++ [name], identity, false⟩
      ({ after with locked := identity :: after.locked },
        { m with held := (m.directory ++ [name]) :: m.held }))

/-- A lock file is opened, or for some reason it is not. -/
theorem openAmid_cases (trouble : Option LockTrouble) (files : FileSystem) (directory : Path)
    (hname : isLockName name = true) :
    ∃ after, files.Opened directory after ∧
      ((∃ e, openAmid trouble (directory ++ [name]) files = .error e after) ∨
        ∃ identity, after.identity (directory ++ [name]) = .ok (some identity) ∧
          openAmid trouble (directory ++ [name]) files = .ok identity after) := by
  have hopen := files.openOrCreate_opened directory hname
  rcases trouble with _ | e | e | e
  · exact hopen
  · exact ⟨files, .found, .inl ⟨e, rfl⟩⟩
  · obtain ⟨after, hopened, ⟨e', hresult⟩ | ⟨identity, -, hresult⟩⟩ := hopen
    · exact ⟨after, hopened, .inl ⟨e', by simp only [openAmid, hresult]⟩⟩
    · exact ⟨after, hopened, .inl ⟨e, by simp only [openAmid, hresult]⟩⟩
  · exact hopen

theorem lockAmid_eq_ok {trouble : Option LockTrouble} {path : Path} {identity : Nat}
    {after : FileSystem} (h : lockAmid trouble path identity files = .ok after) :
    identity ∉ files.locked ∧ after = { files with locked := identity :: files.locked } := by
  unfold lockAmid FileSystem.lockFile? at h
  split at h
  · cases h
  · by_cases hlocked : files.locked.contains identity = true
    · simp only [hlocked, if_true] at h
      cases h
    · rw [if_neg hlocked] at h
      exact ⟨by simpa using hlocked, (Except.ok.inj h).symm⟩

theorem acquires (trouble : Option LockTrouble) (name : String) (files : FileSystem) (m : LockManager) :
    Acquires files m name (acquireAmid trouble name (files, m)) := by
  rw [acquireAmid]
  by_cases hname : isLockName name = true
  · have hvalid : ¬ (!isLockName name) = true := by simp [hname]
    rw [if_neg hvalid]
    obtain ⟨after, hopened, ⟨e, hopen⟩ | ⟨identity, hthere, hopen⟩⟩ :=
      openAmid_cases trouble files m.directory hname
    · simp only [hopen]
      exact .refused _ hopened
    · simp only [hopen]
      by_cases hheld : m.held.contains (m.directory ++ [name]) = true
      · rw [if_pos hheld]
        exact .refused _ hopened
      · rw [if_neg hheld]
        cases hlock : lockAmid trouble (m.directory ++ [name]) identity after with
        | error e =>
          simp only [List.erase_cons_head]
          exact .refused e hopened
        | ok locked =>
          obtain ⟨hfree, rfl⟩ := lockAmid_eq_ok hlock
          exact .obtained hname hopened hthere (by simpa using hheld) hfree
  · have hinvalid : (!isLockName name) = true := by simp [hname]
    rw [if_pos hinvalid]
    exact .refused _ .found

/-- Without trouble, a lock whose file can be opened is obtained unless it is held through this manager
or its file is locked. Then it is refused as held. -/
theorem acquire_eq (hname : isLockName name = true) {identity : Nat} {after : FileSystem}
    (hopen : FileSystem.openOrCreate (m.directory ++ [name]) files = .ok identity after) :
    (m.directory ++ [name] ∉ m.held ∧ identity ∉ after.locked ∧
        ∃ lock state, acquireAmid none name (files, m) = .ok lock state) ∨
      (m.directory ++ [name] ∈ m.held ∨ identity ∈ after.locked) ∧
        ∃ e state, acquireAmid none name (files, m) = .error e state ∧ e.kind = .lockConflict := by
  have hvalid : ¬ (!isLockName name) = true := by simp [hname]
  simp only [acquireAmid, if_neg hvalid, openAmid, hopen]
  by_cases hheld : m.directory ++ [name] ∈ m.held
  · rw [if_pos (List.contains_iff_mem.2 hheld)]
    exact .inr ⟨.inl hheld, _, _, rfl, rfl⟩
  · rw [if_neg (mt List.contains_iff_mem.1 hheld)]
    by_cases hlocked : identity ∈ after.locked
    · simp only [lockAmid, FileSystem.lockFile?, List.contains_iff_mem.2 hlocked, if_true]
      exact .inr ⟨.inr hlocked, _, _, rfl, rfl⟩
    · have hfree : ¬ after.locked.contains identity = true := mt List.contains_iff_mem.1 hlocked
      simp only [lockAmid, FileSystem.lockFile?, if_neg hfree]
      exact .inl ⟨hheld, hlocked, _, _, rfl⟩

end LockManager

/-- A lock that is held is given back whatever the operating system reports. -/
theorem HeldLock.releaseAmid_eq {lock : HeldLock} {m : LockManager} (hlock : lock.released = false)
    (hheld : lock.path ∈ m.held) (trouble : Option IoError) (files : FileSystem) :
    lock.releaseAmid trouble (files, m) =
      let state := (files.unlockFile lock.identity, { m with held := m.held.erase lock.path })
      match trouble with
      | none => .ok () state
      | some e => .error (.io e) state := by
  have hunreleased : ¬ lock.released = true := by simp [hlock]
  have hknown : m.held.contains lock.path = true := List.contains_iff_mem.2 hheld
  cases trouble <;> simp only [HeldLock.releaseAmid, if_neg hunreleased, hknown, if_true]

/-! ## Managers at work -/

/-- Managers of locks with the files that they share, and the locks that were obtained, in the order in
which they were: each with its manager, until it is dropped. -/
structure LockSite (ι : Type) where
  files : FileSystem
  managers : ι → LockManager
  locks : List (Option (ι × HeldLock))

/-- A call to a manager, or to a lock by its number, while the operating system may be in trouble. -/
inductive LockCall (ι : Type) where
  | acquire (manager : ι) (name : String) (trouble : Option LockTrouble)
  | release (number : Nat) (trouble : Option IoError)
  | drop (number : Nat) (trouble : Option IoError)

/-- What a call is answered. -/
inductive LockAnswer where
  | obtained (number : Nat)
  | done
  | failed (error : Error)
  /-- There is no lock of that number, or not any more. -/
  | nobody

namespace LockSite

variable {ι : Type}

/-- Managers of one directory that gave out no lock yet. -/
def start (files : FileSystem) (directory : Path) : LockSite ι :=
  ⟨files, fun _ => ⟨directory, []⟩, []⟩

/-- A lock that is still there. -/
def lock? (site : LockSite ι) (number : Nat) : Option (ι × HeldLock) := site.locks[number]?.join

/-- Whether a lock was obtained from a manager and not given back. -/
def Holds (site : LockSite ι) (number : Nat) (manager : ι) (lock : HeldLock) : Prop :=
  site.lock? number = some (manager, lock) ∧ lock.released = false

/-- Whether there is a lock of a name that was not given back. -/
def Taken (site : LockSite ι) (name : String) : Prop :=
  ∃ number manager lock, site.Holds number manager lock ∧ lock.name = name

variable [DecidableEq ι]

/-- The files and a manager after a call, and all locks after it. -/
def put (site : LockSite ι) (manager : ι) (state : FileSystem × LockManager)
    (locks : List (Option (ι × HeldLock))) : LockSite ι :=
  ⟨state.1, Function.update site.managers manager state.2, locks⟩

/-- Gives a lock back; `rest` is what is then left of it. -/
def giveBack (site : LockSite ι) (number : Nat) (manager : ι) (lock : HeldLock)
    (trouble : Option IoError) (rest : Option (ι × HeldLock)) : LockAnswer × LockSite ι :=
  match lock.releaseAmid trouble (site.files, site.managers manager) with
  | .ok () state => (.done, site.put manager state (site.locks.set number rest))
  | .error e state => (.failed e, site.put manager state (site.locks.set number rest))

/-- The answer to a call, and the managers after it. What becomes of a lock that is dropped makes no
difference. -/
def step (site : LockSite ι) : LockCall ι → LockAnswer × LockSite ι
  | .acquire manager name trouble =>
    match LockManager.acquireAmid trouble name (site.files, site.managers manager) with
    | .ok lock state =>
      (.obtained site.locks.length, site.put manager state (site.locks ++ [some (manager, lock)]))
    | .error e state => (.failed e, site.put manager state site.locks)
  | .release number trouble =>
    match site.lock? number with
    | none => (.nobody, site)
    | some (manager, lock) => site.giveBack number manager lock trouble (some (manager, lock.given))
  | .drop number trouble =>
    match site.lock? number with
    | none => (.nobody, site)
    | some (manager, lock) => (.done, (site.giveBack number manager lock trouble none).2)

/-- The managers after calls that are made in turn. -/
def run (site : LockSite ι) (calls : List (LockCall ι)) : LockSite ι :=
  calls.foldl (fun site call => (site.step call).2) site

omit [DecidableEq ι] in
theorem Holds.unique {site : LockSite ι} {number : Nat} {i j : ι} {a b : HeldLock}
    (ha : site.Holds number i a) (hb : site.Holds number j b) : i = j ∧ a = b := by
  cases ha.1.symm.trans hb.1
  exact ⟨rfl, rfl⟩

variable {site after : LockSite ι} {directory : Path} {number gone : Nat} {i j : ι}
  {lock new : HeldLock}

omit [DecidableEq ι] in
theorem holds_append (hlocks : after.locks = site.locks ++ [some (i, new)])
    (hnew : new.released = false) :
    after.Holds number j lock ↔
      site.Holds number j lock ∨ number = site.locks.length ∧ j = i ∧ lock = new := by
  rw [Holds, Holds, lock?, lock?, hlocks]
  rcases Nat.lt_trichotomy number site.locks.length with hlt | rfl | hgt
  · rw [List.getElem?_append_left hlt]
    have hne : number ≠ site.locks.length := Nat.ne_of_lt hlt
    simp [hne]
  · rw [List.getElem?_concat_length, List.getElem?_eq_none (Nat.le_refl _)]
    constructor
    · rintro ⟨hlock, -⟩
      cases hlock
      exact .inr ⟨rfl, rfl, rfl⟩
    · rintro (⟨hlock, -⟩ | ⟨-, rfl, rfl⟩)
      · cases hlock
      · exact ⟨rfl, hnew⟩
  · have hne : number ≠ site.locks.length := Nat.ne_of_gt hgt
    rw [List.getElem?_eq_none (by simp; omega), List.getElem?_eq_none (Nat.le_of_lt hgt)]
    simp [hne]

omit [DecidableEq ι] in
theorem holds_set {rest : Option (ι × HeldLock)} (hlocks : after.locks = site.locks.set gone rest)
    (hrest : ∀ i lock, rest = some (i, lock) → lock.released = true) :
    after.Holds number j lock ↔ site.Holds number j lock ∧ number ≠ gone := by
  rw [Holds, Holds, lock?, lock?, hlocks]
  by_cases hgone : number = gone
  · subst hgone
    have hnone : ¬ ((site.locks.set number rest)[number]?.join = some (j, lock) ∧
        lock.released = false) := by
      rintro ⟨hlock, hreleased⟩
      rw [List.getElem?_set_self'] at hlock
      cases hold : site.locks[number]? with
      | none =>
        rw [hold] at hlock
        cases hlock
      | some old =>
        rw [hold] at hlock
        cases hreleased.symm.trans (hrest j lock hlock)
    exact ⟨fun h => absurd h hnone, fun h => absurd rfl h.2⟩
  · rw [List.getElem?_set_ne (Ne.symm hgone)]
    exact ⟨fun h => ⟨h, hgone⟩, fun h => h.1⟩

/-- A lock that is refused leaves all managers as they were. -/
theorem managers_of_refused {name : String} {trouble : Option LockTrouble} {e : Error}
    (hfailed : (site.step (.acquire i name trouble)).1 = .failed e) :
    (site.step (.acquire i name trouble)).2.managers = site.managers := by
  have hacquires := LockManager.acquires trouble name site.files (site.managers i)
  rw [LockSite.step] at hfailed ⊢
  generalize LockManager.acquireAmid trouble name (site.files, site.managers i) = result
    at hacquires hfailed
  cases hacquires with
  | refused e opened => exact Function.update_eq_self ..
  | obtained => cases hfailed

/-! ## Accounts of locks -/

/-- What managers and the operating system know is just which locks there are: each manager the paths
of those that were obtained from it, the operating system the files of all. -/
structure Guarded (site : LockSite ι) (directory : Path) : Prop where
  place : ∀ i, (site.managers i).directory = directory
  held : ∀ i, Lists (site.managers i).held (fun x : Nat × HeldLock => site.Holds x.1 i x.2) (·.2.path)
  locked : Lists site.files.locked (fun x : Nat × ι × HeldLock => site.Holds x.1 x.2.1 x.2.2)
    (·.2.2.identity)

/-- Managers with a lock more, among files as they are when it is obtained. -/
def grant (site : LockSite ι) (i : ι) (lock : HeldLock) (files : FileSystem) : LockSite ι where
  files := { files with locked := lock.identity :: files.locked }
  managers := Function.update site.managers i
    { site.managers i with held := lock.path :: (site.managers i).held }
  locks := site.locks ++ [some (i, lock)]

/-- Managers with a lock less, of which `rest` is left. -/
def withdraw (site : LockSite ι) (gone : Nat) (i : ι) (lock : HeldLock)
    (rest : Option (ι × HeldLock)) : LockSite ι where
  files := site.files.unlockFile lock.identity
  managers := Function.update site.managers i
    { site.managers i with held := (site.managers i).held.erase lock.path }
  locks := site.locks.set gone rest

/-- What a call may leave: the locks that there were, with a file more at most; or a lock more, whose
path was not held through its manager and whose file was not locked; or a lock less. -/
inductive Becomes (site : LockSite ι) (directory : Path) : LockSite ι → Prop where
  | same {after : LockSite ι} (opened : site.files.Opened directory after.files)
    (managers : after.managers = site.managers)
    (holds : ∀ {number i lock}, after.Holds number i lock ↔ site.Holds number i lock) :
    Becomes site directory after
  | obtained {i : ι} {lock : HeldLock} {files : FileSystem}
    (opened : site.files.Opened directory files) (valid : isLockName lock.name = true)
    (path : lock.path = directory ++ [lock.name])
    (there : files.identity (directory ++ [lock.name]) = .ok (some lock.identity))
    (unheld : lock.path ∉ (site.managers i).held) (free : lock.identity ∉ files.locked)
    (new : lock.released = false) : Becomes site directory (site.grant i lock files)
  | givenBack {gone : Nat} {i : ι} {lock : HeldLock} {rest : Option (ι × HeldLock)}
    (there : site.Holds gone i lock)
    (released : ∀ i lock, rest = some (i, lock) → lock.released = true) :
    Becomes site directory (site.withdraw gone i lock rest)

omit [DecidableEq ι] in
/-- Managers that gave out no lock, where no file is locked. -/
theorem guarded_start {files : FileSystem} (hfree : files.locked = []) :
    (start files directory : LockSite ι).Guarded directory := by
  have hnone : ∀ {number : Nat} {i : ι} {lock : HeldLock},
      ¬ (start files directory).Holds number i lock := by
    rintro number i lock ⟨hlock, -⟩
    cases hlock
  exact {
    place := fun _ => rfl
    held := fun _ => .nil fun _ => hnone
    locked := by rw [start, hfree]; exact .nil fun _ => hnone }

namespace Guarded

variable (h : site.Guarded directory)

include h

omit [DecidableEq ι] in
/-- The path of a lock that was not given back is known to its manager. -/
theorem path_mem (hlock : site.Holds number i lock) : lock.path ∈ (site.managers i).held :=
  (h.held i).mem.2 ⟨(number, lock), hlock, rfl⟩

omit [DecidableEq ι] in
/-- No two locks are on one file. -/
theorem eq_of_identity {m n : Nat} {a b : HeldLock} (ha : site.Holds m i a) (hb : site.Holds n j b)
    (hidentity : a.identity = b.identity) : m = n := by
  have hsame : (m, i, a) = (n, j, b) := h.locked.only ha hb hidentity
  exact congrArg Prod.fst hsame

/-- What becomes of managers when a lock is given back, perhaps again. -/
theorem becomes_giveBack {rest : Option (ι × HeldLock)} (hlock : site.lock? gone = some (i, lock))
    (hrest : ∀ i lock, rest = some (i, lock) → lock.released = true) (trouble : Option IoError) :
    site.Becomes directory (site.giveBack gone i lock trouble rest).2 := by
  rw [LockSite.giveBack]
  cases hreleased : lock.released with
  | true =>
    simp only [HeldLock.releaseAmid, hreleased, if_true]
    refine .same .found (Function.update_eq_self ..) ?_
    intro number j other
    rw [holds_set rfl hrest]
    refine and_iff_left_of_imp fun hother hgone => ?_
    subst hgone
    cases hother.1.symm.trans hlock
    cases hother.2.symm.trans hreleased
  | false =>
    have hholds : site.Holds gone i lock := ⟨hlock, hreleased⟩
    rw [HeldLock.releaseAmid_eq hreleased (h.path_mem hholds)]
    cases trouble with
    | none => exact .givenBack hholds hrest
    | some e => exact .givenBack hholds hrest

theorem becomes (call : LockCall ι) : site.Becomes directory (site.step call).2 := by
  cases call with
  | acquire i name trouble =>
    obtain rfl : (site.managers i).directory = directory := h.place i
    have hacquires := LockManager.acquires trouble name site.files (site.managers i)
    rw [LockSite.step]
    generalize LockManager.acquireAmid trouble name (site.files, site.managers i) = result at hacquires
    cases hacquires with
    | refused e opened => exact .same opened (Function.update_eq_self ..) Iff.rfl
    | @obtained identity files valid opened there unheld free =>
      let lock : HeldLock := ⟨name, (site.managers i).directory ++ [name], identity, false⟩
      show site.Becomes _ (site.grant i lock files)
      exact .obtained opened valid rfl there unheld free rfl
  | release number trouble =>
    rw [LockSite.step]
    cases hlock : site.lock? number with
    | none => exact .same .found rfl Iff.rfl
    | some held =>
      refine h.becomes_giveBack hlock ?_ trouble
      rintro j other ⟨⟩
      rfl
  | drop number trouble =>
    rw [LockSite.step]
    cases hlock : site.lock? number with
    | none => exact .same .found rfl Iff.rfl
    | some held =>
      refine h.becomes_giveBack hlock ?_ trouble
      rintro j other ⟨⟩

/-- Whatever becomes of managers, the accounts are kept. -/
theorem of_becomes (hafter : site.Becomes directory after) : after.Guarded directory := by
  cases hafter with
  | same opened managers holds =>
    refine ⟨?_, fun i => ?_, ?_⟩
    · rw [managers]
      exact h.place
    · rw [managers]
      exact (h.held i).congr fun _ => holds
    · rw [opened.locked]
      exact h.locked.congr fun _ => holds
  | @obtained i lock files opened valid path there unheld free new =>
    have hholds : ∀ {number j other}, (site.grant i lock files).Holds number j other ↔
        site.Holds number j other ∨ number = site.locks.length ∧ j = i ∧ other = lock :=
      holds_append rfl new
    rw [opened.locked] at free
    refine ⟨?_, ?_, ?_⟩
    · exact (Function.forall_update_iff _ fun _ (m : LockManager) => m.directory = directory).2
        ⟨h.place i, fun j _ => h.place j⟩
    · refine (Function.forall_update_iff _ fun j (m : LockManager) =>
        Lists m.held (fun x : Nat × HeldLock => (site.grant i lock files).Holds x.1 j x.2) (·.2.path)).2
          ⟨?_, fun j hj => ?_⟩
      · exact (h.held i).cons (a := (site.locks.length, lock)) unheld fun x => by
          simp [hholds, Prod.ext_iff]
      · exact (h.held j).congr fun x => by simp [hholds, hj]
    · have hlocked : (site.grant i lock files).files.locked = lock.identity :: site.files.locked :=
        congrArg (lock.identity :: ·) opened.locked
      rw [hlocked]
      exact h.locked.cons (a := (site.locks.length, i, lock)) free fun x => by
        simp [hholds, Prod.ext_iff]
  | @givenBack gone i lock rest there released =>
    have hholds : ∀ {number j other}, (site.withdraw gone i lock rest).Holds number j other ↔
        site.Holds number j other ∧ number ≠ gone := holds_set rfl released
    refine ⟨?_, ?_, ?_⟩
    · exact (Function.forall_update_iff _ fun _ (m : LockManager) => m.directory = directory).2
        ⟨h.place i, fun j _ => h.place j⟩
    · refine (Function.forall_update_iff _ fun j (m : LockManager) =>
        Lists m.held (fun x : Nat × HeldLock => (site.withdraw gone i lock rest).Holds x.1 j x.2) (·.2.path)).2
          ⟨?_, fun j hj => ?_⟩
      · refine (h.held i).erase (a := (gone, lock)) there fun x => ?_
        rw [hholds]
        refine and_congr_right fun hx => not_congr ⟨fun hgone => ?_, fun hx => congrArg Prod.fst hx⟩
        subst hgone
        exact Prod.ext rfl (hx.unique there).2
      · refine (h.held j).congr fun x => ?_
        rw [hholds]
        refine and_iff_left_of_imp fun hx hgone => hj ?_
        subst hgone
        exact (hx.unique there).1
    · refine h.locked.erase (a := (gone, i, lock)) there fun x => ?_
      rw [hholds]
      refine and_congr_right fun hx => not_congr ⟨fun hgone => ?_, fun hx => congrArg Prod.fst hx⟩
      subst hgone
      exact Prod.ext rfl (Prod.ext (hx.unique there).1 (hx.unique there).2)

/-- Every call keeps the accounts. -/
theorem step (call : LockCall ι) : (site.step call).2.Guarded directory := h.of_becomes (h.becomes call)

end Guarded

end LockSite

end BlockDir
