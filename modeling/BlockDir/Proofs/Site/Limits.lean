import BlockDir.Proofs.Site.Answering

/-!
# Files of too many blocks

Wherever a length is read from the catalog, one of more blocks than a volume allows is refused as damage.
But an output is stored whatever its length. So a file that is too large can be written, and from then on
it is neither read nor removed nor replaced, though nothing is damaged (`Site.closed_then_refused`). This
is the one way to such a length: as long as no output is closed that is too large, every length in the
catalog is within the limit, and nothing is refused as damage (`Site.answers_within_limit`).
-/

namespace BlockDir

/-- Whether an output that a call closes has as many blocks as a volume of that block size allows. -/
def Shelf.ClosesSmall {ι : Type} (size : Nat) (shelf : Shelf) : Call ι → Prop
  | .close number => ∀ name content, shelf.output? number = some (name, content) →
    Layout.blockCount content.length size ≤ Layout.maxBlocks
  | _ => True

/-- A shelf takes nothing for damage. -/
theorem Shelf.step_ne_inconsistent {ι : Type} (shelf : Shelf) (call : Call ι) :
    (shelf.step call).1 ≠ .refused .inconsistent := by
  cases call with
  | create i name | write number data | close number | drop number | read i name =>
    rw [step]
    split <;> simp
  | rename i source dest =>
    rw [step]
    split
    · simp
    · split <;> simp
  | delete i name | list i | has i name | length i name => simp [step]

/-- A shelf gets a large file only when an output is closed that is too large. -/
theorem Shelf.small_step {ι : Type} {size : Nat} {shelf : Shelf} (h : shelf.files.Small size)
    {call : Call ι} (hcloses : shelf.ClosesSmall size call) :
    (shelf.step call).2.files.Small size := by
  cases call with
  | create i name | write number data | drop number | read i name =>
    rw [step]
    split <;> exact h
  | close number =>
    rw [step]
    split
    · exact h
    · rename_i name content hsome
      exact h.insert name (hcloses name content hsome)
  | delete i name => exact h.erase name
  | rename i source dest =>
    rw [step]
    split
    · exact h
    · rename_i content hfile
      split
      · exact h
      · exact (h.insert dest (h source content hfile)).erase source
  | list i | has i name | length i name => exact h

namespace Site

variable {ι κ : Type} [DecidableEq ι] [DecidableEq κ] {v : Volume} {place : Bytes → Nat}
  {site : Site ι κ} {shelf : Shelf}

/-- Whether an output that a call closes has as many blocks as a volume of that block size allows. -/
def ClosesSmall (size : Nat) (site : Site ι κ) : Call ι → Prop
  | .close number => ∀ i output, site.output? number = some (i, output) →
    Layout.blockCount output.position size ≤ Layout.maxBlocks
  | _ => True

omit [DecidableEq ι] [DecidableEq κ] in
/-- What is to be closed is as long on the site as it is on the shelf. -/
theorem Shows.position (h : site.Shows v place shelf) {number : Nat} {name : String} {content : Bytes}
    (hsome : shelf.output? number = some (name, content)) :
    ∃ i output, site.output? number = some (i, output) ∧ output.position = content.length := by
  obtain ⟨-, hnone⟩ | ⟨i, output, content', hsome', hsame, -, hcollected⟩ := h.output? number
  · cases hnone.symm.trans hsome
  · cases hsame.symm.trans hsome
    exact ⟨i, output, hsome', hcollected.position⟩

omit [DecidableEq ι] [DecidableEq κ] in
theorem Shows.fits (h : site.Shows v place shelf) (hrange : site.InRange) (call : Call ι) :
    shelf.Fits call := by
  cases call with
  | close number =>
    intro name content hsome
    obtain ⟨i, output, hsome', hposition⟩ := h.position hsome
    rw [← hposition]
    exact hrange i output (mem_of_output? hsome')
  | _ => trivial

omit [DecidableEq ι] [DecidableEq κ] in
theorem Shows.closesSmall (h : site.Shows v place shelf) {size : Nat} {call : Call ι}
    (hcloses : site.ClosesSmall size call) : shelf.ClosesSmall size call := by
  cases call with
  | close number =>
    intro name content hsome
    obtain ⟨i, output, hsome', hposition⟩ := h.position hsome
    rw [← hposition]
    exact hcloses i output hsome'
  | _ => trivial

/-- Calls that are made in turn are answered as the shelf answers them that is wary of large files, and
the site then shows that shelf. -/
theorem Shows.run_within (hv : v.Proper) (h : site.Shows v place shelf) (hsteady : site.Steady v.keys)
    (calls : List (Call ι))
    (hrange : ∀ count, (runCalls Site.step site (calls.take count)).2.InRange) :
    let last := runCalls Site.step site calls
    let expected := runCalls (Shelf.stepWithin v.blockSize) shelf calls
    last.1 = expected.1 ∧ last.2.Shows v place expected.2 := by
  induction calls generalizing site shelf with
  | nil => exact ⟨rfl, h⟩
  | cons call rest ih =>
    obtain ⟨hanswer, hshows, hsteady'⟩ := h.step_within hv hsteady call (h.fits (hrange 0) call)
    obtain ⟨hanswers, hlast⟩ := ih hshows hsteady' fun count => hrange (count + 1)
    refine ⟨?_, hlast⟩
    simp only [runCalls, hanswer, hanswers]

/-- As long as no output is closed that is too large, there is no large file, and nothing is refused as
damage. -/
theorem Shows.run_small (hv : v.Proper) (h : site.Shows v place shelf) (hsteady : site.Steady v.keys)
    (hsmall : shelf.files.Small v.blockSize) (calls : List (Call ι))
    (hrange : ∀ count, (runCalls Site.step site (calls.take count)).2.InRange)
    (hcloses : ∀ before call rest, calls = before ++ call :: rest →
      (runCalls Site.step site before).2.ClosesSmall v.blockSize call) :
    (runCalls (Shelf.stepWithin v.blockSize) shelf calls).2.files.Small v.blockSize ∧
      .refused .inconsistent ∉ (runCalls Site.step site calls).1 := by
  induction calls generalizing site shelf with
  | nil => exact ⟨hsmall, List.not_mem_nil⟩
  | cons call rest ih =>
    obtain ⟨hanswer, hshows, hsteady'⟩ := h.step_within hv hsteady call (h.fits (hrange 0) call)
    have hsmall' := Shelf.small_step hsmall (h.closesSmall (hcloses [] call rest rfl))
    have hstep := Shelf.stepWithin_of_not_refused (Shelf.refuses_eq_false hsmall call)
    rw [hstep] at hanswer hshows
    obtain ⟨hlast, hnone⟩ := ih hshows hsteady' hsmall' (fun count => hrange (count + 1))
      fun before other more heq => hcloses (call :: before) other more (by rw [heq]; rfl)
    refine ⟨?_, ?_⟩
    · simp only [runCalls, hstep]
      exact hlast
    · simp only [runCalls, hanswer, List.mem_cons, not_or]
      exact ⟨(shelf.step_ne_inconsistent call).symm, hnone⟩

/-- No output that is closed is too large if not too much is written in all. -/
theorem closesSmall_of_sizes {size : Nat} {calls : List (Call ι)} (hnone : site.outputs = [])
    (hsize : Layout.blockCount (calls.map Call.size).sum size ≤ Layout.maxBlocks)
    {before rest : List (Call ι)} {call : Call ι} (hcalls : calls = before ++ call :: rest) :
    (runCalls Site.step site before).2.ClosesSmall size call := by
  cases call with
  | close number =>
    intro i output hsome
    have hposition := run_positions before 0 (by simp [hnone]) i output (mem_of_output? hsome)
    refine Nat.le_trans (Layout.blockCount_mono ?_ size) hsize
    rw [hcalls, List.map_append, List.sum_append]
    omega
  | _ => trivial

/-- The users of a fresh site without faults see a shelf that is wary of large files, whatever they
store: a call is refused as damage just if it reads, removes or replaces a file of more blocks than a
volume allows, and the catalog holds the lengths of the files of that shelf. As long as no output is
closed that is too large, no length in the catalog is, and nothing is refused as damage. -/
theorem answers_within_limit {c : Config} (h : site.Fresh c place) (hnone : site.wire.faults = [])
    (calls : List (Call ι))
    (hrange : ∀ count, (runCalls Site.step site (calls.take count)).2.InRange) :
    let last := runCalls Site.step site calls
    let expected := runCalls (Shelf.stepWithin c.blockSize) Shelf.empty calls
    last.1 = expected.1 ∧
      (∀ i name, (last.2.directory i).volume.lengthIn name (last.2.desk i).client.table =
        .ok (expected.2.files[name]?.map List.length)) ∧
      ((∀ before call rest, calls = before ++ call :: rest →
          (runCalls Site.step site before).2.ClosesSmall c.blockSize call) →
        (∀ i name length,
          (last.2.directory i).volume.lengthIn name (last.2.desk i).client.table = .ok (some length) →
          Layout.blockCount length c.blockSize ≤ Layout.maxBlocks) ∧
        .refused .inconsistent ∉ last.1) := by
  intro last expected
  have hv := Volume.proper_ofConfig h.valid
  have hsteady : site.Steady (Volume.ofConfig c).keys := fun b =>
    ⟨Wire.threats_eq_nil_iff.2 hnone, fun key _ => (h.backends b).ready.2 key⟩
  obtain ⟨hanswers, hshows⟩ := h.shows.run_within hv hsteady calls hrange
  have hlengths : ∀ i name,
      (last.2.directory i).volume.lengthIn name (last.2.desk i).client.table =
        .ok (expected.2.files[name]?.map List.length) :=
    fun i name => (hshows.keeps.holdsAt i).lengthIn name
  refine ⟨hanswers, hlengths, fun hcloses => ?_⟩
  obtain ⟨hsmall, hnot⟩ :=
    h.shows.run_small hv hsteady (Files.small_empty _) calls hrange hcloses
  refine ⟨fun i name length hlength => ?_, hnot⟩
  rw [hlengths] at hlength
  obtain ⟨content, hfile, rfl⟩ := Option.map_eq_some_iff.1 (Except.ok.inj hlength)
  exact hsmall name content hfile

/-- A file of one block for each byte, over a pool, is stored again over itself. -/
theorem answers_within_limit_replaced :
    let c := { Config.standard with blockSize := 1 }
    let site := alone ⟨c, 0, [], false⟩ (.pooled ⟨.standard, 0, [], 0, false⟩) Wire.new
    let calls : List (Call Unit) := [.create () "a", .write 0 [1, 2, 3], .close 0, .create () "a",
      .write 1 [4], .close 1, .read () "a"]
    let last := runCalls Site.step site calls
    last.1 = [.opened 0, .done, .done, .opened 1, .done, .done, .content [4]] ∧
      (last.2.directory ()).volume.lengthIn "a" (last.2.desk ()).client.table = .ok (some 1) ∧
      ∀ name length,
        (last.2.directory ()).volume.lengthIn name (last.2.desk ()).client.table = .ok (some length) →
        Layout.blockCount length 1 ≤ Layout.maxBlocks := by
  intro c site calls last
  have hopen : Backend.openPooled .standard 0 = .ok (.pooled ⟨.standard, 0, [], 0, false⟩) := rfl
  have hfresh : site.Fresh c _ := fresh_alone rfl (.pooled hopen) fun _ => rfl
  obtain ⟨hanswers, hlengths, hsmall⟩ :=
    answers_within_limit hfresh rfl calls (inRange_of_sizes rfl (by decide))
  obtain ⟨hwithin, -⟩ := hsmall fun _ _ _ => closesSmall_of_sizes rfl (by decide)
  exact ⟨hanswers.trans (by decide +kernel),
    (hlengths () "a").trans (congrArg Except.ok (by decide +kernel)), hwithin ()⟩

/-- The calls of a user who writes an output and then reads, moves, removes and replaces the file. -/
def writeThenUse (content : Bytes) : List (Call Unit) :=
  [.create () "a", .write 0 content, .close 0, .read () "a", .rename () "a" "b", .delete () "a",
    .create () "a", .close 1]

/-- An output of more blocks than a volume allows, whatever is in it, is stored without complaint. The file
is then refused as damage by whoever reads, moves, removes or replaces it. -/
theorem writeThenUse_refused {content : Bytes} (hlarge : Layout.maxBlocks < content.length)
    (hlength : content.length < 2 ^ 64) :
    let c := { Config.standard with blockSize := 1 }
    let site := alone ⟨c, 0, [], false⟩ (.single ⟨0, 0, true⟩ false) Wire.new
    c.validate = .ok () ∧ (runCalls Site.step site (writeThenUse content)).1 =
      [.opened 0, .done, .done, .refused .inconsistent, .refused .inconsistent,
        .refused .inconsistent, .opened 1, .refused .inconsistent] := by
  intro c site
  obtain ⟨after, hopen⟩ : ∃ after, Backend.openSingle 0 Wire.new =
      .ok (.single ⟨0, 0, true⟩ false) after := ⟨_, rfl⟩
  have hfresh : site.Fresh c _ := fresh_alone rfl (.single hopen) fun _ => rfl
  refine ⟨hfresh.valid, ?_⟩
  have hsteady : site.Steady (Volume.ofConfig c).keys := fun b =>
    ⟨rfl, fun key _ => (hfresh.backends b).ready.2 key⟩
  have hsizes : ((writeThenUse content).map Call.size).sum < 2 ^ 64 := by
    simpa [writeThenUse, Call.size] using hlength
  obtain ⟨hanswers, -⟩ := hfresh.shows.run_within (Volume.proper_ofConfig hfresh.valid) hsteady
    (writeThenUse content) (inRange_of_sizes rfl hsizes)
  refine hanswers.trans ?_
  have hfile : Files.isLarge 1 ((∅ : Files).insert "a" content) "a" = true := by
    simpa [Files.isLarge, Layout.blockCount] using hlarge
  have hempty : Files.isLarge 1 ∅ "a" = false := rfl
  have hsize : (Volume.ofConfig c).blockSize = 1 := rfl
  simp [writeThenUse, hsize, runCalls, Shelf.empty, Shelf.stepWithin, Shelf.refuses, Shelf.afterRefusal,
    Shelf.step, Shelf.output?, hempty, hfile]

/-- A user who writes 2 ^ 31 blocks has a file that can be neither read nor moved nor removed nor
replaced. -/
theorem closed_then_refused :
    let c := { Config.standard with blockSize := 1 }
    let site := alone ⟨c, 0, [], false⟩ (.single ⟨0, 0, true⟩ false) Wire.new
    c.validate = .ok () ∧ (runCalls Site.step site (writeThenUse (List.replicate (2 ^ 31) 0))).1 =
      [.opened 0, .done, .done, .refused .inconsistent, .refused .inconsistent,
        .refused .inconsistent, .opened 1, .refused .inconsistent] :=
  have hlength : (List.replicate (2 ^ 31) (0 : UInt8)).length = 2 ^ 31 := List.length_replicate
  have hlarge : Layout.maxBlocks < 2 ^ 31 := by decide
  have hrange : 2 ^ 31 < 2 ^ 64 := by decide
  writeThenUse_refused (hlarge.trans_eq hlength.symm) (hlength.trans_lt hrange)

end Site

end BlockDir
