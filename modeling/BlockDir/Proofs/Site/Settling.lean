import BlockDir.Proofs.Site.Consistency
import BlockDir.Proofs.Site.Passing
import BlockDir.Proofs.Volume.Strays

/-!
# What a call that succeeds leaves under its names

After a call that succeeds, whatever failed before it, the blocks under the names that it targets are
those that are called for and the strays from before the call. Where both tables are reached by one
transaction there are no strays, so that success means clean; elsewhere a call cleans up after failed
ones as far as the new file reaches.
-/

namespace BlockDir

/-- Under the names of files that are held there are no strays. -/
theorem Volume.Holds.not_stray {v : Volume} (hv : v.Proper) {tables : Bytes → Table} {files : Files}
    (h : v.Holds tables files) (name : String) (index : Nat) : ¬ v.Stray name index tables := by
  rintro ⟨hmem, hcalled⟩
  rw [mem_blocks_iff, h.block] at hmem
  rw [calledFor_of_lengthIn (h.lengthIn name)] at hcalled
  cases hfile : files[name]? with
  | none => simp [hfile] at hmem
  | some content =>
    rw [hfile, Option.bind_some, isSome_getElem?, length_storedForms hv] at hmem
    rw [hfile] at hcalled
    exact Nat.not_lt.2 hcalled hmem

namespace Site

variable {ι κ : Type} {v : Volume} {place : Bytes → Nat} {site : Site ι κ}

/-- The names that a call targets. -/
def targets (site : Site ι κ) : Call ι → List String
  | .close number => (site.output? number).toList.map (·.2.name)
  | .delete _ name => [name]
  | .rename _ source dest => [source, dest]
  | _ => []

theorem Fresh.reliable {c : Config} (h : site.Fresh c place)
    (htrue : site.wire.Suffers Fault.Truthful)
    (hfaults : site.wire.faults = [] ∨ site.wire.Suffers Fault.Atomic ∧
      ∀ b, (site.backend b).Together (Volume.ofConfig c).catalogKey
        (Volume.ofConfig c).blocksKey) :
    site.Reliable (Volume.ofConfig c).keys := by
  intro b
  rcases hfaults with hnone | ⟨hatomic, htogether⟩
  · exact .inl ⟨Wire.threats_eq_nil_iff.2 hnone, fun key _ => (h.backends b).ready.2 key⟩
  · exact .inr ⟨htrue, hatomic, Backend.together_keys (htogether b)⟩

variable [DecidableEq ι] [DecidableEq κ]

theorem ok_of_perform_done {i : ι} {act : DeskM Unit}
    (h : (site.perform i act fun _ => .done).1 = .done) :
    ∃ after, act (site.desk i) = .ok () after := by
  unfold perform at h
  cases hact : act (site.desk i) with
  | ok a after => exact ⟨after, rfl⟩
  | error e after => simp [hact] at h

/-- A mutation that succeeds has changed the tables by what it planned. -/
theorem Shared.carried (h : site.Shared v place) (htrue : site.wire.Suffers Fault.Truthful)
    (hfair : site.wire.Suffers Fault.Fair) {i : ι} {m : Mutation}
    (hdone : (site.perform i m.run fun _ => .done).1 = .done) :
    ∃ batch, m.plan (site.directory i) (site.desk i).client.table = .ok ((), batch) ∧
      ∀ key ∈ v.keys, tablesAt place (site.perform i m.run fun _ => .done).2.wire.store key =
        Batch.onTables batch (site.desk i).client.table key := by
  obtain ⟨after, hok⟩ := ok_of_perform_done hdone
  have hclient : (site.desk i).client.Sound := ⟨h.backends _, rfl⟩
  obtain ⟨batch, hplan, hstores⟩ := m.stores_of_ok hclient htrue hfair hok
  refine ⟨batch, hplan, ?_⟩
  intro key hkey
  have hlast : (site.perform i m.run fun _ => .done).2.wire.store = after.stores := by
    rw [perform_snd, hok]
    rfl
  rw [hlast, hstores, tablesAt, ← h.placed (site.serving i) key hkey]
  exact Batch.tables_onStores _ _ _ _

/-- A call that succeeds settles the names that it targets. -/
theorem Shared.settles (h : site.Shared v place) (hkeys : v.catalogKey ≠ v.blocksKey)
    (htrue : site.wire.Suffers Fault.Truthful) (hfair : site.wire.Suffers Fault.Fair)
    (hrange : site.InRange) (call : Call ι) (hdone : (site.step call).1 = .done) :
    ∀ name ∈ site.targets call, v.Settles name (tablesAt place site.wire.store)
      (tablesAt place (site.step call).2.wire.store) := by
  -- what a mutation settles of the tables that its directory sees
  have hmutation : ∀ (i : ι) (m : Mutation) (name : String),
      (site.perform i m.run fun _ => .done).1 = .done →
      (∀ batch, (site.directory i).volume.catalogKey ≠ (site.directory i).volume.blocksKey →
        m.plan (site.directory i) (site.desk i).client.table = .ok ((), batch) →
        (site.directory i).volume.Settles name (site.desk i).client.table
          (Batch.onTables batch (site.desk i).client.table)) →
      v.Settles name (tablesAt place site.wire.store)
        (tablesAt place (site.perform i m.run fun _ => .done).2.wire.store) := by
    intro i m name hdone hsettles
    obtain ⟨batch, hplan, hafter⟩ := h.carried htrue hfair hdone
    obtain ⟨-, interval, hvolume⟩ := h.directories i
    rw [hvolume] at hsettles
    have hsettled : v.Settles name (site.desk i).client.table
        (Batch.onTables batch (site.desk i).client.table) := hsettles batch hkeys hplan
    exact hsettled.of_agree (Volume.agree_of_keys (h.table i)) (Volume.agree_of_keys hafter)
  cases call with
  | close number =>
    intro target htarget
    cases hsome : site.output? number with
    | none =>
      rw [targets, hsome] at htarget
      exact absurd htarget List.not_mem_nil
    | some found =>
      obtain ⟨i, output⟩ := found
      rw [targets, hsome] at htarget
      obtain rfl := List.mem_singleton.1 htarget
      have hcall : (site.step (.close number)).1 =
            (site.perform i (Mutation.closeOutput output).run fun _ => .done).1 ∧
          (site.step (.close number)).2.wire =
            (site.perform i (Mutation.closeOutput output).run fun _ => .done).2.wire := by
        rw [Site.step, hsome]
        exact ⟨rfl, rfl⟩
      rw [hcall.1] at hdone
      rw [hcall.2]
      exact hmutation i (.closeOutput output) output.name hdone fun batch hkeys hplan =>
        Directory.settles_storePlan hkeys (hrange i output (mem_of_output? hsome)) hplan
  | delete i name =>
    intro target htarget
    obtain rfl := List.mem_singleton.1 htarget
    exact hmutation i (.deleteFile target) target hdone fun batch hkeys hplan =>
      Directory.settles_deleteFilePlan hkeys hplan
  | rename i source dest =>
    intro target htarget
    apply hmutation i (.renameFile source dest) target hdone
    intro batch hkeys hplan
    obtain ⟨hsource, hdest⟩ := Directory.settles_renameFilePlan hkeys hplan
    simp only [targets, List.mem_cons, List.not_mem_nil, or_false] at htarget
    rcases htarget with rfl | rfl
    · exact hsource
    · exact hdest
  | create i name | write number data | drop number | read i name | list i | has i name
  | length i name =>
    intro name hname
    exact absurd hname List.not_mem_nil

/-- Whatever was called before on a fresh site, and whatever of it failed, a call that succeeds leaves
a name that it targets clean if and only if its entry calls for every stray that was there. So it is
where nothing could fail, and where both tables are kept together and transactions are whole; there
are no strays then. -/
theorem settles_of_calls {c : Config} (h : site.Fresh c place)
    (htrue : site.wire.Suffers Fault.Truthful) (hfair : site.wire.Suffers Fault.Fair)
    (calls : List (Call ι))
    (hrange : ∀ count, (runCalls Site.step site (calls.take count)).2.InRange) (call : Call ι) :
    let v := Volume.ofConfig c
    let before := (runCalls Site.step site calls).2
    let after := (before.step call).2
    (before.step call).1 = .done → ∀ name ∈ before.targets call,
      v.Settles name (tablesAt place before.wire.store) (tablesAt place after.wire.store) ∧
      (v.Clean name (tablesAt place after.wire.store) ↔
        ∀ index, v.Stray name index (tablesAt place before.wire.store) →
          index < v.calledFor name (tablesAt place after.wire.store)) ∧
      ((site.wire.faults = [] ∨ site.wire.Suffers Fault.Atomic ∧
          ∀ b, (site.backend b).Together v.catalogKey v.blocksKey) →
        v.Clean name (tablesAt place after.wire.store)) := by
  intro v before after hdone name hname
  have hv : v.Proper := Volume.proper_ofConfig h.valid
  obtain ⟨hshared, hthreats⟩ := h.shared.run htrue calls
  have hlast : before.InRange := by
    have hall := hrange calls.length
    rw [List.take_length] at hall
    exact hall
  have hsettles : v.Settles name (tablesAt place before.wire.store)
      (tablesAt place after.wire.store) :=
    hshared.settles hv.keys_ne (htrue.mono hthreats) (hfair.mono hthreats) hlast call hdone name hname
  refine ⟨hsettles, hsettles.clean_iff, ?_⟩
  intro hfaults
  obtain ⟨shelf, hshows⟩ := h.shows.run hv (h.reliable htrue hfaults) calls hrange
  apply hsettles.clean_iff.2
  intro index hstray
  exact absurd hstray (hshows.keeps.holds.not_stray hv name index)

/-- Three blocks that are written to a cluster, cut off before their entry, and then written again. -/
theorem settles_of_calls_again :
    let backend : Backend := .cluster #v[⟨0, 0, true⟩, ⟨1, 1, true⟩] false
    let c : Config := { Config.standard with blockSize := 2 }
    let v := Volume.ofConfig c
    let site := alone ⟨c, 0, [], false⟩ backend (Wire.new.arm ⟨.send .execute, Fault.lost, 5⟩)
    let calls : List (Call Unit) :=
      [.create () "a", .write 0 [1, 2, 3, 4, 5], .close 0, .create () "a", .write 1 [1, 2, 3, 4, 5]]
    let before := (runCalls Site.step site calls).2
    let after := (before.step (.close 1)).2
    v.Settles "a" (tablesAt backend.storeOf before.wire.store)
        (tablesAt backend.storeOf after.wire.store) ∧
      (v.Clean "a" (tablesAt backend.storeOf after.wire.store) ↔
        ∀ index, v.Stray "a" index (tablesAt backend.storeOf before.wire.store) →
          index < v.calledFor "a" (tablesAt backend.storeOf after.wire.store)) := by
  intro backend c v site calls before after
  obtain ⟨wire, hopen⟩ : ∃ wire, Backend.openCluster [0, 1] Wire.new = .ok backend wire := ⟨_, rfl⟩
  have hfresh : site.Fresh c backend.storeOf := fresh_alone rfl (.cluster hopen) fun _ => rfl
  have hnone : ∀ sort, Wire.new.Suffers sort := Wire.suffers_of_threats_nil rfl
  have htrue : site.wire.Suffers Fault.Truthful := (hnone _).arm fun _ => ⟨_, _, rfl⟩
  have hfair : site.wire.Suffers Fault.Fair := by
    refine (hnone _).arm ?_
    intro _ heq
    cases heq
  obtain ⟨hsettles, hclean, -⟩ := settles_of_calls hfresh htrue hfair calls
    (inRange_of_sizes rfl (by decide)) (.close 1) (by decide +kernel) "a" (by decide +kernel)
  exact ⟨hsettles, hclean⟩

/-- Three blocks that are written to a cluster, cut off before their entry, and then one block under
the same name: it succeeds, and the second of the three is still there. -/
theorem close_leaves_stray :
    let c : Config := { Config.standard with blockSize := 2 }
    let v := Volume.ofConfig c
    let backend : Backend := .cluster #v[⟨0, 0, true⟩, ⟨1, 1, true⟩] false
    let site := alone ⟨c, 0, [], false⟩ backend (Wire.new.arm ⟨.send .execute, Fault.lost, 5⟩)
    let before := (runCalls Site.step site
      [.create () "a", .write 0 [1, 2, 3, 4, 5], .close 0, .create () "a", .write 1 [6]]).2
    let after := (before.step (.close 1)).2
    (before.step (.close 1)).1 = .done ∧ "a" ∈ before.targets (.close 1) ∧
      ¬ v.Clean "a" (tablesAt backend.storeOf after.wire.store) := by
  intro c v backend site before after
  refine ⟨by decide +kernel, by decide +kernel, ?_⟩
  intro hclean
  have hstray : Layout.blockKey "a" 1 ∈ tablesAt backend.storeOf after.wire.store v.blocksKey := by
    decide +kernel
  have hcalled : v.calledFor "a" (tablesAt backend.storeOf after.wire.store) = 1 := by
    decide +kernel
  have hcovered := (hclean 1).1 hstray
  rw [hcalled] at hcovered
  exact absurd hcovered (by decide)

end Site

end BlockDir
