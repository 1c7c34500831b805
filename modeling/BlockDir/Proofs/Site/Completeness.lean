import BlockDir.Proofs.Directory.Checking
import BlockDir.Proofs.Site.Passing

/-!
# No run leaves a file that lacks a block

On any backends and whatever fails, no call passes through stores in which a file of the catalog
lacks a block, and no check finds one missing.
-/

namespace BlockDir

namespace Volume

variable {v : Volume}

/-- The format counts, not the interval. -/
theorem complete_iff {d : Directory} {interval : Nat}
    (h : d.volume = { v with syncInterval := interval }) (tables : Bytes → Table) :
    d.volume.Complete tables ↔ v.Complete tables := by
  rw [h]
  exact ⟨fun h => ⟨h.names, h.blocks⟩, fun h => ⟨h.names, h.blocks⟩⟩

theorem invariant_complete (hkeys : v.catalogKey ≠ v.blocksKey) : v.Invariant v.Complete where
  congr := Complete.congr
  cut d m interval hvolume tables count hcomplete := by
    have hkeys' : d.volume.catalogKey ≠ d.volume.blocksKey := by
      rw [hvolume]
      exact hkeys
    rw [← complete_iff hvolume] at hcomplete ⊢
    exact hcomplete.take_planned hkeys' (m.planned d tables) count

end Volume

namespace Site

variable {ι κ : Type} [DecidableEq ι] [DecidableEq κ] {place : Bytes → Nat} {site : Site ι κ}

/-- Whatever calls are made to a fresh site, on any backends, and whatever of them fails after a part
of its work, in none of the stores that they pass through does a file of the catalog lack a block,
and no directory that checks them without faults reports one to be missing. -/
theorem complete_of_calls {c : Config} (h : site.Fresh c place)
    (htrue : site.wire.Suffers Fault.Truthful) {calls : List (Call ι)} {stores : Nat → Store}
    (hvisits : site.Visits calls stores) :
    (Volume.ofConfig c).Complete (tablesAt place stores) ∧
      ∀ i (client : Client), client.Sees place (Volume.ofConfig c).keys stores →
        ∃ report after, (site.directory i).check client = .ok report after ∧
          report.missing = [] := by
  have hkeys := (Volume.proper_ofConfig h.valid).keys_ne
  have hempty : (Volume.ofConfig c).Complete (tablesAt place site.wire.store) := by
    refine Volume.complete_empty fun key _ => ?_
    rw [tablesAt, h.empty, Store.table_empty]
  have hcomplete := h.shared.visits htrue (Volume.invariant_complete hkeys) hempty hvisits
  refine ⟨hcomplete, ?_⟩
  intro i client hsees
  obtain ⟨hopen, interval, hvolume⟩ := h.shared.directories i
  have hsteady : client.Steady (site.directory i).volume.keys := by
    rw [hvolume]
    exact hsees.steady
  obtain ⟨after, hcheck, -⟩ := Directory.finds_check hopen client hsees.sound hsteady
  refine ⟨_, after, hcheck, ?_⟩
  have htables : (Volume.ofConfig c).Complete client.table :=
    hcomplete.congr fun key hkey => (hsees.table hkey).symm
  exact ((Volume.complete_iff hvolume _).2 htables).missing_reportIn

/-- A directory over a cluster of two nodes, with a renaming that is cut off before the entry of the
new name is written. -/
theorem complete_of_calls_cut :
    let backend : Backend := .cluster #v[⟨0, 0, true⟩, ⟨1, 1, true⟩] false
    let site := alone ⟨.standard, 0, [], false⟩ backend
      (Wire.new.arm ⟨.send .execute, Fault.lost, 8⟩)
    let calls : List (Call Unit) :=
      [.create () "a", .write 0 [1, 2, 3], .close 0, .rename () "a" "b"]
    let last := (runCalls Site.step site calls).2
    let client : Client := ⟨backend, { last.wire with faults := [] }, none⟩
    (Volume.ofConfig .standard).Complete (tablesAt backend.storeOf last.wire.store) ∧
      ∃ report after, (site.directory ()).check client = .ok report after ∧
        report.missing = [] := by
  intro backend site calls last client
  obtain ⟨wire, hopen⟩ : ∃ wire, Backend.openCluster [0, 1] Wire.new = .ok backend wire := ⟨_, rfl⟩
  have hopened : backend.Opened := .cluster hopen
  have hfresh : site.Fresh .standard backend.storeOf := fresh_alone rfl hopened fun _ => rfl
  have htrue : site.wire.Suffers Fault.Truthful :=
    (Wire.suffers_of_threats_nil rfl _).arm fun _ => ⟨_, _, rfl⟩
  have hsees : client.Sees backend.storeOf (Volume.ofConfig .standard).keys last.wire.store :=
    ⟨⟨hopened.ready.1, rfl⟩, ⟨rfl, fun key _ => hopened.ready.2 key⟩, fun _ _ => rfl, rfl⟩
  obtain ⟨hcomplete, hcheck⟩ := complete_of_calls hfresh htrue (visits_last site calls)
  exact ⟨hcomplete, hcheck () client hsees⟩

end Site

end BlockDir
