import BlockDir.Proofs.Volume.Plans

/-!
# Mutations are all or nothing

Where both tables are kept together, a mutation leaves the stores as they were or as it would have
left them without faults, whatever fails on the way; and if it succeeds it did all of its work.
-/

namespace BlockDir

/-- The calls that change the tables: those of a directory, and those of a volume below it. -/
inductive Mutation where
  | closeOutput (output : Output)
  | deleteFile (name : String)
  | renameFile (source dest : String)
  | save (name : String) (blocks : List Bytes) (length : Nat)
  | erase (name : String) (length : Nat)
  | rename (source dest : String) (stored : List Bytes) (length : Nat)

namespace Mutation

/-- Makes the call. -/
def run : Mutation → DeskM Unit
  | closeOutput output => Desk.closeOutput output
  | deleteFile name => Desk.onClient (·.deleteFile name)
  | renameFile source dest => Desk.onClient (·.renameFile source dest)
  | save name blocks length => Desk.onClient (·.volume.save name blocks length)
  | erase name length => Desk.onClient (·.volume.erase name length)
  | rename source dest stored length => Desk.onClient (·.volume.rename source dest stored length)

/-- What the client does for the call. -/
def act (d : Directory) : Mutation → ClientM Unit
  | closeOutput output => d.store output
  | deleteFile name => d.deleteFile name
  | renameFile source dest => d.renameFile source dest
  | save name blocks length => d.volume.save name blocks length
  | erase name length => d.volume.erase name length
  | rename source dest stored length => d.volume.rename source dest stored length

/-- The directory after the call. -/
def account (d : Directory) : Mutation → Directory
  | closeOutput output => d.release output
  | _ => d

/-- The plan of the call. -/
def plan (d : Directory) : Mutation → Plan Unit
  | closeOutput output => d.storePlan output
  | deleteFile name => d.deleteFilePlan name
  | renameFile source dest => d.renameFilePlan source dest
  | save name blocks length => d.volume.savePlan name blocks length
  | erase name length => d.volume.erasePlan name length
  | rename source dest stored length => d.volume.renamePlan source dest stored length

theorem run_eq (m : Mutation) (desk : Desk) :
    m.run desk = match m.act desk.directory desk.client with
      | .ok () client => .ok () ⟨m.account desk.directory, client⟩
      | .error e client => .error e ⟨m.account desk.directory, client⟩ := by
  cases m with
  | closeOutput output => rfl
  | deleteFile name | renameFile source dest | save name blocks length | erase name length
  | rename source dest stored length =>
    simp only [run, act, Desk.onClient]
    split <;> simp only [*] <;> rfl

theorem finalState_run (m : Mutation) (desk : Desk) :
    finalState (m.run desk) =
      ⟨m.account desk.directory, finalState (m.act desk.directory desk.client)⟩ := by
  rw [run_eq]
  cases m.act desk.directory desk.client <;> rfl

theorem stores_run (m : Mutation) (desk : Desk) :
    (finalState (m.run desk)).client.wire.store =
      (finalState (m.act desk.directory desk.client)).wire.store := by
  rw [finalState_run]

theorem act_eq_ok {m : Mutation} {desk after : Desk} (h : m.run desk = .ok () after) :
    m.act desk.directory desk.client = .ok () after.client := by
  rw [run_eq] at h
  cases hact : m.act desk.directory desk.client with
  | ok done client =>
    rw [hact] at h
    obtain ⟨-, rfl⟩ := EStateM.Result.ok.inj h
    rfl
  | error e client =>
    rw [hact] at h
    cases h

/-- A mutation changes nothing of a directory but its account of outputs. -/
theorem account_same (m : Mutation) (d : Directory) :
    (m.account d).config = d.config ∧ (m.account d).closed = d.closed := by
  cases m <;> exact ⟨rfl, rfl⟩

theorem mutates (m : Mutation) (d : Directory) :
    Client.Mutates d.volume.keys (m.act d) (m.plan d) := by
  cases m with
  | closeOutput output => exact d.mutates_store output
  | deleteFile name => exact d.mutates_deleteFile name
  | renameFile source dest => exact d.mutates_renameFile source dest
  | save name blocks length => exact d.volume.mutates_save name blocks length
  | erase name length => exact d.volume.mutates_erase name length
  | rename source dest stored length => exact d.volume.mutates_rename source dest stored length

end Mutation

namespace Desk

/-- The stores below a directory. -/
def stores (desk : Desk) : Nat → Store := desk.client.wire.store

theorem finalState_onClient {α : Type} (act : Directory → ClientM α) (desk : Desk) :
    finalState (onClient act desk) =
      ⟨desk.directory, finalState (act desk.directory desk.client)⟩ := by
  unfold onClient
  cases act desk.directory desk.client <;> rfl

theorem finalState_closeOutput (output : Output) (desk : Desk) :
    finalState (closeOutput output desk) =
      ⟨desk.directory.release output,
        finalState (desk.directory.store output desk.client)⟩ :=
  Mutation.finalState_run (.closeOutput output) desk

/-- The directory at work with all faults gone. -/
def calm (desk : Desk) : Desk := { desk with client := desk.client.calm }

/-- Whether both tables are kept where one transaction reaches them. -/
def Together (desk : Desk) : Prop :=
  desk.client.backend.Together desk.directory.volume.catalogKey desk.directory.volume.blocksKey

end Desk

theorem Backend.together_keys {backend : Backend} {v : Volume}
    (h : backend.Together v.catalogKey v.blocksKey) :
    ∀ a ∈ v.keys, ∀ b ∈ v.keys, backend.Together a b := by
  intro a ha b hb
  simp only [Volume.keys, List.mem_cons, List.not_mem_nil, or_false] at ha hb
  obtain ⟨hkind, hroute⟩ := h
  rcases ha with rfl | rfl <;> rcases hb with rfl | rfl
  · exact ⟨hkind, rfl⟩
  · exact ⟨hkind, hroute⟩
  · exact ⟨hkind, hroute.symm⟩
  · exact ⟨hkind, rfl⟩

/-- Tables that are kept together are served together. -/
theorem Backend.Together.serves {backend : Backend} {a b : Bytes} (h : backend.Together a b) :
    backend.Serves a ↔ backend.Serves b := by
  obtain ⟨hkind, hroute⟩ := h
  cases backend with
  | single link closed => exact .rfl
  | pooled pool => exact .rfl
  | sharded shards =>
    unfold width at hroute
    simp only [Serves, hroute]
  | cluster nodes closed => exact absurd rfl hkind

/-- Tables behind one link or one pool are always together. -/
theorem Backend.together_of_one_store {backend : Backend} (hkind : backend.kind ≠ .cluster)
    (hwidth : backend.width = 0) (a b : Bytes) : backend.Together a b := by
  refine ⟨hkind, ?_⟩
  rw [hwidth]
  exact Subsingleton.elim (α := Fin 1) _ _

namespace Mutation

/-- Whatever fails, a mutation leaves the stores as they are after some first writes of its plan: after
none or all of them if its tables are kept together. -/
theorem stores_cut (m : Mutation) {desk : Desk} (hsound : desk.client.Sound)
    (htrue : desk.client.wire.Suffers Fault.Truthful) :
    ∃ count,
      (finalState (m.run desk)).stores = (m.plan desk.directory).storesAt desk.client count ∧
      (desk.client.Whole desk.directory.volume.keys →
        count = 0 ∨ count = ((m.plan desk.directory).batch desk.client.table).length) := by
  obtain ⟨after, count, houtcome, hends⟩ := m.mutates desk.directory desk.client hsound htrue
  refine ⟨count, ?_, hends⟩
  rw [Desk.stores, stores_run, houtcome.finalState]
  exact houtcome.stores

/-- A mutation that succeeds has carried out its plan, if success confirms what was applied. -/
theorem stores_of_ok (m : Mutation) {desk after : Desk} (hsound : desk.client.Sound)
    (htrue : desk.client.wire.Suffers Fault.Truthful)
    (hfair : desk.client.wire.Suffers Fault.Fair) (hok : m.run desk = .ok () after) :
    ∃ batch, m.plan desk.directory desk.client.table = .ok ((), batch) ∧
      after.stores = Batch.onStores desk.client.backend.storeOf batch desk.client.wire.store := by
  obtain ⟨batch, hplan, -, hstores⟩ :=
    (m.mutates desk.directory).stores_of_ok hsound htrue hfair (act_eq_ok hok)
  exact ⟨batch, hplan, hstores⟩

/-- Whatever call fails, and whether or not it was applied, a mutation of tables that are kept
together leaves the stores as they were or as it leaves them without faults. If it succeeds, it is
the latter. -/
theorem all_or_nothing (m : Mutation) {desk : Desk} (hsound : desk.client.Sound)
    (htogether : desk.Together) (htrue : desk.client.wire.Suffers Fault.Truthful)
    (hfair : desk.client.wire.Suffers Fault.Fair)
    (hatomic : desk.client.wire.Suffers Fault.Atomic) :
    ((finalState (m.run desk)).stores = desk.stores ∨
        (finalState (m.run desk)).stores = (finalState (m.run desk.calm)).stores) ∧
      ∀ after, m.run desk = .ok () after →
        after.stores = (finalState (m.run desk.calm)).stores := by
  have hmutates := m.mutates desk.directory
  have hkeys := Backend.together_keys htogether
  simp only [Desk.stores, stores_run]
  by_cases hserves : desk.client.backend.Serves desk.directory.volume.catalogKey
  · have hserved : ∀ key ∈ desk.directory.volume.keys, desk.client.backend.Serves key := by
      intro key hkey
      exact (hkeys _ desk.directory.volume.catalogKey_mem key hkey).serves.1 hserves
    -- without faults the plan is carried out
    obtain ⟨final, hcalm, -, hfinal⟩ :=
      hmutates.steady hsound.calm (Client.calm_steady hserved)
    have hstores : (finalState (m.act desk.calm.directory desk.calm.client)).wire.store =
        (m.plan desk.directory).onStores desk.client := by
      rw [Desk.calm, hcalm, finalState_give]
      exact hfinal
    obtain ⟨after, hafter, -, hends, hresult⟩ := hmutates.whole hsound htrue ⟨hatomic, hkeys⟩
    rw [hafter, hstores]
    refine ⟨hends, fun last hlast => ?_⟩
    rcases hresult with ⟨-, hall⟩ | ⟨e, herror⟩
    · rw [← hall hfair, ← hafter, ← stores_run, hlast]
      rfl
    · rw [run_eq, herror] at hlast
      cases hlast
  · have hnone : ∀ key ∈ desk.directory.volume.keys, ¬ desk.client.backend.Serves key := by
      intro key hkey hserved
      exact hserves ((hkeys _ desk.directory.volume.catalogKey_mem key hkey).serves.2 hserved)
    have hstores := hmutates.unserved hsound htrue hnone
    have hcalm : (finalState (m.act desk.calm.directory desk.calm.client)).wire.store =
        desk.client.wire.store :=
      hmutates.unserved hsound.calm (desk.client.calm_suffers _) hnone
    refine ⟨.inl hstores, fun last hlast => ?_⟩
    rw [hcalm, ← hstores, ← stores_run, hlast]
    rfl

/-- A file that is saved over a link whose reply is lost. -/
theorem all_or_nothing_lost_reply :
    let wire := Wire.new.arm ⟨.send .transaction, Fault.after, 1⟩
    let desk : Desk := ⟨⟨.standard, 0, [], false⟩, ⟨.single ⟨0, 0, true⟩ false, wire, none⟩⟩
    let call := Mutation.save "a" [[1, 2, 3]] 3
    ((finalState (call.run desk)).stores = desk.stores ∨
        (finalState (call.run desk)).stores = (finalState (call.run desk.calm)).stores) ∧
      ∀ after, call.run desk = .ok () after →
        after.stores = (finalState (call.run desk.calm)).stores := by
  intro wire desk call
  have hkind : (Backend.single ⟨0, 0, true⟩ false).kind ≠ .cluster := by
    intro heq
    cases heq
  have hsound : desk.client.Sound := ⟨fun _ => rfl, rfl⟩
  have hnone : ∀ sort, Wire.new.Suffers sort := Wire.suffers_of_threats_nil rfl
  refine all_or_nothing call hsound (Backend.together_of_one_store hkind rfl _ _)
    ((hnone _).arm (Fault.truthful_transaction _)) ((hnone _).arm ?_) ((hnone _).arm ?_)
  · intro answer heq
    cases heq
  · intro _ applied error heq
    cases heq

end Mutation

end BlockDir
