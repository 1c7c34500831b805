import BlockDir.Proofs.Directory.Isolation
import BlockDir.Proofs.Directory.Safety

/-!
# Checks come before writes

A mutation asks for what it needs and checks it, and commits as the last thing it does. A commit fails
only if a link fails under it or something is closed, as long as that is all that the faults report
(`Fault.Severs`). So a mutation that fails for another reason, be it what was asked of it or what
stands in the tables, has sent no write, whatever the backend (`Desk.vets_before_writing`). That an
action is of this kind (`Client.Vets`) is told from its parts: one that only asks, then one that vets.
-/

namespace BlockDir

/-- An error that tells of a link that failed, or of something that is closed. -/
def Error.Severed (e : Error) : Prop := e.kind = .transport ∨ e.kind = .closed

/-- A fault that is reported as that of a link, if as an error at all. -/
def Fault.Severs (_ : Moment) (fault : Fault) : Prop := fault.error.Severed

theorem reckoned_severed : Reckoned Error.Severed Fault.Severs where
  link _ := .inl rfl
  closed _ := .inr rfl
  fault _ _ h := h

/-- Whether a call carries no write. -/
def Event.Asks : Event → Prop
  | .send _ _ commands => ∀ w, Command.write w ∉ commands
  | .connect _ | .close _ => True

/-- Between two wires only calls passed that carry no write, and no store changed. -/
structure Wire.Untouched (before after : Wire) : Prop where
  calls : ∃ events : List Event, after.record = events.reverse ++ before.record ∧
    ∀ event ∈ events, event.Asks
  stores : after.store = before.store

theorem Wire.Untouched.trans {a b c : Wire} (h : a.Untouched b) (h' : b.Untouched c) :
    a.Untouched c := by
  obtain ⟨events, hrecord, hasks⟩ := h.calls
  obtain ⟨more, hrecord', hasks'⟩ := h'.calls
  refine ⟨⟨events ++ more, ?_, fun event hmem => ?_⟩, h'.stores.trans h.stores⟩
  · rw [hrecord', hrecord, List.reverse_append, List.append_assoc]
  · rcases List.mem_append.1 hmem with hmem | hmem
    · exact hasks event hmem
    · exact hasks' event hmem

theorem Event.Within.asks {event : Event} (h : event.Within fun _ => False) : event.Asks := by
  cases event with
  | send mode link commands => exact fun w hmem => h _ hmem
  | connect store => trivial
  | close link => trivial

/-- Where no writes passed, the stores are what they were. -/
theorem Wire.Tells.untouched {before after : Wire} (h : before.Tells (fun _ => False) after) :
    before.Untouched after := by
  obtain ⟨events, hrecord, hreplays, hwithin⟩ := h
  refine ⟨⟨events, hrecord, fun event hmem => (hwithin event hmem).asks⟩, funext fun number => ?_⟩
  exact hreplays.keeps (P := (· = before.store number)) (fun _ hnone => hnone.elim) hwithin number rfl

namespace Client

variable {α β : Type}

/-- Whether an action carries no write and brings no faults of its own. -/
structure Asks (act : ClientM α) : Prop where
  traces : Traces Client.wire (fun _ => False) act
  bears : ∀ sort, Safe (fun _ => True) (Client.Bears sort) act

theorem asks_give (result : Except Error α) : Asks (give result) where
  traces := traces_give result
  bears _ := safe_give fun _ _ => trivial

theorem asks_pure (a : α) : Asks (pure a) := asks_give (.ok a)

theorem Asks.bind {act : ClientM α} {next : α → ClientM β} (h : Asks act)
    (hnext : ∀ a, Asks (next a)) : Asks (act >>= next) where
  traces := h.traces.bind fun a => (hnext a).traces
  bears sort := (h.bears sort).bind fun a => (hnext a).bears sort

theorem asks_getField (key field : Bytes) : Asks (getField key field) where
  traces := traces_getField key field
  bears sort := safe_getField (reckoned_any sort) key field

theorem asks_fetch (key : Bytes) (fields : List Bytes) (interval : Nat) :
    Asks (fetch key fields interval) where
  traces := traces_fetch key fields interval
  bears sort := safe_fetch (reckoned_any sort) key fields interval

/-- Whether an action that fails has sent no write, unless a link failed under it. -/
def Vets (act : ClientM α) : Prop :=
  ∀ client, client.Bears Fault.Severs → ∀ e after, act client = .error e after →
    e.Severed ∨ client.wire.Untouched after.wire

theorem Asks.vets {act : ClientM α} (h : Asks act) : Vets act := by
  intro client _ e after hfails
  have htells := h.traces client
  rw [hfails] at htells
  exact .inr htells.untouched

/-- What comes after questions vets for all of it. -/
theorem Asks.bind_vets {act : ClientM α} {next : α → ClientM β} (h : Asks act)
    (hnext : ∀ a, Vets (next a)) : Vets (act >>= next) := by
  intro client hbears e after hfails
  have htells := h.traces client
  have hkept := (h.bears Fault.Severs client hbears).finalState
  simp only [Bind.bind, EStateM.bind] at hfails
  cases hresult : act client with
  | error e' middle =>
    rw [hresult] at hfails htells
    cases hfails
    exact .inr htells.untouched
  | ok a middle =>
    rw [hresult] at hfails htells hkept
    rcases hnext a middle hkept e after hfails with hsevered | huntouched
    · exact .inl hsevered
    · exact .inr (htells.untouched.trans huntouched)

theorem Vets.map {act : ClientM α} (h : Vets act) (f : α → β) :
    Vets (act >>= fun a => pure (f a)) := by
  intro client hbears e after hfails
  simp only [Bind.bind, EStateM.bind] at hfails
  cases hresult : act client with
  | error e' middle =>
    rw [hresult] at hfails
    cases hfails
    exact h client hbears e after hresult
  | ok a middle =>
    rw [hresult] at hfails
    cases hfails

/-- A commit fails only if a link fails under it. -/
theorem vets_commit (batch : Batch) (interval : Nat) : Vets (commit batch interval) := by
  intro client hbears e after hfails
  have hcommit := safe_commit reckoned_severed batch interval client hbears
  rw [hfails] at hcommit
  exact .inl hcommit.2

end Client

open Client

namespace Volume

variable (v : Volume)

theorem asks_length? (name : String) : Asks (v.length? name) := by
  refine (asks_getField v.catalogKey (Utf8.encode name)).bind fun found => ?_
  cases found with
  | none => exact asks_pure none
  | some stored => exact (asks_give _).bind fun length => asks_pure (some length)

theorem asks_loadStored (name : String) (length : Nat) : Asks (v.loadStored name length) :=
  (asks_give (v.storedCount name length)).bind fun _ =>
    (asks_fetch v.blocksKey _ v.syncInterval).bind fun _ => asks_give _

theorem vets_save (name : String) (blocks : List Bytes) (length : Nat) :
    Vets (v.save name blocks length) := by
  refine (asks_give (Layout.countBlocks length v.blockSize)).bind_vets fun count => ?_
  by_cases hfew : blocks.length < count
  · simp only [if_pos hfew]
    exact (asks_give (.error _)).vets
  · simp only [if_neg hfew]
    refine (v.asks_length? name).bind_vets fun previous => ?_
    refine (asks_give (v.staleCount name previous)).bind_vets fun stale => ?_
    refine (asks_give (v.encodeBlocks length count blocks)).bind_vets fun stored => ?_
    exact vets_commit _ _

theorem vets_erase (name : String) (length : Nat) : Vets (v.erase name length) :=
  (asks_give (v.storedCount name length)).bind_vets fun _ => vets_commit _ _

theorem vets_delete (name : String) : Vets (v.delete name) := by
  refine (v.asks_length? name).bind_vets fun found => ?_
  cases found with
  | none => exact (asks_pure false).vets
  | some length => exact (v.vets_erase name length).map fun _ => true

theorem vets_rename (source dest : String) (stored : List Bytes) (length : Nat) :
    Vets (v.rename source dest stored length) := by
  unfold rename
  by_cases hsame : source = dest
  · rw [if_pos hsame]
    exact (asks_pure ()).vets
  · rw [if_neg hsame]
    refine (asks_give (v.storedCount source length)).bind_vets fun count => ?_
    refine (v.asks_length? dest).bind_vets fun previous => ?_
    refine (asks_give (v.staleCount dest previous)).bind_vets fun stale => ?_
    by_cases hcount : stored.length ≠ count
    · simp only [if_pos hcount]
      exact (asks_give (.error _)).vets
    · simp only [if_neg hcount]
      exact vets_commit _ _

end Volume

namespace Mutation

theorem vets (m : Mutation) (d : Directory) : Vets (m.act d) := by
  cases m with
  | closeOutput output =>
    exact (asks_give (d.ensureOpen "close output")).bind_vets fun _ => d.volume.vets_save _ _ _
  | deleteFile name =>
    exact (asks_give (d.ensureOpen "delete_file")).bind_vets fun _ =>
      (d.volume.vets_delete name).map fun _ => ()
  | renameFile source dest =>
    refine (asks_give (d.ensureOpen "rename_file")).bind_vets fun _ => ?_
    refine (d.volume.asks_length? source).bind_vets fun found => ?_
    cases found with
    | none => exact (asks_give (.error _)).vets
    | some length =>
      exact (d.volume.asks_loadStored source length).bind_vets fun stored =>
        d.volume.vets_rename source dest stored length
  | save name blocks length => exact d.volume.vets_save name blocks length
  | erase name length => exact d.volume.vets_erase name length
  | rename source dest stored length => exact d.volume.vets_rename source dest stored length

/-- A mutation that fails though no link failed under it has sent no write. -/
theorem untouched_of_error {m : Mutation} {desk after : Desk} {e : Error}
    (hbears : desk.client.Bears Fault.Severs) (hfails : m.run desk = .error e after)
    (hkind : ¬ e.Severed) : desk.client.wire.Untouched after.client.wire := by
  rw [m.run_eq] at hfails
  cases hresult : m.act desk.directory desk.client with
  | ok done middle => simp [hresult] at hfails
  | error e' middle =>
    simp only [hresult, EStateM.Result.error.injEq] at hfails
    obtain ⟨rfl, rfl⟩ := hfails
    exact (m.vets desk.directory desk.client hbears _ _ hresult).resolve_left hkind

end Mutation

namespace Desk

/-- Checks come before writes. Through whatever backend, whatever the tables hold, whatever is asked
and wherever links fail: a call that reports a missing file, an argument, a contradiction in the
tables or a block that cannot be encoded has sent no write, and no store has changed. -/
theorem vets_before_writing {desk after : Desk}
    (hfaults : desk.client.wire.Suffers Fault.Severs) {e : Error}
    (hkind : e.kind ∈ [ErrorKind.notFound, .argument, .inconsistent, .codec]) :
    (∀ m : Mutation, m.run desk = .error e after →
      desk.client.wire.Untouched after.client.wire) ∧
    ∀ name, Desk.onClient (·.volume.delete name) desk = .error e after →
      desk.client.wire.Untouched after.client.wire := by
  have hsound : ¬ e.Severed := by
    rintro (h | h) <;> rw [h] at hkind <;> exact absurd hkind (by decide)
  refine ⟨fun m hfails => m.untouched_of_error hfaults hfails hsound, fun name hfails => ?_⟩
  unfold Desk.onClient at hfails
  cases hresult : desk.directory.volume.delete name desk.client with
  | ok found middle => simp [hresult] at hfails
  | error e' middle =>
    simp only [hresult, EStateM.Result.error.injEq] at hfails
    obtain ⟨rfl, rfl⟩ := hfails
    exact (desk.directory.volume.vets_delete name desk.client hfaults _ _ hresult).resolve_left hsound

/-- Over a cluster whose ninth command is going to fail, a file is moved over one whose length is
damaged: the file is read, then the length, and nothing is written. -/
theorem vets_before_writing_rename :
    let d : Directory := ⟨{ Config.standard with blockSize := 2 }, 0, [], false⟩
    let v := d.volume
    let store := (((((∅ : Store).put v.catalogKey (Utf8.encode "a") (Layout.encodeLength 3)).put
      v.blocksKey (Layout.blockKey "a" 0) [1, 2]).put v.blocksKey (Layout.blockKey "a" 1) [3]).put
      v.catalogKey (Utf8.encode "b") [1, 2, 3])
    let wire := (Wire.new.setStore 0 store).arm ⟨.send .execute, Fault.lost, 9⟩
    let desk : Desk := ⟨d, ⟨.cluster #v[⟨0, 0, true⟩] false, wire, none⟩⟩
    ∃ e after, (Mutation.renameFile "a" "b").run desk = .error e after ∧ e.kind = .inconsistent ∧
      desk.client.wire.Untouched after.client.wire := by
  intro d v store wire desk
  have hfaults : desk.client.wire.Suffers Fault.Severs := by
    have hnone : (Wire.new.setStore 0 store).Suffers Fault.Severs :=
      Wire.suffers_of_threats_nil rfl _
    exact hnone.arm (.inl rfl)
  have hkind : (outcome ((Mutation.renameFile "a" "b").run desk)).mapError Error.kind =
      .error .inconsistent := by decide +kernel
  cases hrun : (Mutation.renameFile "a" "b").run desk with
  | ok done after =>
    rw [hrun] at hkind
    cases hkind
  | error e after =>
    rw [hrun] at hkind
    have hdamage : e.kind = .inconsistent := Except.error.inj hkind
    have hlisted : e.kind ∈ [ErrorKind.notFound, .argument, .inconsistent, .codec] := by
      rw [hdamage]
      decide
    obtain ⟨hmutations, -⟩ := @vets_before_writing desk after hfaults e hlisted
    exact ⟨e, after, rfl, hdamage, hmutations _ hrun⟩

end Desk

end BlockDir
