import BlockDir.Proofs.Link.Reading

/-!
# Writing over a link

An action that commits a batch applies its writes in order up to some place, and it fails only
because of a fault. Rounds and single writes succeed only if they applied all (`Link.Commits`), a
transaction only if replies arrive for nothing else; and a transaction that is not torn stops at one
of the two ends (`transact_spec`).
-/

namespace BlockDir

namespace Link

/-- The first `count` writes of a batch were applied over a link, and nothing else. -/
structure Wrote (link : Link) (batch : Batch) (wire after : Wire) (count : Nat) : Prop where
  bound : count ≤ batch.length
  threats : after.threats ⊆ wire.threats
  stores : after.store = Function.update wire.store link.store
    ((batch.take count).foldl Store.write (wire.store link.store))

/-- Over an open link and with truthful faults, `act` applies some first writes of `batch`, all of
them if it succeeds, and it fails only if a fault is there to strike. -/
def Commits (act : Link → WireM Unit) (batch : Batch) : Prop :=
  ∀ (link : Link) (wire : Wire), link.isOpen = true → wire.Suffers Fault.Truthful →
    ∃ after count, link.Wrote batch wire after count ∧
      (act link wire = .ok () after ∧ count = batch.length ∨
        wire.threats ≠ [] ∧ ∃ e, act link wire = .error e after)

theorem storesAfter_commands (link : Link) (wire : Wire) (batch : Batch) :
    link.storesAfter wire batch.commands = Function.update wire.store link.store
      (batch.foldl Store.write (wire.store link.store)) := by
  obtain ⟨numbers, -, hrun⟩ := Store.runAll_commands (wire.store link.store) batch
  rw [storesAfter, hrun]

theorem Wrote.all {link : Link} {batch : Batch} {wire after : Wire}
    (hthreats : after.threats ⊆ wire.threats)
    (hstores : after.store = link.storesAfter wire batch.commands) :
    link.Wrote batch wire after batch.length :=
  ⟨Nat.le_refl _, hthreats, by rw [hstores, storesAfter_commands, List.take_length]⟩

theorem storesAfter_take (link : Link) (wire : Wire) (batch : Batch) (count : Nat) :
    link.storesAfter wire (batch.commands.take count) = Function.update wire.store link.store
      ((batch.take count).foldl Store.write (wire.store link.store)) := by
  rw [← storesAfter_commands, Batch.commands, Batch.commands, List.map_take]

/-- The replies that a store sends to a batch show that it was applied. -/
theorem verify_replies (link : Link) (wire : Wire) (batch : Batch) :
    batch.verify (link.replies wire batch.commands) = .ok () := by
  obtain ⟨numbers, hlength, hrun⟩ := Store.runAll_commands (wire.store link.store) batch
  rw [replies, hrun, Batch.verify, if_neg (by simp [hlength]), List.find?_eq_none.2]
  rintro ⟨w, reply⟩ hpair
  obtain ⟨n, -, rfl⟩ := List.mem_map.1 (List.of_mem_zip hpair).2
  simp [Reply.isInteger]

theorem length_of_verify {batch : Batch} {answer : List Reply} (h : batch.verify answer = .ok ()) :
    answer.length = batch.length := by
  by_contra hne
  rw [Batch.verify, if_pos hne] at h
  cases h

/-- The one way to send a batch in a single call. A cut stops after the writes that were applied;
garbled replies pass only if all were applied, and a refusal only if its replies are as many as the
commands. -/
theorem send_commits {link : Link} (hopen : link.isOpen = true) (mode : Mode) (wire : Wire)
    (batch : Batch) :
    ∃ after count, link.Wrote batch wire after count ∧
      ((do give (batch.verify (← link.send mode batch.commands)) : WireM Unit) wire = .ok () after ∧
          ((∀ answer, (Moment.send mode, Fault.refused answer) ∈ wire.threats →
            ∀ commands, (answer commands).length ≠ commands.length) → count = batch.length) ∨
        wire.threats ≠ [] ∧ ∃ e,
          (do give (batch.verify (← link.send mode batch.commands)) : WireM Unit) wire =
            .error e after) ∧
      (mode = .transaction → wire.Suffers Fault.Atomic → count = 0 ∨ count = batch.length) := by
  obtain ⟨hsent, hthreats⟩ := send_sent hopen mode batch.commands wire
  simp only [bind, EStateM.bind]
  generalize link.send mode batch.commands wire = result at hsent hthreats ⊢
  cases hsent with
  | @answered after stores =>
    refine ⟨after, batch.length, .all hthreats stores, .inl ⟨?_, fun _ => rfl⟩, fun _ _ => .inr rfl⟩
    simp [verify_replies]
  | @failed after error threat stores =>
    exact ⟨after, batch.length, .all hthreats stores,
      .inr ⟨List.ne_nil_of_mem threat, error, rfl⟩, fun _ _ => .inr rfl⟩
  | @cut after count error threat stores =>
    rcases Nat.le_total count batch.length with hle | hge
    · rw [storesAfter_take] at stores
      refine ⟨after, count, ⟨hle, hthreats, stores⟩, .inr ⟨List.ne_nil_of_mem threat, error, rfl⟩, ?_⟩
      intro hmode hatomic
      exact .inl (hatomic _ threat (by rw [hmode]) _ _ rfl)
    · -- a cut behind the last write is no cut
      rw [List.take_of_length_le (by rwa [Batch.commands, List.length_map])] at stores
      exact ⟨after, batch.length, .all hthreats stores,
        .inr ⟨List.ne_nil_of_mem threat, error, rfl⟩, fun _ _ => .inr rfl⟩
  | @garbled after change threat stores =>
    refine ⟨after, batch.length, .all hthreats stores, ?_, fun _ _ => .inr rfl⟩
    cases hverify : batch.verify (change (link.replies wire batch.commands)) with
    | ok _ => exact .inl ⟨by simp [hverify], fun _ => rfl⟩
    | error e => exact .inr ⟨List.ne_nil_of_mem threat, e, by simp [hverify]⟩
  | @refused after answer threat stores =>
    refine ⟨after, 0, ⟨Nat.zero_le _, hthreats, ?_⟩, ?_, fun _ _ => .inl rfl⟩
    · rw [stores, List.take_zero, List.foldl_nil, Function.update_eq_self]
    · cases hverify : batch.verify (answer batch.commands) with
      | ok _ =>
        refine .inl ⟨by simp [hverify], fun hfair => ?_⟩
        have hlength := length_of_verify hverify
        have hne := hfair answer threat batch.commands
        rw [Batch.commands, List.length_map, ← Batch.commands] at hne
        exact absurd hlength hne
      | error e => exact .inr ⟨List.ne_nil_of_mem threat, e, by simp [hverify]⟩

theorem transact_eq {batch : Batch} (h : batch ≠ []) (link : Link) :
    link.transact batch =
      (do give (batch.verify (← link.send .transaction batch.commands)) : WireM Unit) := by
  rw [transact, if_neg (by simpa using h)]

/-- One transaction. With fair faults it succeeds only if it was applied, and with atomic ones it is
applied as a whole or not at all. -/
theorem transact_spec {batch : Batch} (h : batch ≠ []) {link : Link} (hopen : link.isOpen = true)
    (wire : Wire) :
    ∃ after count, link.Wrote batch wire after count ∧
      (link.transact batch wire = .ok () after ∧
          (wire.Suffers Fault.Fair → count = batch.length) ∨
        wire.threats ≠ [] ∧ ∃ e, link.transact batch wire = .error e after) ∧
      (wire.Suffers Fault.Atomic → count = 0 ∨ count = batch.length) := by
  obtain ⟨after, count, hwrote, hresult, hwhole⟩ := send_commits hopen .transaction wire batch
  rw [← transact_eq h] at hresult
  refine ⟨after, count, hwrote, ?_, hwhole rfl⟩
  rcases hresult with ⟨hok, hall⟩ | hfailed
  · exact .inl ⟨hok, fun hfair => hall fun answer hmem => hfair _ hmem answer rfl⟩
  · exact .inr hfailed

/-- Two batches committed one after the other are one batch committed. -/
theorem Commits.seq {first second : Link → WireM Unit} {a b : Batch} (ha : Commits first a)
    (hb : Commits second b) : Commits (fun link => do first link; second link) (a ++ b) := by
  intro link wire hopen htrue
  obtain ⟨middle, count, hwrote, hok | ⟨hne, e, herror⟩⟩ := ha link wire hopen htrue
  · obtain ⟨hok, rfl⟩ := hok
    obtain ⟨after, more, hwrote', hresult⟩ := hb link middle hopen (htrue.mono hwrote.threats)
    have hbound := hwrote'.bound
    refine ⟨after, a.length + more, ⟨by rw [List.length_append]; omega,
      fun t ht => hwrote.threats (hwrote'.threats ht), ?_⟩, ?_⟩
    · rw [hwrote'.stores, hwrote.stores, Function.update_idem, Function.update_self, List.take_length,
        List.take_length_add_append, List.foldl_append]
    · simp only [bind, EStateM.bind, hok]
      rcases hresult with ⟨hok', rfl⟩ | ⟨hne, e, herror⟩
      · exact .inl ⟨hok', by simp⟩
      · refine .inr ⟨fun hnil => hne ?_, e, herror⟩
        exact List.subset_nil.1 (hnil ▸ hwrote.threats)
  · have hbound := hwrote.bound
    refine ⟨middle, count, ⟨by rw [List.length_append]; omega, hwrote.threats, ?_⟩,
      .inr ⟨hne, e, ?_⟩⟩
    · rw [hwrote.stores, List.take_append_of_le_length hbound]
    · simp [bind, EStateM.bind, herror]

theorem commits_pure : Commits (fun _ => pure ()) [] := by
  intro link wire _ _
  exact ⟨wire, 0, ⟨Nat.le_refl _, fun _ h => h, by simp⟩, .inl ⟨rfl, rfl⟩⟩

theorem commits_commitRounds (interval : Nat) (batch : Batch) :
    Commits (·.commitRounds interval batch) batch := by
  have hrounds : ∀ rounds : List Batch, Commits (fun link => rounds.forM fun round => do
      give (Batch.verify round (← link.send .pipeline (Batch.commands round)))) rounds.flatten := by
    intro rounds
    induction rounds with
    | nil => exact commits_pure
    | cons round rest ih =>
      have hround : Commits (fun link => do
          give (Batch.verify round (← link.send .pipeline (Batch.commands round)))) round := by
        intro link wire hopen htrue
        obtain ⟨after, count, hwrote, ⟨hok, hall⟩ | hfailed, -⟩ :=
          send_commits hopen .pipeline wire round
        · refine ⟨after, count, hwrote, .inl ⟨hok, hall fun answer hmem => ?_⟩⟩
          exact absurd hmem (htrue.not_refused (.inr rfl) answer)
        · exact ⟨after, count, hwrote, .inr hfailed⟩
      exact hround.seq ih
  have h := hrounds (chunks interval batch)
  rw [flatten_chunks] at h
  exact h

/-- A write that is sent by itself. Its only reply must be a number. -/
theorem commits_execute (w : Write) :
    Commits (fun link => do let _ ← give (← link.execute (.write w)).toInteger) [w] := by
  intro link wire hopen htrue
  obtain ⟨hsent, hthreats⟩ := send_sent hopen .execute (Batch.commands [w]) wire
  have hcommands : Batch.commands [w] = [.write w] := rfl
  rw [hcommands] at hsent hthreats
  simp only [bind, EStateM.bind, execute, Functor.map, EStateM.map]
  generalize link.send .execute [.write w] wire = result at hsent hthreats ⊢
  cases hsent with
  | @answered after stores =>
    obtain ⟨n, hn⟩ := Store.run_write (wire.store link.store) w
    refine ⟨after, 1, .all hthreats stores, .inl ⟨?_, rfl⟩⟩
    simp [replies, Store.runAll, hn, Reply.toInteger, pure, EStateM.pure]
  | @failed after error threat stores =>
    exact ⟨after, 1, .all hthreats stores, .inr ⟨List.ne_nil_of_mem threat, error, rfl⟩⟩
  | @cut after count error threat stores =>
    rw [← hcommands, storesAfter_take] at stores
    refine ⟨after, min count 1, ⟨Nat.min_le_right _ _, hthreats, ?_⟩,
      .inr ⟨List.ne_nil_of_mem threat, error, rfl⟩⟩
    rw [stores, ← List.length_singleton (a := w), ← List.take_eq_take_min]
  | @garbled after change threat stores =>
    refine ⟨after, 1, .all hthreats stores, ?_⟩
    dsimp only
    cases hreply : ((change (link.replies wire [.write w])).headD .nil).toInteger with
    | ok n => exact .inl ⟨by simp [pure, EStateM.pure], rfl⟩
    | error e => exact .inr ⟨List.ne_nil_of_mem threat, e, by simp⟩
  | refused threat stores => exact absurd threat (htrue.not_refused (.inl rfl) _)

end Link

end BlockDir
