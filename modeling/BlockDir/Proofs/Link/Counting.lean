import BlockDir.Proofs.Link.Tracing

/-!
# Links that come and go

The record tells which links were asked to close (`Wire.closings`), and a wire knows how many were
opened. Sending changes neither, whatever strikes it (`Link.takes_send`), and giving links up asks each of
them once (`Link.abandonAll_asks`).
-/

namespace BlockDir

/-- The link that an event asks to close. -/
def Event.closing? : Event → Option Nat
  | .close link => some link.number
  | .connect _ | .send .. => none

namespace Wire

/-- The links that were asked to close, by their numbers and the last one first. -/
def closings (wire : Wire) : List Nat := wire.record.filterMap Event.closing?

/-- Between two wires nothing passed but that links were asked to close, in this order and each once. -/
structure AsksToClose (before : Wire) (links : List Link) (after : Wire) : Prop where
  record : after.record = (links.map .close).reverse ++ before.record
  opened : after.opened = before.opened
  stores : after.stores = before.stores

theorem AsksToClose.append {a b c : Wire} {links more : List Link} (h : a.AsksToClose links b)
    (h' : b.AsksToClose more c) : a.AsksToClose (links ++ more) c where
  record := by rw [h'.record, h.record, List.map_append, List.reverse_append, List.append_assoc]
  opened := h'.opened.trans h.opened
  stores := h'.stores.trans h.stores

theorem AsksToClose.closings {before after : Wire} {links : List Link}
    (h : before.AsksToClose links after) :
    after.closings = (links.map (·.number)).reverse ++ before.closings := by
  have hnumber : Event.closing? ∘ Event.close = some ∘ Link.number := rfl
  rw [Wire.closings, h.record, List.filterMap_append, ← List.map_reverse, List.filterMap_map, hnumber,
    List.filterMap_eq_map, List.map_reverse]
  rfl

/-- Between two wires no link was opened, and none was asked to close. -/
structure SameLinks (before after : Wire) : Prop where
  opened : after.opened = before.opened
  closings : after.closings = before.closings

instance : IsPreorder Wire SameLinks where
  refl _ := ⟨rfl, rfl⟩
  trans _ _ _ h h' := ⟨h'.opened.trans h.opened, h'.closings.trans h.closings⟩

/-- A link that is opened has a number of its own. -/
theorem connect_links (store : Nat) (wire : Wire) :
    (∃ e after, connect store wire = .error e after ∧ wire.SameLinks after) ∨
      ∃ after, connect store wire = .ok ⟨wire.opened, store, true⟩ after ∧
        after.opened = wire.opened + 1 ∧ after.closings = wire.closings := by
  have hnoted : wire.SameLinks (wire.note (.connect store) .connect).2 := ⟨rfl, rfl⟩
  rw [connect]
  generalize wire.note (.connect store) .connect = noted at hnoted
  obtain ⟨_ | fault, after⟩ := noted
  · have hopened : after.opened = wire.opened := hnoted.opened
    refine .inr ⟨{ after with opened := after.opened + 1 }, ?_, ?_, hnoted.closings⟩
    · simp only [hopened]
    · simp only [hopened]
  · exact .inl ⟨_, _, rfl, hnoted⟩

end Wire

namespace Link

theorem close_asks (link : Link) (wire : Wire) :
    wire.AsksToClose [link] (finalState (link.close wire)) := by
  have hnoted : wire.AsksToClose [link] (wire.note (.close link) .close).2 := ⟨rfl, rfl, rfl⟩
  unfold close
  generalize wire.note (.close link) .close = noted at hnoted
  obtain ⟨fault, noted⟩ := noted
  cases fault with
  | none | some fault => exact ⟨hnoted.record, hnoted.opened, hnoted.stores⟩

theorem abandon_asks (link : Link) (wire : Wire) : wire.AsksToClose [link] (link.abandon wire) := by
  have hclose := link.close_asks wire
  unfold abandon
  cases hresult : link.close wire with
  | ok closed after | error e after =>
    rw [hresult] at hclose
    exact hclose

/-- Links that are given up are all asked, whichever fail to close. -/
theorem abandonAll_asks (links : List Link) (wire : Wire) :
    wire.AsksToClose links (abandonAll links wire) := by
  induction links generalizing wire with
  | nil => exact ⟨rfl, rfl, rfl⟩
  | cons link rest ih => exact (link.abandon_asks wire).append (ih (link.abandon wire))

theorem abandon_links (link : Link) (wire : Wire) : (link.abandon wire).opened = wire.opened ∧
    (link.abandon wire).closings = link.number :: wire.closings :=
  ⟨(link.abandon_asks wire).opened, (link.abandon_asks wire).closings⟩

theorem abandonAll_links (links : List Link) (wire : Wire) :
    (abandonAll links wire).opened = wire.opened ∧
      (abandonAll links wire).closings.Perm (links.map (·.number) ++ wire.closings) := by
  have hasks := abandonAll_asks links wire
  refine ⟨hasks.opened, ?_⟩
  rw [hasks.closings]
  exact (List.reverse_perm _).append_right wire.closings

/-- Whatever strikes a call, it neither opens a link nor asks one to close. -/
theorem takes_send (link : Link) (mode : Mode) (commands : List Command) :
    Takes id Wire.SameLinks (link.send mode commands) := by
  have happly : ∀ (mode : Mode) (commands : List Command),
      Takes id Wire.SameLinks (link.apply mode commands) := by
    intro mode commands wire
    unfold apply
    split <;> exact ⟨rfl, rfl⟩
  intro wire
  have hnoted : wire.SameLinks (wire.note (.send mode link commands) (.send mode)).2 := ⟨rfl, rfl⟩
  unfold send
  generalize wire.note (.send mode link commands) (.send mode) = noted at hnoted
  obtain ⟨fault, noted⟩ := noted
  cases fault with
  | none => exact trans_of Wire.SameLinks hnoted (happly mode commands noted)
  | some fault =>
    cases fault with
    | failing applied error =>
      cases applied with
      | none =>
        dsimp only
        rw [finalState_throw_after]
        exact trans_of Wire.SameLinks hnoted (happly mode commands noted)
      | some count =>
        dsimp only
        rw [finalState_throw_after]
        exact trans_of Wire.SameLinks hnoted (happly .pipeline (commands.take count) noted)
    | garbled change =>
      dsimp only
      rw [finalState_map]
      exact trans_of Wire.SameLinks hnoted (happly mode commands noted)
    | refused answer =>
      dsimp only
      rw [finalState_map]
      exact trans_of Wire.SameLinks hnoted (happly mode [] noted)

theorem takes_execute (link : Link) (command : Command) :
    Takes id Wire.SameLinks (link.execute command) := by
  intro wire
  rw [execute, finalState_map]
  exact link.takes_send .execute [command] wire

theorem takes_fetchRound (link : Link) (key : Bytes) (fields : List Bytes) :
    Takes id Wire.SameLinks (link.fetchRound key fields) := by
  intro wire
  have hsend : wire.SameLinks (finalState
      (link.send .pipeline (fields.map fun field => .ask key (.get field)) wire)) :=
    link.takes_send ..
  unfold fetchRound
  cases hresult : link.send .pipeline (fields.map fun field => .ask key (.get field)) wire with
  | ok replies after | error e after =>
    rw [hresult] at hsend
    exact hsend

end Link

end BlockDir
