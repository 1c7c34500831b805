import BlockDir.Proofs.Link.Reading

/-!
# What the record tells

Every call is recorded, and a call over a link applies some first of its commands to one store,
whatever strikes it. So the record tells through which stores a run may have passed (`Replays`), and
what no write of some sort breaks holds at every moment of a run that makes no writes but such
(`Replays.keeps`). That an action is of this kind (`Traces`) is told from its parts.
-/

namespace BlockDir

/-- What a call may have done to the stores: over a link, some first commands were applied. -/
def Event.Does (event : Event) (before after : Nat → Store) : Prop :=
  match event with
  | .send _ link commands => ∃ count,
    after = Function.update before link.store
      ((before link.store).runAll (commands.take count)).2
  | .connect _ | .close _ => after = before

/-- What calls that passed in turn, the first in front, may have made of the stores. -/
inductive Replays : List Event → (Nat → Store) → (Nat → Store) → Prop where
  | nil {stores : Nat → Store} : Replays [] stores stores
  | cons {event : Event} {rest : List Event} {a b c : Nat → Store} (first : event.Does a b)
      (next : Replays rest b c) : Replays (event :: rest) a c

theorem Replays.append {first second : List Event} {a b c : Nat → Store} (h : Replays first a b)
    (h' : Replays second b c) : Replays (first ++ second) a c := by
  induction h with
  | nil => exact h'
  | cons first _ ih => exact .cons first (ih h')

variable {sort : Write → Prop}

/-- Whether a command makes no write but one of some sort. -/
def Command.Within (sort : Write → Prop) : Command → Prop
  | .ask .. => True
  | .write w => sort w

/-- Whether the commands of a call make no writes but such of some sort. -/
def Event.Within (sort : Write → Prop) : Event → Prop
  | .send _ _ commands => ∀ command ∈ commands, command.Within sort
  | .connect _ | .close _ => True

section

variable {P : Store → Prop} (hkept : ∀ w, sort w → ∀ store : Store, P store → P (store.write w))

include hkept

theorem Store.keeps_runAll {commands : List Command}
    (h : ∀ command ∈ commands, command.Within sort) {store : Store} (hP : P store) :
    P (store.runAll commands).2 := by
  induction commands generalizing store with
  | nil => exact hP
  | cons command rest ih =>
    have hstep : P (store.run command).2 := by
      cases command with
      | ask asked query => exact hP
      | write w =>
        obtain ⟨n, hrun⟩ := store.run_write w
        rw [hrun]
        exact hkept w (h _ List.mem_cons_self) store hP
    exact ih (fun c hmem => h c (List.mem_cons_of_mem _ hmem)) hstep

theorem Event.Does.keeps {event : Event} {before after : Nat → Store} (h : event.Does before after)
    (hwithin : event.Within sort) (number : Nat) (hP : P (before number)) : P (after number) := by
  cases event with
  | connect store | close link => rwa [h]
  | send mode link commands =>
    obtain ⟨count, rfl⟩ := h
    by_cases hstore : number = link.store
    · subst hstore
      rw [Function.update_self]
      exact Store.keeps_runAll hkept (fun command hmem => hwithin command (List.mem_of_mem_take hmem)) hP
    · rwa [Function.update_of_ne hstore]

/-- What no write of some sort breaks holds through all calls that make no writes but such. -/
theorem Replays.keeps {events : List Event} {before after : Nat → Store}
    (h : Replays events before after) (hwithin : ∀ event ∈ events, event.Within sort) (number : Nat)
    (hP : P (before number)) : P (after number) := by
  induction h with
  | nil => exact hP
  | cons first _ ih =>
    exact ih (fun event hmem => hwithin event (List.mem_cons_of_mem _ hmem))
      (first.keeps hkept (hwithin _ List.mem_cons_self) number hP)

end

/-- Whether an action, wherever it starts, takes the wire that it works on along a relation. -/
def Takes {σ α : Type} (wire : σ → Wire) (R : Wire → Wire → Prop) (act : EStateM Error σ α) : Prop :=
  ∀ state, R (wire state) (wire (finalState (act state)))

section

variable {σ α β : Type} {wire : σ → Wire} {R : Wire → Wire → Prop} [IsPreorder Wire R]

theorem takes_give (result : Except Error α) : Takes wire R (give result) := by
  intro state
  rw [finalState_give]
  exact refl_of R _

theorem takes_pure (a : α) : Takes wire R (pure a) := fun _ => refl_of R _

theorem takes_throw (e : Error) : Takes wire R (throw e : EStateM Error σ α) := fun _ => refl_of R _

theorem Takes.bind {act : EStateM Error σ α} {next : α → EStateM Error σ β} (h : Takes wire R act)
    (hnext : ∀ a, Takes wire R (next a)) : Takes wire R (act >>= next) := by
  intro state
  have hact := h state
  simp only [Bind.bind, EStateM.bind]
  cases hresult : act state with
  | ok a middle =>
    rw [hresult] at hact
    exact trans_of R hact (hnext a middle)
  | error e middle =>
    rw [hresult] at hact
    exact hact

theorem takes_mapM {f : α → EStateM Error σ β} (h : ∀ a, Takes wire R (f a)) (as : List α) :
    Takes wire R (as.mapM f) := by
  induction as with
  | nil => exact takes_pure []
  | cons a rest ih =>
    rw [List.mapM_cons]
    exact (h a).bind fun b => ih.bind fun bs => takes_pure (b :: bs)

theorem takes_forM {f : α → EStateM Error σ Unit} {as : List α} (h : ∀ a ∈ as, Takes wire R (f a)) :
    Takes wire R (as.forM f) := by
  induction as with
  | nil => exact takes_pure ()
  | cons a rest ih =>
    exact (h a List.mem_cons_self).bind fun _ => ih fun b hmem => h b (List.mem_cons_of_mem _ hmem)

end

/-- Between two wires only calls that make such writes passed, and they made of the stores what is
there. -/
def Wire.Tells (sort : Write → Prop) (before after : Wire) : Prop :=
  ∃ events : List Event, after.record = events.reverse ++ before.record ∧
    Replays events before.store after.store ∧ ∀ event ∈ events, event.Within sort

theorem Wire.Tells.refl (wire : Wire) : wire.Tells sort wire :=
  ⟨[], rfl, .nil, fun _ hmem => absurd hmem List.not_mem_nil⟩

theorem Wire.Tells.trans {a b c : Wire} (h : a.Tells sort b) (h' : b.Tells sort c) :
    a.Tells sort c := by
  obtain ⟨events, hrecord, hreplays, hwithin⟩ := h
  obtain ⟨more, hrecord', hreplays', hwithin'⟩ := h'
  refine ⟨events ++ more, ?_, hreplays.append hreplays', ?_⟩
  · rw [hrecord', hrecord, List.reverse_append, List.append_assoc]
  · intro event hmem
    rcases List.mem_append.1 hmem with hmem | hmem
    · exact hwithin event hmem
    · exact hwithin' event hmem

instance : IsPreorder Wire (Wire.Tells sort) where
  refl := .refl
  trans _ _ _ := .trans

/-- Whether an action, wherever it starts, sends only such writes over the wire that it works on. -/
def Traces {σ α : Type} (wire : σ → Wire) (sort : Write → Prop) (act : EStateM Error σ α) : Prop :=
  ∀ state, (wire state).Tells sort (wire (finalState (act state)))

section

variable {σ α β : Type} {wire : σ → Wire}

theorem traces_give (result : Except Error α) : Traces wire sort (give result) := takes_give result

theorem traces_pure (a : α) : Traces wire sort (pure a) := takes_pure a

theorem traces_throw (e : Error) : Traces wire sort (throw e : EStateM Error σ α) := takes_throw e

theorem Traces.bind {act : EStateM Error σ α} {next : α → EStateM Error σ β}
    (h : Traces wire sort act) (hnext : ∀ a, Traces wire sort (next a)) :
    Traces wire sort (act >>= next) :=
  Takes.bind h hnext

theorem traces_mapM {f : α → EStateM Error σ β} (h : ∀ a, Traces wire sort (f a)) (as : List α) :
    Traces wire sort (as.mapM f) :=
  takes_mapM h as

theorem traces_forM {f : α → EStateM Error σ Unit} {as : List α}
    (h : ∀ a ∈ as, Traces wire sort (f a)) : Traces wire sort (as.forM f) :=
  takes_forM h

end

theorem Wire.connect_tells (number : Nat) : Traces id sort (connect number) := by
  intro wire
  have hrest : wire.Tells sort (wire.note (.connect number) .connect).2 :=
    ⟨[.connect number], rfl, .cons rfl .nil, by simp [Event.Within]⟩
  rw [connect]
  generalize wire.note (.connect number) .connect = noted at hrest
  obtain ⟨fault, noted⟩ := noted
  cases fault <;> exact hrest

theorem Link.abandon_tells (link : Link) (wire : Wire) : wire.Tells sort (link.abandon wire) := by
  have hrest : wire.Tells sort (wire.note (.close link) .close).2 :=
    ⟨[.close link], rfl, .cons rfl .nil, by simp [Event.Within]⟩
  rw [abandon, close]
  generalize wire.note (.close link) .close = noted at hrest
  obtain ⟨fault, noted⟩ := noted
  cases fault <;> exact hrest

namespace Link

/-- Whether or not a link is open, some first commands get through, and nothing is recorded. -/
theorem apply_does (link : Link) (mode : Mode) (commands : List Command) (wire : Wire) :
    (finalState (link.apply mode commands wire)).record = wire.record ∧
      ∃ count, (finalState (link.apply mode commands wire)).store =
        Function.update wire.store link.store
          ((wire.store link.store).runAll (commands.take count)).2 := by
  unfold apply
  split
  · refine ⟨rfl, commands.length, ?_⟩
    rw [List.take_length]
    exact Wire.store_setStore_eq _ _ _
  · exact ⟨rfl, 0, (Function.update_eq_self _ _).symm⟩

theorem finalState_throw_after {α β : Type} (act : WireM α) (e : Error) (wire : Wire) :
    finalState ((act *> throw e : WireM β) wire) = finalState (act wire) := by
  simp only [SeqRight.seqRight, EStateM.seqRight]
  cases act wire <;> rfl

theorem finalState_map {α β : Type} (f : α → β) (act : WireM α) (wire : Wire) :
    finalState ((f <$> act) wire) = finalState (act wire) := by
  simp only [Functor.map, EStateM.map]
  cases act wire <;> rfl

/-- A call is recorded, and whatever strikes it, some first of its commands get through. -/
theorem send_does (link : Link) (mode : Mode) (commands : List Command) (wire : Wire) :
    (finalState (link.send mode commands wire)).record = .send mode link commands :: wire.record ∧
      (Event.send mode link commands).Does wire.store
        (finalState (link.send mode commands wire)).store := by
  obtain ⟨hstore, -, -⟩ := wire.note_spec (.send mode link commands) (.send mode)
  have hrecord : (wire.note (.send mode link commands) (.send mode)).2.record =
      .send mode link commands :: wire.record := rfl
  unfold send
  generalize wire.note (.send mode link commands) (.send mode) = noted at hstore hrecord
  obtain ⟨fault, noted⟩ := noted
  dsimp only at hstore hrecord
  have hall : ∀ mode', (finalState (link.apply mode' commands noted)).record =
      .send mode link commands :: wire.record ∧ (Event.send mode link commands).Does wire.store
        (finalState (link.apply mode' commands noted)).store := by
    intro mode'
    obtain ⟨hsame, count, happlied⟩ := link.apply_does mode' commands noted
    rw [hstore] at happlied
    exact ⟨hsame.trans hrecord, count, happlied⟩
  cases fault with
  | none => exact hall mode
  | some fault =>
    cases fault with
    | failing applied error =>
      cases applied with
      | none =>
        dsimp only
        rw [finalState_throw_after]
        exact hall mode
      | some count =>
        dsimp only
        rw [finalState_throw_after]
        obtain ⟨hsame, few, happlied⟩ := link.apply_does .pipeline (commands.take count) noted
        rw [hstore, List.take_take] at happlied
        exact ⟨hsame.trans hrecord, _, happlied⟩
    | garbled change =>
      dsimp only
      rw [finalState_map]
      exact hall mode
    | refused answer =>
      dsimp only
      rw [finalState_map]
      obtain ⟨hsame, count, happlied⟩ := link.apply_does mode [] noted
      rw [hstore, List.take_nil] at happlied
      exact ⟨hsame.trans hrecord, 0, happlied⟩

theorem traces_send (link : Link) (mode : Mode) {commands : List Command}
    (h : ∀ command ∈ commands, command.Within sort) :
    Traces id sort (link.send mode commands) := by
  intro wire
  obtain ⟨hrecord, hdoes⟩ := link.send_does mode commands wire
  exact ⟨[.send mode link commands], hrecord, .cons hdoes .nil, by simpa [Event.Within] using h⟩

end Link

end BlockDir
