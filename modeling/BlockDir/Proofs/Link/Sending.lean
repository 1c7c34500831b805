import BlockDir.Link.Transfer
import BlockDir.Proofs.Store.Tables

/-!
# What may become of a call

Faults are sorted by what they leave of the promises of a store: whether a call that reads fails
(`Fault.Truthful`) or may also bring a wrong number of replies (`Fault.Overt`), whether replies
arrive only for what was applied (`Fault.Fair`), and whether a transaction is applied as a whole or
not at all (`Fault.Atomic`). `Link.Sent` lists everything that may become of a call over an open
link, and whether a fault was spent on it (`Wire.waiting`); all that follows about calls is read off
`send_sent`.
-/

namespace BlockDir

namespace Fault

/-- A call of the sort that is not a transaction fails if the fault strikes it: what it reads, if it
answers, is true. -/
def Truthful (moment : Moment) (fault : Fault) : Prop :=
  moment = .send .execute ∨ moment = .send .pipeline →
    ∃ applied error, fault = .failing applied error

/-- A call that reads fails if the fault strikes it, or it brings a wrong number of replies. A single
command has one reply in any case, so it fails. -/
def Overt (moment : Moment) (fault : Fault) : Prop :=
  (moment = .send .execute → ∃ applied error, fault = .failing applied error) ∧
    (moment = .send .pipeline → match fault with
      | .failing .. => True
      | .garbled change => ∀ replies ≠ [], (change replies).length ≠ replies.length
      | .refused answer => ∀ commands ≠ [], (answer commands).length ≠ commands.length)

/-- Replies arrive one for each command only if the commands were applied. -/
def Fair (_ : Moment) (fault : Fault) : Prop :=
  ∀ answer, fault = .refused answer → ∀ commands, (answer commands).length ≠ commands.length

/-- A transaction that the fault strikes is applied as a whole or not at all. -/
def Atomic (moment : Moment) (fault : Fault) : Prop :=
  moment = .send .transaction → ∀ applied error, fault = .failing (some applied) error → applied = 0

theorem Truthful.overt {moment : Moment} {fault : Fault} (h : Truthful moment fault) :
    Overt moment fault := by
  refine ⟨fun heq => h (.inl heq), fun heq => ?_⟩
  obtain ⟨applied, error, rfl⟩ := h (.inr heq)
  trivial

/-- A transaction reads nothing. -/
theorem truthful_transaction (fault : Fault) : Truthful (.send .transaction) fault := by
  rintro (heq | heq) <;> cases heq

end Fault

namespace Wire

/-- The faults that are still to strike, with the calls that they strike. -/
def threats (wire : Wire) : List (Moment × Fault) := wire.faults.map fun a => (a.moment, a.fault)

/-- Whether all faults that are still to strike are of a sort. -/
def Suffers (wire : Wire) (sort : Moment → Fault → Prop) : Prop :=
  ∀ threat ∈ wire.threats, sort threat.1 threat.2

theorem Suffers.mono {wire later : Wire} {sort : Moment → Fault → Prop}
    (h : wire.Suffers sort) (hsub : later.threats ⊆ wire.threats) : later.Suffers sort :=
  fun threat hmem => h threat (hsub hmem)

theorem Suffers.overt {wire : Wire} (h : wire.Suffers Fault.Truthful) : wire.Suffers Fault.Overt :=
  fun threat hmem => (h threat hmem).overt

theorem suffers_of_threats_nil {wire : Wire} (h : wire.threats = [])
    (sort : Moment → Fault → Prop) : wire.Suffers sort := by
  intro threat hmem
  rw [h] at hmem
  exact absurd hmem List.not_mem_nil

theorem Suffers.arm {wire : Wire} {sort : Moment → Fault → Prop} (h : wire.Suffers sort)
    {fault : ArmedFault} (hsort : sort fault.moment fault.fault) :
    (wire.arm fault).Suffers sort := by
  intro threat hmem
  rw [threats, Wire.arm, List.map_append] at hmem
  rcases List.mem_append.1 hmem with hold | hnew
  · exact h threat hold
  · obtain rfl := List.mem_singleton.1 hnew
    exact hsort

/-- Calls that are not transactions are never refused by truthful faults. -/
theorem Suffers.not_refused {wire : Wire} (h : wire.Suffers Fault.Truthful) {mode : Mode}
    (hmode : mode = .execute ∨ mode = .pipeline) (answer : List Command → List Reply) :
    (Moment.send mode, Fault.refused answer) ∉ wire.threats := by
  intro hmem
  obtain ⟨applied, error, heq⟩ := h _ hmem (by simpa using hmode)
  cases heq

theorem threats_eq_nil_iff {wire : Wire} : wire.threats = [] ↔ wire.faults = [] := List.map_eq_nil_iff

/-- Counting a call down brings no new fault, and strikes with one that was armed for it. -/
theorem note_spec (wire : Wire) (event : Event) (moment : Moment) :
    (wire.note event moment).2.store = wire.store ∧
      (wire.note event moment).2.threats ⊆ wire.threats ∧
      ∀ fault, (wire.note event moment).1 = some fault → (moment, fault) ∈ wire.threats := by
  have hcounted : ∀ a ∈ ArmedFault.countDown moment wire.faults, (a.moment, a.fault) ∈ wire.threats := by
    intro a ha
    obtain ⟨b, hb, rfl⟩ := List.mem_map.1 ha
    refine List.mem_map.2 ⟨b, hb, ?_⟩
    split <;> rfl
  refine ⟨rfl, ?_, ?_⟩
  · intro threat hthreat
    obtain ⟨a, ha, rfl⟩ := List.mem_map.1 hthreat
    exact hcounted a (List.mem_of_mem_filter ha)
  · intro fault hfault
    obtain ⟨a, ha, rfl⟩ := Option.map_eq_some_iff.1 hfault
    have hdue := List.find?_some ha
    simp only [ArmedFault.isDue, Bool.and_eq_true, decide_eq_true_eq] at hdue
    rw [← hdue.1]
    exact hcounted a (List.mem_of_find?_eq_some ha)

/-- How many faults wait for other calls than the closing of links. -/
def waiting (wire : Wire) : Nat := wire.faults.countP fun a => a.moment ≠ .close

theorem waiting_eq_zero {wire : Wire} (h : wire.threats = []) : wire.waiting = 0 := by
  rw [waiting, threats_eq_nil_iff.1 h]
  rfl

theorem threats_ne_nil_of_waiting_lt {before after : Wire} (h : after.waiting < before.waiting) :
    before.threats ≠ [] := by
  intro hnil
  rw [waiting_eq_zero hnil] at h
  exact absurd h (Nat.not_lt_zero _)

/-- A fault that strikes is spent, and as long as none strikes none is. The closing of links does not
count. -/
theorem note_waiting (wire : Wire) (event : Event) (moment : Moment) :
    ((wire.note event moment).1 = none ∨ moment = .close →
        (wire.note event moment).2.waiting = wire.waiting) ∧
      ∀ fault, (wire.note event moment).1 = some fault → moment ≠ .close →
        (wire.note event moment).2.waiting < wire.waiting := by
  let counts : ArmedFault → Bool := fun a => a.moment ≠ .close
  let counted := ArmedFault.countDown moment wire.faults
  have hcounted : counted.countP counts = wire.waiting := by
    simp only [counted, ArmedFault.countDown, List.countP_map, waiting]
    refine List.countP_congr fun a _ => ?_
    simp only [Function.comp_apply, counts]
    split <;> rfl
  have hsplit := List.countP_eq_countP_filter_add counted counts (ArmedFault.isDue moment)
  rw [hcounted] at hsplit
  have hafter : (wire.note event moment).2.waiting =
      (counted.filter fun a => !ArmedFault.isDue moment a).countP counts := rfl
  have hstruck : (wire.note event moment).1 =
      (counted.find? (ArmedFault.isDue moment)).map (·.fault) := rfl
  rw [hafter, hstruck]
  constructor
  · intro hnone
    have hzero : (counted.filter (ArmedFault.isDue moment)).countP counts = 0 := by
      rw [List.countP_eq_zero]
      intro a ha
      obtain ⟨hmem, hdue⟩ := List.mem_filter.1 ha
      rcases hnone with hnone | rfl
      · have hnever := List.find?_eq_none.1 (Option.map_eq_none_iff.1 hnone) a hmem
        exact absurd hdue hnever
      · simp only [ArmedFault.isDue, Bool.and_eq_true, decide_eq_true_eq] at hdue
        simp [counts, hdue.1]
    omega
  · intro fault hfault hclose
    obtain ⟨a, ha, -⟩ := Option.map_eq_some_iff.1 hfault
    have hdue := List.find?_some ha
    have hpos : 0 < (counted.filter (ArmedFault.isDue moment)).countP counts := by
      refine List.countP_pos_iff.2
        ⟨a, List.mem_filter.2 ⟨List.mem_of_find?_eq_some ha, hdue⟩, ?_⟩
      simp only [ArmedFault.isDue, Bool.and_eq_true, decide_eq_true_eq] at hdue
      simp [counts, hdue.1, hclose]
    omega

/-- Between two wires nothing was sent: the stores are as they were, no fault was added, and the record
tells of links that were opened or closed at most. -/
structure Quiet (before after : Wire) : Prop where
  stores : after.store = before.store
  threats : after.threats ⊆ before.threats
  record : ∃ events : List Event, after.record = events ++ before.record ∧
    ∀ mode link commands, Event.send mode link commands ∉ events

theorem Quiet.refl (wire : Wire) : wire.Quiet wire :=
  ⟨rfl, fun _ hmem => hmem, [], rfl, fun _ _ _ => List.not_mem_nil⟩

theorem Quiet.trans {a b c : Wire} (h : a.Quiet b) (h' : b.Quiet c) : a.Quiet c := by
  obtain ⟨events, hrecord, hnone⟩ := h.record
  obtain ⟨more, hrecord', hnone'⟩ := h'.record
  refine ⟨h'.stores.trans h.stores, fun t hmem => h.threats (h'.threats hmem), more ++ events, ?_, ?_⟩
  · rw [hrecord', hrecord, List.append_assoc]
  · intro mode link commands hmem
    rcases List.mem_append.1 hmem with hmem | hmem
    · exact hnone' mode link commands hmem
    · exact hnone mode link commands hmem

/-- Opening or closing a link sends nothing. -/
theorem note_quiet (wire : Wire) (event : Event)
    (hevent : ∀ mode link commands, event ≠ .send mode link commands) (moment : Moment) :
    wire.Quiet (wire.note event moment).2 := by
  obtain ⟨hstore, hthreats, -⟩ := note_spec wire event moment
  refine ⟨hstore, hthreats, [event], rfl, ?_⟩
  intro mode link commands hmem
  exact hevent mode link commands (List.mem_singleton.1 hmem).symm

/-- Between two wires nothing was sent, and no fault struck. -/
structure Spared (before after : Wire) : Prop extends Quiet before after where
  waiting : after.waiting = before.waiting

/-- Between two wires nothing was sent, but a fault struck. -/
structure Struck (before after : Wire) : Prop extends Quiet before after where
  waiting : after.waiting < before.waiting

theorem Spared.refl (wire : Wire) : wire.Spared wire := ⟨.refl wire, rfl⟩

theorem Struck.threats_ne_nil {before after : Wire} (h : before.Struck after) :
    before.threats ≠ [] :=
  threats_ne_nil_of_waiting_lt h.waiting

@[simp] theorem store_setStore_eq (wire : Wire) (number : Nat) (s : Store) :
    (wire.setStore number s).store = Function.update wire.store number s := by
  funext other
  rw [store_setStore, Function.update_apply]
  split <;> simp_all [eq_comm]

theorem setStore_setStore (wire : Wire) (number : Nat) (first second : Store) :
    (wire.setStore number first).setStore number second = wire.setStore number second := by
  simp only [setStore]
  congr 1
  apply Std.ExtTreeMap.ext_getElem?
  intro other
  simp only [Std.ExtTreeMap.getElem?_insert]
  split <;> rfl

end Wire

/-- The state in which a result leaves. -/
def finalState {ε σ α : Type} : EStateM.Result ε σ α → σ
  | .ok _ state => state
  | .error _ state => state

/-- The result that an action came to, without the state in which it left. -/
def outcome {ε σ α : Type} : EStateM.Result ε σ α → Except ε α
  | .ok a _ => .ok a
  | .error e _ => .error e

namespace Link

/-- The stores after commands were run over a link. -/
def storesAfter (link : Link) (wire : Wire) (commands : List Command) : Nat → Store :=
  Function.update wire.store link.store ((wire.store link.store).runAll commands).2

/-- The replies that a store sends to commands over a link. -/
def replies (link : Link) (wire : Wire) (commands : List Command) : List Reply :=
  ((wire.store link.store).runAll commands).1

/-- What may become of a call over an open link: the outcome and the wire after it. A fault strikes in
all cases but the first. -/
inductive Sent (link : Link) (mode : Mode) (commands : List Command) (wire : Wire) :
    EStateM.Result Error Wire (List Reply) → Prop where
  /-- No fault strikes. -/
  | answered {after : Wire} (stores : after.store = link.storesAfter wire commands)
      (spared : after.waiting = wire.waiting) :
      Sent link mode commands wire (.ok (link.replies wire commands) after)
  /-- The call fails after all of its commands were applied. -/
  | failed {after : Wire} {error : Error}
      (threat : (Moment.send mode, Fault.failing none error) ∈ wire.threats)
      (stores : after.store = link.storesAfter wire commands)
      (struck : after.waiting < wire.waiting) :
      Sent link mode commands wire (.error error after)
  /-- The call fails after its first commands were applied. -/
  | cut {after : Wire} {count : Nat} {error : Error}
      (threat : (Moment.send mode, Fault.failing (some count) error) ∈ wire.threats)
      (stores : after.store = link.storesAfter wire (commands.take count))
      (struck : after.waiting < wire.waiting) :
      Sent link mode commands wire (.error error after)
  /-- The replies are not those that were sent. -/
  | garbled {after : Wire} {change : List Reply → List Reply}
      (threat : (Moment.send mode, Fault.garbled change) ∈ wire.threats)
      (stores : after.store = link.storesAfter wire commands)
      (struck : after.waiting < wire.waiting) :
      Sent link mode commands wire (.ok (change (link.replies wire commands)) after)
  /-- Nothing was applied, and replies arrive. -/
  | refused {after : Wire} {answer : List Command → List Reply}
      (threat : (Moment.send mode, Fault.refused answer) ∈ wire.threats)
      (stores : after.store = wire.store) (struck : after.waiting < wire.waiting) :
      Sent link mode commands wire (.ok (answer commands) after)

theorem apply_open {link : Link} (hopen : link.isOpen = true) (mode : Mode)
    (commands : List Command) (wire : Wire) :
    link.apply mode commands wire =
      .ok ((wire.store link.store).runAll commands).1
        (wire.setStore link.store ((wire.store link.store).runAll commands).2) := by
  simp [apply, hopen]

/-- Questions change no store. -/
theorem apply_asks {link : Link} (hopen : link.isOpen = true) (mode : Mode) (key : Bytes)
    (queries : List Query) (wire : Wire) :
    ∃ after, link.apply mode (queries.map (.ask key)) wire =
        .ok (queries.map ((wire.store link.store).table key).answer) after ∧
      after.store = wire.store ∧ after.threats = wire.threats := by
  rw [apply_open hopen, Store.runAll_asks]
  refine ⟨_, rfl, ?_, rfl⟩
  rw [Wire.store_setStore_eq, Function.update_eq_self]

/-- A round trip applies its commands one after the other. -/
theorem apply_cons (link : Link) (command : Command) (rest : List Command) :
    link.apply .pipeline (command :: rest) = do
      let first ← link.apply .pipeline [command]
      return first ++ (← link.apply .pipeline rest) := by
  funext wire
  by_cases hopen : link.isOpen = true
  · simp only [apply_open hopen, bind, EStateM.bind, pure, EStateM.pure, Store.runAll,
      Wire.store_setStore, if_true, Wire.setStore_setStore]
    rfl
  · simp [apply, hopen, bind, EStateM.bind]

theorem send_sent {link : Link} (hopen : link.isOpen = true) (mode : Mode)
    (commands : List Command) (wire : Wire) :
    Sent link mode commands wire (link.send mode commands wire) ∧
      (finalState (link.send mode commands wire)).threats ⊆ wire.threats := by
  obtain ⟨hstore, hthreats, hstruck⟩ := Wire.note_spec wire (.send mode link commands) (.send mode)
  obtain ⟨hspared, hspent⟩ := Wire.note_waiting wire (.send mode link commands) (.send mode)
  unfold send
  generalize wire.note (.send mode link commands) (.send mode) = noted
    at hstore hthreats hstruck hspared hspent ⊢
  obtain ⟨fault, noted⟩ := noted
  dsimp only at hstore hthreats hstruck hspared hspent
  cases fault with
  | none =>
    dsimp only
    rw [apply_open hopen, hstore]
    exact ⟨.answered (by rw [Wire.store_setStore_eq, hstore]; rfl) (hspared (.inl rfl)), hthreats⟩
  | some fault =>
    have hthreat := hstruck fault rfl
    have hless : noted.waiting < wire.waiting := hspent fault rfl fun heq => nomatch heq
    cases fault with
    | failing applied error =>
      cases applied with
      | none =>
        have hrun : (link.apply mode commands *> throw error : WireM (List Reply)) noted =
            .error error (noted.setStore link.store
              ((noted.store link.store).runAll commands).2) := by
          simp [SeqRight.seqRight, EStateM.seqRight, apply_open hopen]
          rfl
        dsimp only
        rw [hrun, hstore]
        exact ⟨.failed hthreat (by rw [Wire.store_setStore_eq, hstore]; rfl) hless, hthreats⟩
      | some count =>
        have hrun : (link.apply .pipeline (commands.take count) *> throw error :
            WireM (List Reply)) noted = .error error (noted.setStore link.store
              ((noted.store link.store).runAll (commands.take count)).2) := by
          simp [SeqRight.seqRight, EStateM.seqRight, apply_open hopen]
          rfl
        dsimp only
        rw [hrun, hstore]
        exact ⟨.cut hthreat (by rw [Wire.store_setStore_eq, hstore]; rfl) hless, hthreats⟩
    | garbled change =>
      have hrun : (change <$> link.apply mode commands : WireM (List Reply)) noted =
          .ok (change ((noted.store link.store).runAll commands).1)
            (noted.setStore link.store ((noted.store link.store).runAll commands).2) := by
        simp [Functor.map, EStateM.map, apply_open hopen]
      dsimp only
      rw [hrun, hstore]
      exact ⟨.garbled hthreat (by rw [Wire.store_setStore_eq, hstore]; rfl) hless, hthreats⟩
    | refused answer =>
      have hrun : ((fun _ => answer commands) <$> link.apply mode [] : WireM (List Reply)) noted =
          .ok (answer commands) (noted.setStore link.store (noted.store link.store)) := by
        simp [Functor.map, EStateM.map, apply_open hopen, Store.runAll]
      dsimp only
      rw [hrun]
      exact ⟨.refused hthreat (by rw [Wire.store_setStore_eq, Function.update_eq_self, hstore])
        hless, hthreats⟩

end Link

end BlockDir
