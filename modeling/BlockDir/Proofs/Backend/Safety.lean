import BlockDir.Proofs.Backend.Courses

/-!
# Errors that are foreseen

An action is safe if it fails only with errors that are allowed and leaves things as it wants to find
them (`Safe`); that it is safe is told from its parts. Whatever the stores hold and through whatever
backend, all that a client does fails only with trouble of its links, with what is closed, or with
what the faults report (`Reckoned`).

An error of the kind `misuse` stands for a call that has no meaning: a file divided into blocks of no
bytes, a block that is not there. All other errors are foreseen, and so are those of a client whose
links report no misuse themselves.
-/

namespace BlockDir

/-- An error that a caller has to reckon with. -/
def Error.Foreseen (e : Error) : Prop := e.kind ≠ .misuse

/-- A result that is there, or is missing for a reason that is allowed. -/
def Sane {α : Type} (allowed : Error → Prop) (result : Except Error α) : Prop :=
  ∀ e, result = .error e → allowed e

/-- A fault that is reported as a foreseen error, if as an error at all. -/
def Fault.Foreseen (_ : Moment) (fault : Fault) : Prop := fault.error.Foreseen

/-- A result of an action that keeps `inv` and fails only with allowed errors. -/
def Fares {σ α : Type} (allowed : Error → Prop) (inv : σ → Prop) :
    EStateM.Result Error σ α → Prop
  | .ok _ state => inv state
  | .error e state => inv state ∧ allowed e

/-- Wherever `inv` holds, an action keeps it, and fails only with allowed errors. -/
def Safe {σ α : Type} (allowed : Error → Prop) (inv : σ → Prop)
    (act : EStateM Error σ α) : Prop :=
  ∀ state, inv state → Fares allowed inv (act state)

/-- Whether whoever uses links that suffer faults of some sort may fail only with allowed errors. -/
structure Reckoned (allowed : Error → Prop) (sort : Moment → Fault → Prop) : Prop where
  link : ∀ trouble, allowed (.link trouble)
  closed : ∀ what, allowed (.closed what)
  fault : ∀ moment fault, sort moment fault → allowed fault.error

theorem reckoned_foreseen : Reckoned Error.Foreseen Fault.Foreseen where
  link _ := nofun
  closed _ := nofun
  fault _ _ h := h

theorem reckoned_any (sort : Moment → Fault → Prop) : Reckoned (fun _ => True) sort where
  link _ := trivial
  closed _ := trivial
  fault _ _ _ := trivial

section

variable {σ α β : Type} {allowed : Error → Prop}

theorem sane_ok (a : α) : Sane allowed (.ok a) := fun _ h => nomatch h

theorem sane_error {e : Error} (h : allowed e) : Sane allowed (.error e : Except Error α) := by
  rintro _ ⟨⟩
  exact h

theorem Sane.bind {result : Except Error α} (h : Sane allowed result) {next : α → Except Error β}
    (hnext : ∀ a, Sane allowed (next a)) : Sane allowed (result >>= next) := by
  cases result with
  | ok a => exact hnext a
  | error e => exact sane_error (h e rfl)

theorem sane_mapM {f : α → Except Error β} (h : ∀ a, Sane allowed (f a)) (as : List α) :
    Sane allowed (as.mapM f) := by
  induction as with
  | nil => exact sane_ok []
  | cons a rest ih =>
    rw [List.mapM_cons]
    exact (h a).bind fun b => ih.bind fun bs => sane_ok (b :: bs)

variable {inv : σ → Prop}

theorem Fares.finalState {result : EStateM.Result Error σ α} (h : Fares allowed inv result) :
    inv (finalState result) := by
  cases result with
  | ok a state => exact h
  | error e state => exact h.1

theorem Fares.withState {τ : Type} {keep : τ → Prop} {result : EStateM.Result Error σ α}
    (h : Fares allowed inv result) {state : τ} (hstate : keep state) :
    Fares allowed keep (BlockDir.withState state result) := by
  cases result with
  | ok a last => exact hstate
  | error e last => exact ⟨hstate, h.2⟩

theorem safe_give {result : Except Error α} (h : Sane allowed result) :
    Safe allowed inv (give result) := by
  intro state hstate
  cases result with
  | ok a => exact hstate
  | error e => exact ⟨hstate, h e rfl⟩

theorem safe_pure (a : α) : Safe allowed inv (pure a) := fun _ hstate => hstate

theorem safe_throw {e : Error} (h : allowed e) : Safe allowed inv (throw e : EStateM Error σ α) :=
  fun _ hstate => ⟨hstate, h⟩

theorem Safe.bind {act : EStateM Error σ α} (h : Safe allowed inv act)
    {next : α → EStateM Error σ β} (hnext : ∀ a, Safe allowed inv (next a)) :
    Safe allowed inv (act >>= next) := by
  intro state hstate
  have hact := h state hstate
  simp only [Bind.bind, EStateM.bind]
  cases hresult : act state with
  | ok a middle =>
    rw [hresult] at hact
    exact hnext a middle hact
  | error e middle =>
    rw [hresult] at hact
    exact hact

theorem Safe.map {act : EStateM Error σ α} (h : Safe allowed inv act) (f : α → β) :
    Safe allowed inv (f <$> act) := by
  rw [map_eq_pure_bind]
  exact h.bind fun a => safe_pure (f a)

theorem Safe.seqRight {act : EStateM Error σ α} (h : Safe allowed inv act)
    {next : EStateM Error σ β} (hnext : Safe allowed inv next) : Safe allowed inv (act *> next) := by
  rw [seqRight_eq_bind]
  exact h.bind fun _ => hnext

theorem safe_mapM {f : α → EStateM Error σ β} (h : ∀ a, Safe allowed inv (f a)) (as : List α) :
    Safe allowed inv (as.mapM f) := by
  induction as with
  | nil => exact safe_pure []
  | cons a rest ih =>
    rw [List.mapM_cons]
    exact (h a).bind fun b => ih.bind fun bs => safe_pure (b :: bs)

theorem safe_forM {f : α → EStateM Error σ Unit} (h : ∀ a, Safe allowed inv (f a))
    (as : List α) :
    Safe allowed inv (as.forM f) := by
  induction as with
  | nil => exact safe_pure ()
  | cons a rest ih => exact (h a).bind fun _ => ih

end

/-! ## Over one link -/

/-- Whether links suffer only faults of a sort. -/
def Wire.Bears (sort : Moment → Fault → Prop) (wire : Wire) : Prop := wire.Suffers sort

/-- Whether the links of a client suffer only faults of a sort. -/
def Client.Bears (sort : Moment → Fault → Prop) (client : Client) : Prop := client.wire.Bears sort

variable {allowed : Error → Prop} {sort : Moment → Fault → Prop}

section

variable (hr : Reckoned allowed sort)

include hr

theorem Reply.sane_toBool (reply : Reply) : Sane allowed reply.toBool := by
  cases reply <;> first | exact sane_ok _ | exact sane_error (hr.link _)

theorem Reply.sane_toInteger (reply : Reply) : Sane allowed reply.toInteger := by
  cases reply <;> first | exact sane_ok _ | exact sane_error (hr.link _)

theorem Reply.sane_toValue (reply : Reply) : Sane allowed reply.toValue := by
  cases reply <;> first | exact sane_ok _ | exact sane_error (hr.link _)

theorem Reply.sane_toList (reply : Reply) : Sane allowed reply.toList := by
  cases reply <;> first | exact sane_ok _ | exact sane_error (hr.link _)

theorem Mode.sane_judge (mode : Mode) (writes : Batch) (replies : List Reply) :
    Sane allowed (mode.judge writes replies) := by
  have hverify : Sane allowed (writes.verify replies) := by
    unfold Batch.verify
    split
    · exact sane_error (hr.link _)
    · split
      · exact sane_error (hr.link _)
      · exact sane_ok ()
  cases mode with
  | execute => exact (Reply.sane_toInteger hr (replies.headD .nil)).bind fun _ => sane_ok ()
  | pipeline | transaction => exact hverify

/-- What a call counts down leaves no other faults to come, and it strikes with one at most. -/
theorem Wire.Bears.note {wire : Wire} (h : wire.Bears sort) (event : Event) (moment : Moment) :
    (wire.note event moment).2.Bears sort ∧
      ∀ fault, (wire.note event moment).1 = some fault → allowed fault.error := by
  obtain ⟨-, hthreats, hstruck⟩ := wire.note_spec event moment
  exact ⟨Suffers.mono h hthreats, fun fault hfault => hr.fault _ _ (h _ (hstruck fault hfault))⟩

theorem Wire.safe_connect (number : Nat) : Safe allowed (Bears sort) (connect number) := by
  intro wire hwire
  obtain ⟨hrest, hstruck⟩ := hwire.note hr (.connect number) .connect
  rw [connect]
  generalize wire.note (.connect number) .connect = noted at hrest hstruck
  obtain ⟨fault, noted⟩ := noted
  cases fault with
  | none => exact hrest
  | some fault => exact ⟨hrest, hstruck fault rfl⟩

namespace Link

theorem safe_close (link : Link) : Safe allowed (Wire.Bears sort) link.close := by
  intro wire hwire
  obtain ⟨hrest, hstruck⟩ := hwire.note hr (.close link) .close
  rw [close]
  generalize wire.note (.close link) .close = noted at hrest hstruck
  obtain ⟨fault, noted⟩ := noted
  cases fault with
  | none => exact hrest
  | some fault => exact ⟨hrest, hstruck fault rfl⟩

omit hr in
theorem bears_abandon (link : Link) {wire : Wire} (h : wire.Bears sort) :
    (link.abandon wire).Bears sort := by
  have hclose := (link.safe_close (reckoned_any sort) wire h).finalState
  rw [abandon]
  cases hresult : link.close wire with
  | ok closed after | error e after =>
    rw [hresult] at hclose
    exact hclose

omit hr in
theorem bears_abandonAll (links : List Link) {wire : Wire} (h : wire.Bears sort) :
    (abandonAll links wire).Bears sort := by
  unfold abandonAll
  induction links generalizing wire with
  | nil => exact h
  | cons link rest ih => exact ih (link.bears_abandon h)

theorem safe_apply (link : Link) (mode : Mode) (commands : List Command) :
    Safe allowed (Wire.Bears sort) (link.apply mode commands) := by
  intro wire hwire
  unfold apply
  split
  · exact hwire
  · exact ⟨hwire, hr.link _⟩

theorem safe_send (link : Link) (mode : Mode) (commands : List Command) :
    Safe allowed (Wire.Bears sort) (link.send mode commands) := by
  intro wire hwire
  obtain ⟨hrest, hstruck⟩ := hwire.note hr (.send mode link commands) (.send mode)
  unfold send
  generalize wire.note (.send mode link commands) (.send mode) = noted at hrest hstruck
  obtain ⟨fault, noted⟩ := noted
  cases fault with
  | none => exact link.safe_apply hr mode commands noted hrest
  | some fault =>
    have herror := hstruck fault rfl
    cases fault with
    | failing applied error =>
      cases applied with
      | none => exact (link.safe_apply hr _ _).seqRight (safe_throw herror) noted hrest
      | some count => exact (link.safe_apply hr _ _).seqRight (safe_throw herror) noted hrest
    | garbled change => exact (link.safe_apply hr _ _).map change noted hrest
    | refused answer => exact (link.safe_apply hr _ _).map (fun _ => answer commands) noted hrest

theorem safe_ask {α : Type} (link : Link) (command : Command) {f : Reply → Except Error α}
    (h : ∀ reply, Sane allowed (f reply)) :
    Safe allowed (Wire.Bears sort) (do give (f (← link.execute command)) : WireM α) :=
  ((link.safe_send hr .execute [command]).map _).bind fun reply => safe_give (h reply)

theorem safe_fetchRound (link : Link) (key : Bytes) (fields : List Bytes) :
    Safe allowed (Wire.Bears sort) (link.fetchRound key fields) := by
  intro wire hwire
  have hsend :=
    (link.safe_send hr .pipeline (fields.map fun field => .ask key (.get field)) wire hwire).finalState
  unfold fetchRound
  cases hresult : link.send .pipeline (fields.map fun field => .ask key (.get field)) wire with
  | ok replies after | error e after =>
    rw [hresult] at hsend
    exact hsend

theorem safe_fetchSlots (link : Link) (key : Bytes) (interval : Nat) (fields : List Bytes) :
    Safe allowed (Wire.Bears sort) (link.fetchSlots key interval fields) :=
  (safe_mapM (link.safe_fetchRound hr key) (chunks interval fields)).bind fun slots =>
    safe_pure slots.flatten

theorem safe_post (link : Link) (mode : Mode) (writes : Batch) :
    Safe allowed (Wire.Bears sort) (link.post mode writes) :=
  (link.safe_send hr mode writes.commands).bind fun replies =>
    safe_give (mode.sane_judge hr writes replies)

end Link

/-! ## Over a link of a pool -/

namespace Pool

theorem safe_endWait : Safe allowed (fun state => state.2.Bears sort) endWait := by
  rintro ⟨pool, wire⟩ hwire
  cases hidle : pool.idle with
  | cons link idle =>
    simp only [endWait, hidle]
    exact hwire
  | nil =>
    simp only [endWait, hidle]
    split
    · exact ⟨hwire, hr.closed _⟩
    · exact ⟨hwire, hr.link _⟩

theorem safe_checkout : Safe allowed (fun state => state.2.Bears sort) checkout := by
  rintro ⟨pool, wire⟩ hwire
  rw [checkout]
  split
  · exact ⟨hwire, hr.closed _⟩
  · split
    · have hconnect := Wire.safe_connect hr pool.store wire hwire
      cases hresult : Wire.connect pool.store wire with
      | ok link after | error e after =>
        rw [hresult] at hconnect
        exact hconnect
    · exact safe_endWait hr (pool, wire) hwire

omit hr in
theorem bears_giveBack (pool : Pool) (link : Link) (spoiled : Bool) {wire : Wire}
    (h : wire.Bears sort) : (pool.giveBack link spoiled wire).2.Bears sort := by
  unfold giveBack
  split
  · exact h
  · exact link.bears_abandon h

theorem safe_lend {α : Type} (spoils : α → Bool) {act : Link → WireM α}
    (h : ∀ link, Safe allowed (Wire.Bears sort) (act link)) :
    Safe allowed (fun state => state.2.Bears sort) (Pool.lend spoils act) := by
  intro state hstate
  have hcheckout := safe_checkout hr state hstate
  unfold Pool.lend
  cases hlink : checkout state with
  | error e after =>
    rw [hlink] at hcheckout
    exact hcheckout
  | ok link lent =>
    rw [hlink] at hcheckout
    obtain ⟨lending, first⟩ := lent
    have hact := h link first hcheckout
    dsimp only
    cases hresult : act link first with
    | ok a middle =>
      rw [hresult] at hact
      exact bears_giveBack lending link _ hact
    | error e middle =>
      rw [hresult] at hact
      exact ⟨bears_giveBack lending link _ hact.1, hact.2⟩

end Pool

/-! ## Over any backend -/

namespace Client

variable {α : Type}

theorem safe_lend (key : Bytes) (spoils : α → Bool) {act : Link → WireM α}
    (h : ∀ link, Safe allowed (Wire.Bears sort) (act link)) :
    Safe allowed (Client.Bears sort) (lend key spoils act) := by
  rintro ⟨backend, start, window⟩ hstart
  cases backend with
  | single link closed =>
    cases closed with
    | true => exact ⟨hstart, hr.closed _⟩
    | false =>
      have hact := h link start hstart
      rw [lend_single]
      exact hact.withState hact.finalState
  | pooled pool =>
    have hlend := Pool.safe_lend hr spoils h (pool, start) hstart
    rw [lend_pooled]
    exact hlend.withState hlend.finalState
  | @sharded n shards =>
    have hlend := Pool.safe_lend hr spoils h (shards.get (route n key), start) hstart
    rw [lend_sharded key spoils act start window shards rfl]
    exact hlend.withState hlend.finalState
  | @cluster n nodes closed =>
    cases closed with
    | true => exact ⟨hstart, hr.closed _⟩
    | false =>
      have hact := h (nodes.get (route n key)) start hstart
      rw [lend_cluster]
      exact hact.withState hact.finalState

theorem safe_hasField (key field : Bytes) : Safe allowed (Client.Bears sort) (hasField key field) :=
  safe_lend hr key _ fun link => link.safe_ask hr _ (Reply.sane_toBool hr)

theorem safe_getField (key field : Bytes) : Safe allowed (Client.Bears sort) (getField key field) :=
  safe_lend hr key _ fun link => link.safe_ask hr _ (Reply.sane_toValue hr)

theorem safe_listFields (key : Bytes) : Safe allowed (Client.Bears sort) (listFields key) :=
  safe_lend hr key _ fun link => link.safe_ask hr _ (Reply.sane_toList hr)

theorem safe_fetchSlots (key : Bytes) (fields : List Bytes) (interval : Nat) :
    Safe allowed (Client.Bears sort) (fetchSlots key fields interval) := by
  have hsingly : ∀ field, Safe allowed (Client.Bears sort) (fetchSingly key field) := by
    intro field client hclient
    have hget := (safe_getField hr key field client hclient).finalState
    unfold fetchSingly
    cases hresult : getField key field client with
    | ok value after | error e after =>
      rw [hresult] at hget
      exact hget
  intro client hclient
  unfold fetchSlots
  split
  · exact safe_mapM hsingly fields client hclient
  · have hlend := (safe_lend hr key (·.any Option.isNone)
      (fun link => link.safe_fetchSlots hr key interval fields) client hclient).finalState
    cases hresult : lend key (·.any Option.isNone) (·.fetchSlots key interval fields) client with
    | ok slots after | error e after =>
      rw [hresult] at hlend
      exact hlend

theorem safe_fetch (key : Bytes) (fields : List Bytes) (interval : Nat) :
    Safe allowed (Client.Bears sort) (fetch key fields interval) := by
  refine (safe_fetchSlots hr key fields interval).bind fun slots => ?_
  refine Safe.bind (fun client hclient => hclient) fun client => ?_
  split
  · exact safe_pure _
  · exact safe_pure _

theorem safe_commit (batch : Batch) (interval : Nat) :
    Safe allowed (Client.Bears sort) (commit batch interval) := by
  have hpass (leg : Leg) : Safe allowed (Client.Bears sort) leg.pass :=
    safe_lend hr leg.key _ fun link => safe_forM (link.safe_post hr leg.mode) leg.rounds
  intro client hclient
  rw [commit_eq]
  exact safe_forM hpass _ client hclient

theorem safe_closeNodes (nodes : List Link) : Safe allowed (Wire.Bears sort) (closeNodes nodes) := by
  induction nodes with
  | nil => exact safe_pure ()
  | cons link rest ih => exact (link.safe_close hr).bind fun _ => ih

theorem safe_close : Safe allowed (Client.Bears sort) close := by
  rintro ⟨backend, start, window⟩ hstart
  cases backend with
  | single link closed =>
    cases closed with
    | true => exact hstart
    | false =>
      have hclose := link.safe_close hr start hstart
      simp only [close]
      cases hresult : link.close start with
      | ok link after | error e after =>
        rw [hresult] at hclose
        exact hclose
  | pooled pool => exact Link.bears_abandonAll pool.doomed hstart
  | sharded shards => exact Link.bears_abandonAll (shards.toList.flatMap Pool.doomed) hstart
  | cluster nodes closed =>
    cases closed with
    | true => exact hstart
    | false =>
      have hclose := safe_closeNodes hr nodes.toList start hstart
      simp only [close]
      cases hresult : closeNodes nodes.toList start with
      | ok done after | error e after =>
        rw [hresult] at hclose
        exact hclose

end Client

end

end BlockDir
