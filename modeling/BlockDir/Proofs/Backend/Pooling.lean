import BlockDir.Proofs.Backend.Service
import BlockDir.Proofs.Link.Counting

/-!
# The accounts of a pool

A link that a pool opens waits in the pool, is handed out, or was asked to close: it is one of these, and
it was asked once (`Pool.Accounts`). Callers take links and give them back, discard them, have the pool
lend them for one use, and close the pool, in any order and with whatever faults, and the accounts are
kept by every call (`PoolSite.links_accounted`). A link that failed in use was asked to close, so it is
not handed out again.
-/

namespace BlockDir

/-! ## What a link is lent for -/

/-- What a pool lends a link for. -/
inductive LinkUse where
  | has (key field : Bytes)
  | get (key field : Bytes)
  | set (key field value : Bytes)
  | delete (key : Bytes) (fields : List Bytes)
  | list (key : Bytes)
  | transact (batch : Batch)
  | commitRounds (interval : Nat) (batch : Batch)
  | fetch (key : Bytes) (interval : Nat) (fields : List Bytes)

namespace LinkUse

/-- What comes of it. -/
def Result : LinkUse → Type
  | has .. => Bool
  | get .. => Option Bytes
  | set .. => Bool
  | delete .. => Nat
  | list _ => List Bytes
  | transact _ => Unit
  | commitRounds .. => Unit
  | fetch .. => List Slot

/-- What is done over the link. -/
def act : (use : LinkUse) → Link → WireM use.Result
  | has key field => (·.hasField key field)
  | get key field => (·.getField key field)
  | set key field value => (·.setField key field value)
  | delete key fields => (·.deleteFields key fields)
  | list key => (·.listFields key)
  | transact batch => (·.transact batch)
  | commitRounds interval batch => (·.commitRounds interval batch)
  | fetch key interval fields => (·.fetchSlots key interval fields)

/-- Whether a result says that the link is spoiled: a batched read has gaps where it failed. -/
def spoils : (use : LinkUse) → use.Result → Bool
  | fetch .. => (·.any Option.isNone)
  | _ => fun _ => false

/-- Whether a call over the link fails in transport. A batched read goes on after such a call. -/
def Fails (use : LinkUse) (link : Link) (wire : Wire) : Prop :=
  match use with
  | fetch key interval fields => ∃ before round rest slots middle e after,
    chunks interval fields = before ++ round :: rest ∧
      before.mapM (link.fetchRound key) wire = .ok slots middle ∧
      link.send .pipeline (round.map fun field => .ask key (.get field)) middle = .error e after ∧
      e.isTransport = true
  | use => ∃ e after, use.act link wire = .error e after ∧ e.isTransport = true

theorem takes_act (use : LinkUse) (link : Link) : Takes id Wire.SameLinks (use.act link) := by
  have hexecute : ∀ {α : Type} (command : Command) (f : Reply → Except Error α),
      Takes id Wire.SameLinks (do give (f (← link.execute command)) : WireM α) :=
    fun command f => (link.takes_execute command).bind fun reply => takes_give (f reply)
  cases use with
  | has key field | get key field | set key field value | list key => exact hexecute _ _
  | delete key fields =>
    simp only [act, Link.deleteFields]
    split
    · exact takes_pure (0 : Nat)
    · exact (link.takes_execute _).bind fun reply => (takes_give _).bind fun count => takes_pure _
  | transact batch =>
    simp only [act, Link.transact]
    split
    · exact takes_pure ()
    · exact (link.takes_send _ _).bind fun replies => takes_give _
  | commitRounds interval batch =>
    exact takes_forM fun round _ => (link.takes_send _ _).bind fun replies => takes_give _
  | fetch key interval fields =>
    exact (takes_mapM (link.takes_fetchRound key) _).bind fun slots => takes_pure _

/-- Rounds go on after those that fail. -/
theorem fetchRounds_eq_ok (link : Link) (key : Bytes) (rounds : List (List Bytes)) (wire : Wire) :
    ∃ slots after, rounds.mapM (link.fetchRound key) wire = .ok slots after := by
  induction rounds generalizing wire with
  | nil => exact ⟨[], wire, rfl⟩
  | cons round rest ih =>
    have hround : ∃ slots after, link.fetchRound key round wire = .ok slots after := by
      unfold Link.fetchRound
      cases link.send .pipeline (round.map fun field => .ask key (.get field)) wire <;>
        exact ⟨_, _, rfl⟩
    obtain ⟨slots, middle, hslots⟩ := hround
    obtain ⟨more, after, hmore⟩ := ih middle
    refine ⟨slots :: more, after, ?_⟩
    rw [List.mapM_cons]
    simp only [bind, EStateM.bind, hslots, hmore, pure, EStateM.pure]

/-- A link over which a call failed in transport is spoiled. -/
theorem spoiled_of_fails {use : LinkUse} {link : Link} {wire : Wire} (h : use.Fails link wire) :
    (∃ a after, use.act link wire = .ok a after ∧ use.spoils a = true) ∨
      ∃ e after, use.act link wire = .error e after ∧ e.isTransport = true := by
  cases use with
  | fetch key interval fields =>
    obtain ⟨before, round, rest, slots, middle, e, failed, hrounds, hbefore, hsend, -⟩ := h
    have hsome : round ≠ [] := (mem_chunks (hrounds ▸ List.mem_append_right _ List.mem_cons_self)).1
    have hround : link.fetchRound key round middle = .ok (round.map fun _ => none) failed := by
      simp only [Link.fetchRound, hsend]
    obtain ⟨more, after, hrest⟩ := fetchRounds_eq_ok link key rest failed
    refine .inl ⟨(slots ++ (round.map fun _ => none) :: more).flatten, after, ?_, ?_⟩
    · simp only [act, Link.fetchSlots, hrounds, List.mapM_append, List.mapM_cons, bind, EStateM.bind,
        hbefore, hround, hrest, pure, EStateM.pure]
      rfl
    · obtain ⟨field, hfield⟩ := List.exists_mem_of_ne_nil round hsome
      have hgap : (none : Slot) ∈ round.map fun _ => none := List.mem_map.2 ⟨field, hfield, rfl⟩
      refine List.any_eq_true.2 ⟨none, List.mem_flatten.2 ⟨_, ?_, hgap⟩, rfl⟩
      exact List.mem_append_right _ List.mem_cons_self
  | has key field | get key field | set key field value | delete key fields | list key | transact batch
  | commitRounds interval batch => exact .inr h

end LinkUse

/-! ## Accounts -/

namespace Pool

/-- Every link that was opened waits in the pool, is out, or was asked to close, just one of these and
once; the pool knows how many there still are, and these are not too many. -/
structure Accounts (pool : Pool) (wire : Wire) (out : List Link) : Prop where
  live : pool.live = pool.idle.length + out.length
  limit : pool.live ≤ pool.config.maxConnections
  links : ((pool.idle ++ out).map (·.number) ++ wire.closings).Perm (List.range wire.opened)
  shut : pool.closed = true → pool.idle = []

/-- What a caller who asks for a link may be answered. -/
inductive Hands (pool : Pool) (wire : Wire) : EStateM.Result Error (Pool × Wire) Link → Prop where
  | refused (e : Error) {after : Wire} (links : wire.SameLinks after) :
    Hands pool wire (.error e (pool, after))
  | waiting {link : Link} {idle : List Link} (first : pool.idle = link :: idle) :
    Hands pool wire (.ok link ({ pool with idle }, wire))
  | opened {after : Wire} (room : pool.live < pool.config.maxConnections)
    (opened : after.opened = wire.opened + 1) (closings : after.closings = wire.closings) :
    Hands pool wire (.ok ⟨wire.opened, pool.store, true⟩ ({ pool with live := pool.live + 1 }, after))

variable {pool : Pool} {wire : Wire} {out : List Link}

theorem hands_endWait (pool : Pool) (wire : Wire) : pool.Hands wire (endWait (pool, wire)) := by
  cases hidle : pool.idle with
  | cons link idle =>
    simp only [endWait, hidle]
    exact .waiting hidle
  | nil =>
    simp only [endWait, hidle]
    split <;> exact .refused _ (refl_of Wire.SameLinks wire)

theorem hands_checkout (pool : Pool) (wire : Wire) : pool.Hands wire (checkout (pool, wire)) := by
  by_cases hclosed : pool.closed = true
  · rw [checkout, if_pos hclosed]
    exact .refused _ (refl_of Wire.SameLinks wire)
  · rw [checkout, if_neg hclosed]
    split
    · rename_i hroom
      obtain ⟨e, after, herror, hlinks⟩ | ⟨after, hok, hopened, hclosings⟩ :=
        wire.connect_links pool.store
      · simp only [herror]
        exact .refused e hlinks
      · simp only [hok]
        exact .opened (of_decide_eq_true (Bool.and_eq_true_iff.1 hroom).2) hopened hclosings
    · exact pool.hands_endWait wire

namespace Accounts

/-- In what order the links are that are out makes no difference. -/
theorem perm (h : pool.Accounts wire out) {other : List Link} (hperm : out.Perm other) :
    pool.Accounts wire other where
  live := hperm.length_eq ▸ h.live
  limit := h.limit
  links := (((hperm.symm.append_left pool.idle).map _).append_right _).trans h.links
  shut := h.shut

theorem sameLinks (h : pool.Accounts wire out) {after : Wire} (hlinks : wire.SameLinks after) :
    pool.Accounts after out where
  live := h.live
  limit := h.limit
  links := by
    rw [hlinks.opened, hlinks.closings]
    exact h.links
  shut := h.shut

/-- A link that is handed out is out. -/
theorem hands (h : pool.Accounts wire out) {link : Link} {lending : Pool} {after : Wire}
    (hhands : pool.Hands wire (.ok link (lending, after))) : lending.Accounts after (link :: out) := by
  cases hhands with
  | @waiting _ idle first =>
    have hlive := h.live
    have hlinks := h.links
    rw [first] at hlive hlinks
    refine ⟨?_, h.limit, ?_, fun hclosed => ?_⟩
    · simp only [List.length_cons] at hlive ⊢
      omega
    · exact ((List.perm_middle.map _).append_right _).trans hlinks
    · cases first.symm.trans (h.shut hclosed)
  | opened room opened closings =>
    have hlive := h.live
    refine ⟨?_, room, ?_, h.shut⟩
    · simp only [List.length_cons]
      omega
    · rw [opened, closings, List.range_succ]
      exact ((List.perm_middle.map _).append_right _).trans
        ((h.links.cons _).trans (List.perm_append_singleton ..).symm)

/-- A link that is given back waits, or it was asked to close. -/
theorem giveBack {link : Link} (h : pool.Accounts wire (link :: out)) (spoiled : Bool) :
    (pool.giveBack link spoiled wire).1.Accounts (pool.giveBack link spoiled wire).2 out := by
  have hlive := h.live
  have hlimit := h.limit
  rw [List.length_cons] at hlive
  unfold Pool.giveBack
  split
  · rename_i hkept
    refine ⟨?_, hlimit, ?_, fun hclosed => ?_⟩
    · simp only [List.length_append, List.length_singleton]
      omega
    · rw [List.append_assoc]
      exact h.links
    · have hclosed' : pool.closed = true := hclosed
      simp [hclosed'] at hkept
  · obtain ⟨hopened, hclosings⟩ := link.abandon_links wire
    refine ⟨?_, ?_, ?_, h.shut⟩
    · show pool.live - 1 = pool.idle.length + out.length
      omega
    · exact (Nat.sub_le ..).trans hlimit
    · rw [hopened, hclosings]
      refine List.Perm.trans ?_ h.links
      refine List.perm_middle.trans ?_
      exact ((List.perm_middle.map _).append_right _).symm

/-- Closing a pool asks those links to close that wait. -/
theorem close (h : pool.Accounts wire out) :
    pool.shut.Accounts (Link.abandonAll pool.doomed wire) out := by
  obtain ⟨hopened, hclosings⟩ := Link.abandonAll_links pool.doomed wire
  by_cases hclosed : pool.closed = true
  · rw [Pool.shut, Pool.doomed, if_pos hclosed, if_pos hclosed]
    exact h
  · rw [Pool.doomed, if_neg hclosed] at hopened hclosings
    rw [Pool.shut, Pool.doomed, if_neg hclosed, if_neg hclosed]
    have hlive := h.live
    refine ⟨?_, (Nat.sub_le ..).trans h.limit, ?_, fun _ => rfl⟩
    · show pool.live - pool.idle.length = 0 + out.length
      omega
    · rw [hopened, List.nil_append]
      have hlinks := h.links
      rw [List.map_append] at hlinks
      refine (hclosings.append_left _).trans ?_
      rw [← List.append_assoc]
      exact (List.perm_append_comm.append_right _).trans hlinks

end Accounts

/-- A pool goes on as it is: with its limit, closed if it was closed, and what was asked to close stays
so. -/
structure Onward (before after : Pool × Wire) : Prop where
  config : after.1.config = before.1.config
  closed : after.1.closed = before.1.closed
  closings : before.2.closings ⊆ after.2.closings

theorem Onward.trans {a b c : Pool × Wire} (h : Onward a b) (h' : Onward b c) : Onward a c :=
  ⟨h'.config.trans h.config, h'.closed.trans h.closed, List.Subset.trans h.closings h'.closings⟩

theorem onward_of_sameLinks {after : Wire} (pool : Pool) (h : wire.SameLinks after) :
    Onward (pool, wire) (pool, after) :=
  ⟨rfl, rfl, h.closings ▸ List.Subset.refl _⟩

theorem Hands.onward {result : EStateM.Result Error (Pool × Wire) Link} (h : pool.Hands wire result) :
    Onward (pool, wire) (finalState result) := by
  cases h with
  | refused e links => exact onward_of_sameLinks pool links
  | waiting first => exact ⟨rfl, rfl, List.Subset.refl _⟩
  | opened room opened closings => exact ⟨rfl, rfl, closings ▸ List.Subset.refl _⟩

theorem onward_giveBack (pool : Pool) (link : Link) (spoiled : Bool) (wire : Wire) :
    Onward (pool, wire) (pool.giveBack link spoiled wire) := by
  unfold Pool.giveBack
  split
  · exact ⟨rfl, rfl, List.Subset.refl _⟩
  · refine ⟨rfl, rfl, ?_⟩
    rw [(link.abandon_links wire).2]
    exact List.subset_cons_self ..

/-- A link that was spoiled is asked to close. -/
theorem mem_closings_giveBack (pool : Pool) (link : Link) (wire : Wire) :
    link.number ∈ (pool.giveBack link true wire).2.closings := by
  rw [Pool.giveBack, if_neg (by simp), (link.abandon_links wire).2]
  exact List.mem_cons_self

/-- A pool lends a link by handing it out and taking it back, as spoiled if its use says so. -/
theorem lend_cases {α : Type} (spoils : α → Bool) {act : Link → WireM α}
    (hact : ∀ link, Takes id Wire.SameLinks (act link)) (pool : Pool) (wire : Wire) :
    (∃ e after, checkout (pool, wire) = .error e (pool, after) ∧ wire.SameLinks after ∧
        finalState (lend spoils act (pool, wire)) = (pool, after)) ∨
      ∃ link lending first spoiled middle, checkout (pool, wire) = .ok link (lending, first) ∧
        first.SameLinks middle ∧
        finalState (lend spoils act (pool, wire)) = lending.giveBack link spoiled middle ∧
        ((∃ a after, act link first = .ok a after ∧ spoils a = true) ∨
          (∃ e after, act link first = .error e after ∧ e.isTransport = true) → spoiled = true) := by
  have hhands := pool.hands_checkout wire
  unfold Pool.lend
  cases hcheckout : checkout (pool, wire) with
  | error e state =>
    rw [hcheckout] at hhands
    cases hhands with
    | @refused _ after links => exact .inl ⟨e, after, rfl, links, rfl⟩
  | ok link state =>
    obtain ⟨lending, first⟩ := state
    have htaken := hact link first
    cases hresult : act link first with
    | ok a middle =>
      rw [hresult] at htaken
      refine .inr ⟨link, lending, first, spoils a, middle, rfl, htaken, ?_, ?_⟩
      · simp only [hresult, finalState]
      · rintro (⟨a', after, hsame, hspoils⟩ | ⟨e, after, hsame, -⟩)
        · cases hresult.symm.trans hsame
          exact hspoils
        · cases hresult.symm.trans hsame
    | error e middle =>
      rw [hresult] at htaken
      refine .inr ⟨link, lending, first, e.isTransport, middle, rfl, htaken, ?_, ?_⟩
      · simp only [hresult, finalState]
      · rintro (⟨a, after, hsame, -⟩ | ⟨e', after, hsame, htransport⟩)
        · cases hresult.symm.trans hsame
        · cases hresult.symm.trans hsame
          exact htransport

theorem onward_lend {α : Type} (spoils : α → Bool) {act : Link → WireM α}
    (hact : ∀ link, Takes id Wire.SameLinks (act link)) (pool : Pool) (wire : Wire) :
    Onward (pool, wire) (finalState (lend spoils act (pool, wire))) := by
  obtain ⟨e, after, -, hlinks, hstate⟩ |
    ⟨link, lending, first, spoiled, middle, hcheckout, hlinks, hstate, -⟩ :=
    lend_cases spoils hact pool wire
  · rw [hstate]
    exact onward_of_sameLinks pool hlinks
  · have hfirst := (pool.hands_checkout wire).onward
    rw [hcheckout] at hfirst
    rw [hstate]
    exact hfirst.trans ((onward_of_sameLinks lending hlinks).trans
      (lending.onward_giveBack link spoiled middle))

theorem Accounts.lend {α : Type} (h : pool.Accounts wire out) (spoils : α → Bool)
    {act : Link → WireM α} (hact : ∀ link, Takes id Wire.SameLinks (act link)) :
    (finalState (Pool.lend spoils act (pool, wire))).1.Accounts
      (finalState (Pool.lend spoils act (pool, wire))).2 out := by
  obtain ⟨e, after, -, hlinks, hstate⟩ |
    ⟨link, lending, first, spoiled, middle, hcheckout, hlinks, hstate, -⟩ :=
    lend_cases spoils hact pool wire
  · rw [hstate]
    exact h.sameLinks hlinks
  · rw [hstate]
    have hhands := pool.hands_checkout wire
    rw [hcheckout] at hhands
    exact ((h.hands hhands).sameLinks hlinks).giveBack spoiled

end Pool

/-! ## Callers of a pool -/

/-- A pool with the wire below it, and the links that callers took out: each with whether it was
discarded. -/
structure PoolSite where
  pool : Pool
  wire : Wire
  out : List (Link × Bool)

/-- What callers of a pool do. The links that they took out are told apart by their places. -/
inductive PoolCall where
  | checkout
  /-- A checkout that had to wait comes to its end. -/
  | endWait
  | discard (place : Nat)
  | giveBack (place : Nat)
  | lend (use : LinkUse)
  | close

namespace PoolSite

/-- A pool of which no link is out. -/
def start (pool : Pool) (wire : Wire) : PoolSite := ⟨pool, wire, []⟩

/-- The links that callers took out. -/
def links (site : PoolSite) : List Link := site.out.map (·.1)

/-- A caller asks for a link. -/
def take (site : PoolSite) (act : PoolM Link) : PoolSite :=
  match act (site.pool, site.wire) with
  | .ok link (pool, wire) => ⟨pool, wire, site.out ++ [(link, false)]⟩
  | .error _ (pool, wire) => ⟨pool, wire, site.out⟩

/-- The pool after a call. -/
def step (site : PoolSite) : PoolCall → PoolSite
  | .checkout => site.take Pool.checkout
  | .endWait => site.take Pool.endWait
  | .discard place => { site with out := site.out.modify place fun (link, _) => (link, true) }
  | .giveBack place =>
    match site.out[place]? with
    | none => site
    | some (link, spoiled) =>
      let (pool, wire) := site.pool.giveBack link spoiled site.wire
      ⟨pool, wire, site.out.eraseIdx place⟩
  | .lend use =>
    let (pool, wire) := finalState (Pool.lend use.spoils use.act (site.pool, site.wire))
    ⟨pool, wire, site.out⟩
  | .close => ⟨site.pool.shut, Link.abandonAll site.pool.doomed site.wire, site.out⟩

/-- The pool after calls that are made in turn. -/
def run (site : PoolSite) (calls : List PoolCall) : PoolSite := calls.foldl step site

/-- Whether the accounts of the pool are right. -/
def Sound (site : PoolSite) : Prop := site.pool.Accounts site.wire site.links

variable {site : PoolSite}

theorem sound_start {config : PoolConfig} {store : Nat} {pool : Pool}
    (hnew : Pool.new config store = .ok pool) (stores : Std.ExtTreeMap Nat Store)
    (faults : List ArmedFault) : (start pool ⟨stores, faults, [], 0⟩).Sound := by
  obtain ⟨-, rfl⟩ := Backend.new_eq_ok hnew
  exact ⟨rfl, Nat.zero_le _, .refl _, fun _ => rfl⟩

theorem take_eq (site : PoolSite) (act : PoolM Link) :
    ((site.take act).pool, (site.take act).wire) = finalState (act (site.pool, site.wire)) := by
  unfold take
  cases act (site.pool, site.wire) <;> rfl

/-- Asking for a link keeps the accounts. -/
theorem Sound.take (h : site.Sound) {act : PoolM Link}
    (hact : site.pool.Hands site.wire (act (site.pool, site.wire))) : (site.take act).Sound := by
  unfold PoolSite.take
  generalize act (site.pool, site.wire) = result at hact
  cases result with
  | error e state =>
    cases hact with
    | refused _ links => exact Pool.Accounts.sameLinks h links
  | ok link state =>
    obtain ⟨pool, wire⟩ := state
    rw [Sound, links, List.map_append]
    exact (Pool.Accounts.hands h hact).perm (List.perm_append_singleton ..).symm

/-- Every call keeps the accounts. -/
theorem Sound.step (h : site.Sound) (call : PoolCall) : (site.step call).Sound := by
  cases call with
  | checkout => exact h.take (site.pool.hands_checkout site.wire)
  | endWait => exact h.take (site.pool.hands_endWait site.wire)
  | discard place =>
    have hlinks : (site.step (.discard place)).links = site.links := by
      refine List.ext_getElem? fun index => ?_
      simp only [links, PoolSite.step, List.getElem?_map, List.getElem?_modify]
      split <;> cases site.out[index]? <;> rfl
    rw [Sound, hlinks]
    exact h
  | giveBack place =>
    rw [PoolSite.step]
    cases hplace : site.out[place]? with
    | none => exact h
    | some held =>
      obtain ⟨link, spoiled⟩ := held
      have hperm : site.links.Perm (link :: (site.out.eraseIdx place).map (·.1)) := by
        obtain ⟨hlt, hget⟩ := List.getElem?_eq_some_iff.1 hplace
        have hfirst := (List.getElem_cons_eraseIdx_perm hlt).symm.map (·.1)
        rw [hget] at hfirst
        exact hfirst
      exact (Pool.Accounts.perm h hperm).giveBack spoiled
  | lend use => exact Pool.Accounts.lend h use.spoils use.takes_act
  | close => exact Pool.Accounts.close h

/-- What is left of a pool after calls, of which one may have closed it: its limit, and what was asked to
close. -/
structure Passed (site : PoolSite) (closing : Prop) (after : PoolSite) : Prop where
  config : after.pool.config = site.pool.config
  closings : site.wire.closings ⊆ after.wire.closings
  closed : after.pool.closed = true ↔ site.pool.closed = true ∨ closing

theorem passed_of_onward {after : PoolSite} {closing : Prop} (hnot : ¬ closing)
    (h : Pool.Onward (site.pool, site.wire) (after.pool, after.wire)) : site.Passed closing after where
  config := h.config
  closings := h.closings
  closed := by rw [show after.pool.closed = site.pool.closed from h.closed, or_iff_left hnot]

/-- Closing a pool closes it, and no other call does. -/
theorem passed_step (site : PoolSite) (call : PoolCall) :
    site.Passed (call = .close) (site.step call) := by
  cases call with
  | checkout =>
    refine passed_of_onward nofun ?_
    rw [step, take_eq]
    exact (site.pool.hands_checkout site.wire).onward
  | endWait =>
    refine passed_of_onward nofun ?_
    rw [step, take_eq]
    exact (site.pool.hands_endWait site.wire).onward
  | discard place => exact passed_of_onward nofun ⟨rfl, rfl, List.Subset.refl _⟩
  | giveBack place =>
    refine passed_of_onward nofun ?_
    rw [step]
    cases site.out[place]? with
    | none => exact ⟨rfl, rfl, List.Subset.refl _⟩
    | some held => exact site.pool.onward_giveBack held.1 held.2 site.wire
  | lend use => exact passed_of_onward nofun (site.pool.onward_lend use.spoils use.takes_act site.wire)
  | close =>
    have hshut : site.pool.shut.config = site.pool.config ∧ site.pool.shut.closed = true := by
      unfold Pool.shut
      split
      · exact ⟨rfl, ‹_›⟩
      · exact ⟨rfl, rfl⟩
    refine ⟨hshut.1, fun number hmem => ?_, iff_of_true hshut.2 (.inr rfl)⟩
    exact (Link.abandonAll_links ..).2.mem_iff.2 (List.mem_append_right _ hmem)

theorem Sound.run (h : site.Sound) (calls : List PoolCall) : (site.run calls).Sound := by
  induction calls generalizing site with
  | nil => exact h
  | cons call rest ih => exact ih (h.step call)

theorem passed_run (site : PoolSite) (calls : List PoolCall) :
    site.Passed (.close ∈ calls) (site.run calls) := by
  induction calls generalizing site with
  | nil => exact ⟨rfl, List.Subset.refl _, by simp [run]⟩
  | cons call rest ih =>
    have hfirst := site.passed_step call
    have hrest := ih (site.step call)
    refine ⟨hrest.config.trans hfirst.config, List.Subset.trans hfirst.closings hrest.closings, ?_⟩
    refine hrest.closed.trans ?_
    rw [hfirst.closed, List.mem_cons, or_assoc, eq_comm (a := call)]

/-- A link that was asked to close neither waits nor is out. -/
theorem Sound.not_mem_of_closed (h : site.Sound) {number : Nat} (hclosed : number ∈ site.wire.closings) :
    number < site.wire.opened ∧ ∀ link ∈ site.pool.idle ++ site.links, link.number ≠ number := by
  have hnodup := h.links.nodup_iff.2 List.nodup_range
  refine ⟨List.mem_range.1 (h.links.mem_iff.1 (List.mem_append_right _ hclosed)), ?_⟩
  rintro link hmem rfl
  exact (List.nodup_append.1 hnodup).2.2 _ (List.mem_map_of_mem hmem) _ hclosed rfl

/-- A link over which a call failed was asked to close. -/
theorem closed_of_fails {use : LinkUse} {link : Link} {lending : Pool} {wire : Wire}
    (hcheckout : Pool.checkout (site.pool, site.wire) = .ok link (lending, wire))
    (hfails : use.Fails link wire) : link.number ∈ (site.step (.lend use)).wire.closings := by
  obtain ⟨e, after, herror, -⟩ |
    ⟨other, lending', first, spoiled, middle, hother, -, hstate, hspoiled⟩ :=
    Pool.lend_cases use.spoils use.takes_act site.pool site.wire
  · cases herror.symm.trans hcheckout
  · cases hcheckout.symm.trans hother
    show link.number ∈ (finalState (Pool.lend use.spoils use.act (site.pool, site.wire))).2.closings
    rw [hstate, hspoiled (LinkUse.spoiled_of_fails hfails)]
    exact lending.mem_closings_giveBack link middle

/-- A link that was asked to close is not handed out again. -/
theorem Sound.ne_of_closed (h : site.Sound) {number : Nat} (hclosed : number ∈ site.wire.closings)
    {act : PoolM Link} (hact : site.pool.Hands site.wire (act (site.pool, site.wire))) {link : Link}
    {state : Pool × Wire} (hok : act (site.pool, site.wire) = .ok link state) : link.number ≠ number := by
  obtain ⟨hlt, hother⟩ := h.not_mem_of_closed hclosed
  rw [hok] at hact
  cases hact with
  | waiting first =>
    refine hother link (List.mem_append_left _ ?_)
    rw [first]
    exact List.mem_cons_self
  | opened room opened closings => exact Nat.ne_of_gt hlt

/-- A pool that is closed has no link to hand out, and none when its last one has come back. -/
theorem Sound.closed (h : site.Sound) (hclosed : site.pool.closed = true) :
    site.pool.idle = [] ∧
      Pool.checkout (site.pool, site.wire) = .error (.closed .pool) (site.pool, site.wire) ∧
      Pool.endWait (site.pool, site.wire) =
        .error (.closed .poolDuringCheckout) (site.pool, site.wire) ∧
      (site.out = [] → site.pool.live = 0) := by
  have hidle : site.pool.idle = [] := h.shut hclosed
  refine ⟨hidle, ?_, ?_, fun hout => ?_⟩
  · rw [Pool.checkout, if_pos hclosed]
  · simp only [Pool.endWait, hidle, hclosed, if_true]
  · have hlive := h.live
    rw [hidle, links, hout] at hlive
    exact hlive

/-- Callers of a pool take links out, give them back, discard them, have the pool lend them, and close
it, while faults strike as they like. At every moment, the links that the pool counts are those that wait
and those that are out, no more than its limit; each link that was opened waits, is out, or was asked to
close, just one of these and once; a link over which a call of a use failed in transport does not wait
and is not out ever after; and a pool that was closed has nothing that waits, refuses whoever asks, and
counts no link when the last has come back. -/
theorem links_accounted {config : PoolConfig} {store : Nat} {pool : Pool}
    (hnew : Pool.new config store = .ok pool) (stores : Std.ExtTreeMap Nat Store)
    (faults : List ArmedFault) (calls : List PoolCall) :
    let site := (start pool ⟨stores, faults, [], 0⟩).run calls
    (site.pool.live = site.pool.idle.length + site.out.length ∧
        site.pool.live ≤ config.maxConnections) ∧
      ((site.pool.idle ++ site.links).map (·.number) ++ site.wire.closings).Perm
        (List.range site.wire.opened) ∧
      (∀ (use : LinkUse) {link lending first},
        Pool.checkout (site.pool, site.wire) = .ok link (lending, first) → use.Fails link first →
        ∀ more, let later := (site.step (.lend use)).run more
          (∀ other ∈ later.pool.idle ++ later.links, other.number ≠ link.number) ∧
            (∀ other state, Pool.checkout (later.pool, later.wire) = .ok other state →
              other.number ≠ link.number) ∧
            ∀ other state, Pool.endWait (later.pool, later.wire) = .ok other state →
              other.number ≠ link.number) ∧
      (site.pool.closed = true ↔ .close ∈ calls) ∧
      (site.pool.closed = true → site.pool.idle = [] ∧
        Pool.checkout (site.pool, site.wire) = .error (.closed .pool) (site.pool, site.wire) ∧
        Pool.endWait (site.pool, site.wire) =
          .error (.closed .poolDuringCheckout) (site.pool, site.wire) ∧
        (site.out = [] → site.pool.live = 0)) := by
  intro site
  have hpassed := passed_run (start pool ⟨stores, faults, [], 0⟩) calls
  have h : site.Sound := (sound_start hnew stores faults).run calls
  obtain ⟨-, rfl⟩ := Backend.new_eq_ok hnew
  have hlive := h.live
  have hlimit := h.limit
  rw [links, List.length_map] at hlive
  rw [hpassed.config] at hlimit
  refine ⟨⟨hlive, hlimit⟩, h.links, ?_, hpassed.closed.trans (or_iff_right nofun), h.closed⟩
  intro use link lending first hcheckout hfails more later
  have hlater : later.Sound := (h.step (.lend use)).run more
  have hclosed : link.number ∈ later.wire.closings :=
    (passed_run _ more).closings (closed_of_fails hcheckout hfails)
  exact ⟨(hlater.not_mem_of_closed hclosed).2,
    fun other state => hlater.ne_of_closed hclosed (later.pool.hands_checkout later.wire),
    fun other state => hlater.ne_of_closed hclosed (later.pool.hands_endWait later.wire)⟩

/-- A pool of one link: a write over it fails, so it is asked to close, and that fails too; opening the
next link fails at first; then it is out, and a second caller waits in vain; and the pool is closed before
the link comes back. -/
theorem links_accounted_amid_faults :
    let config : PoolConfig := ⟨1, 50⟩
    let faults : List ArmedFault :=
      [⟨.send .execute, .lost, 1⟩, ⟨.close, .lost, 1⟩, ⟨.connect, .lost, 2⟩]
    let use := LinkUse.set [1] [2] [3]
    let calls := [.lend use, .checkout, .checkout, .checkout, .close, .giveBack 0]
    ∃ pool, Pool.new config 0 = .ok pool ∧
      let site := start pool ⟨∅, faults, [], 0⟩
      let later := site.run calls
      (∃ link lending first, Pool.checkout (site.pool, site.wire) = .ok link (lending, first) ∧
          use.Fails link first ∧
          ∀ more, ∀ other ∈ ((site.step (.lend use)).run more).links, other.number ≠ link.number) ∧
        later.wire.closings = [1, 0] ∧ later.wire.opened = 2 ∧ later.out = [] ∧ later.pool.live = 0 ∧
        Pool.checkout (later.pool, later.wire) = .error (.closed .pool) (later.pool, later.wire) := by
  intro config faults use calls
  have hnew : Pool.new config 0 = .ok ⟨config, 0, [], 0, false⟩ := rfl
  refine ⟨_, hnew, ?_⟩
  intro site later
  have hfirst : ∃ lending first, Pool.checkout (site.pool, site.wire) =
      .ok ⟨0, 0, true⟩ (lending, first) ∧ use.Fails ⟨0, 0, true⟩ first := ⟨_, _, rfl, _, _, rfl, rfl⟩
  have hclosings : later.wire.closings = [1, 0] := by decide +kernel
  have hopened : later.wire.opened = 2 := by decide +kernel
  have hout : later.out = [] := List.length_eq_zero_iff.1 (by decide +kernel)
  obtain ⟨-, -, hnever, -⟩ := links_accounted hnew ∅ faults []
  obtain ⟨-, -, -, hclosed, hafter⟩ := links_accounted hnew ∅ faults calls
  obtain ⟨-, hcheckout, -, hlive⟩ := hafter (hclosed.2 (by simp [calls]))
  -- from here on nothing is to be computed
  have hsite : (start ⟨config, 0, [], 0, false⟩ ⟨∅, faults, [], 0⟩).run [] = site := rfl
  have hlater : (start ⟨config, 0, [], 0, false⟩ ⟨∅, faults, [], 0⟩).run calls = later := rfl
  rw [hsite] at hnever
  rw [hlater] at hcheckout hlive
  clear_value site later
  obtain ⟨lending, first, hfirst, hfails⟩ := hfirst
  refine ⟨⟨_, lending, first, hfirst, hfails, fun more other hmem => ?_⟩, hclosings, hopened, hout,
    hlive hout, hcheckout⟩
  exact (hnever use hfirst hfails more).1 other (List.mem_append_right _ hmem)

end PoolSite

end BlockDir
