import BlockDir.Proofs.Backend.Service
import BlockDir.Proofs.Link.Counting

/-!
# Closing a backend

Closing a backend asks its waiting links to close, in turn and each once, and closing it again asks none
(`Client.close_asks_waiting`). A pool goes on when a link fails to close; a cluster stops there, and since it is
closed from then on, the nodes behind that one are never asked (`Client.close_skips_nodes`).
-/

namespace BlockDir

namespace Backend

/-- The links that wait in a backend for someone to use them. -/
def waiting : Backend → List Link
  | single link _ => [link]
  | pooled pool => pool.idle
  | sharded shards => shards.toList.flatMap Pool.idle
  | cluster nodes _ => nodes.toList

/-- Whether a backend, with all pools that it consists of, is closed, or open. -/
def ClosedIs (closed : Bool) : Backend → Prop
  | single _ flag => flag = closed
  | pooled pool => pool.closed = closed
  | sharded shards => ∀ pool ∈ shards.toList, pool.closed = closed
  | cluster _ flag => flag = closed

end Backend

namespace Pool

theorem doomed_of_open {pool : Pool} (h : pool.closed = false) : pool.doomed = pool.idle := by
  simp [doomed, h]

theorem doomed_of_closed {pool : Pool} (h : pool.closed = true) : pool.doomed = [] := if_pos h

theorem shut_of_closed {pool : Pool} (h : pool.closed = true) : pool.shut = pool := if_pos h

theorem closed_shut (pool : Pool) : pool.shut.closed = true := by
  unfold shut
  split
  · assumption
  · rfl

end Pool

namespace Client

/-- Nodes are asked in turn, all of them or those up to the first that fails to close. -/
theorem closeNodes_asks (nodes : List Link) (wire : Wire) :
    (∃ after, closeNodes nodes wire = .ok () after ∧ wire.AsksToClose nodes after) ∨
      ∃ before last left middle e after, nodes = before ++ last :: left ∧
        closeNodes nodes wire = .error e after ∧ wire.AsksToClose (before ++ [last]) after ∧
        closeNodes before wire = .ok () middle ∧ last.close middle = .error e after := by
  induction nodes generalizing wire with
  | nil => exact .inl ⟨wire, rfl, rfl, rfl, rfl⟩
  | cons link rest ih =>
    have hfirst := link.close_asks wire
    cases hclose : link.close wire with
    | error e after =>
      rw [hclose] at hfirst
      refine .inr ⟨[], link, rest, wire, e, after, rfl, ?_, hfirst, rfl, hclose⟩
      simp only [closeNodes, bind, EStateM.bind, hclose]
    | ok shut next =>
      rw [hclose] at hfirst
      have hcons (more : List Link) : closeNodes (link :: more) wire = closeNodes more next := by
        simp only [closeNodes, bind, EStateM.bind, hclose]
      obtain ⟨after, hrest, hasks⟩ |
        ⟨before, last, left, middle, e, after, rfl, hrest, hasks, hbefore, hlast⟩ := ih next
      · exact .inl ⟨after, (hcons rest).trans hrest, hfirst.append hasks⟩
      · exact .inr ⟨link :: before, last, left, middle, e, after, rfl, (hcons _).trans hrest,
          hfirst.append hasks, (hcons before).trans hbefore, hlast⟩

/-- A backend that was closed is closed, whether or not its links would close. -/
theorem closedIs_close (client : Client) : (finalState (close client)).backend.ClosedIs true := by
  obtain ⟨backend, wire, window⟩ := client
  cases backend with
  | single link closed =>
    cases closed with
    | true => rfl
    | false =>
      simp only [close]
      cases link.close wire <;> rfl
  | pooled pool => exact pool.closed_shut
  | sharded shards =>
    intro pool hmem
    have hmem' : pool ∈ (shards.map Pool.shut).toList := hmem
    rw [Vector.toList_map] at hmem'
    obtain ⟨shard, -, rfl⟩ := List.mem_map.1 hmem'
    exact shard.closed_shut
  | cluster nodes closed =>
    cases closed with
    | true => rfl
    | false =>
      simp only [close]
      cases closeNodes nodes.toList wire <;> rfl

/-- Closing what is closed does nothing. -/
theorem close_of_closed {client : Client} (h : client.backend.ClosedIs true) :
    close client = .ok () client := by
  obtain ⟨backend, wire, window⟩ := client
  cases backend with
  | single link closed | cluster nodes closed =>
    obtain rfl : closed = true := h
    rfl
  | pooled pool =>
    have hclosed : pool.closed = true := h
    simp only [close, Pool.doomed_of_closed hclosed, Pool.shut_of_closed hclosed, Link.abandonAll,
      List.foldl_nil]
  | sharded shards =>
    have hclosed : ∀ pool ∈ shards.toList, pool.closed = true := h
    have hshards : shards.map Pool.shut = shards := by
      ext slot hslot : 1
      rw [Vector.getElem_map]
      exact Pool.shut_of_closed (hclosed _ (Vector.mem_toList_iff.2 (Vector.getElem_mem hslot)))
    have hdoomed : shards.toList.flatMap Pool.doomed = [] := by
      rw [List.flatMap_eq_nil_iff]
      exact fun pool hmem => Pool.doomed_of_closed (hclosed pool hmem)
    simp only [close, hshards, hdoomed, Link.abandonAll, List.foldl_nil]

/-- Closing a backend for the first time asks its waiting links to close, in turn, each once, and nothing
else happens on the wire. All are asked if it succeeds. If it fails, it failed to close a link, the one
that was asked last: none behind it was asked, and unless the backend is a cluster there is none. However
often it is closed again, that succeeds, and no link is asked. -/
theorem close_asks_waiting {client : Client} (hopen : client.backend.ClosedIs false) :
    let result := close client
    let after := finalState result
    (match outcome result with
      | .ok () => client.wire.AsksToClose client.backend.waiting after.wire
      | .error e => ∃ before last left, client.backend.waiting = before ++ last :: left ∧
          client.wire.AsksToClose (before ++ [last]) after.wire ∧
          (∃ middle, closeNodes before client.wire = .ok () middle ∧
            last.close middle = .error e after.wire) ∧
          (client.backend.kind ≠ .cluster → left = [])) ∧
      ∀ again, let later := (fun client => finalState (close client))^[again] after
        later.wire.record = after.wire.record ∧ outcome (close later) = .ok () := by
  intro result after
  refine ⟨?_, fun again => ?_⟩
  · obtain ⟨backend, wire, window⟩ := client
    cases backend with
    | single link closed =>
      obtain rfl : closed = false := hopen
      have hasks := link.close_asks wire
      simp only [after, result, close]
      cases hclose : link.close wire with
      | ok shut last =>
        rw [hclose] at hasks
        exact hasks
      | error e last =>
        rw [hclose] at hasks
        exact ⟨[], link, [], rfl, hasks, ⟨wire, rfl, hclose⟩, fun _ => rfl⟩
    | pooled pool =>
      have hdoomed : pool.doomed = pool.idle := Pool.doomed_of_open hopen
      simp only [after, result, close, hdoomed]
      exact Link.abandonAll_asks pool.idle wire
    | sharded shards =>
      have hdoomed : shards.toList.flatMap Pool.doomed = shards.toList.flatMap Pool.idle :=
        List.flatMap_congr fun pool hmem => Pool.doomed_of_open (hopen pool hmem)
      simp only [after, result, close, hdoomed]
      exact Link.abandonAll_asks (shards.toList.flatMap Pool.idle) wire
    | cluster nodes closed =>
      obtain rfl : closed = false := hopen
      simp only [after, result, close]
      obtain ⟨last, hclose, hasks⟩ |
        ⟨before, stuck, left, middle, e, last, hsplit, hclose, hasks, hbefore, hstuck⟩ :=
        closeNodes_asks nodes.toList wire
      · rw [hclose]
        exact hasks
      · rw [hclose]
        exact ⟨before, stuck, left, hsplit, hasks, ⟨middle, hbefore, hstuck⟩,
          fun hkind => absurd rfl hkind⟩
  · have hclosed : close after = .ok () after := close_of_closed client.closedIs_close
    have hfixed : finalState (close after) = after := by
      rw [hclosed]
      rfl
    rw [Function.iterate_fixed hfixed]
    exact ⟨rfl, congrArg outcome hclosed⟩

/-- Two shards, the first with two links that wait. The first of these fails to close, and the other
links are asked to close all the same; closing twice more asks none. -/
theorem close_asks_waiting_sharded :
    let pool : Pool := ⟨⟨2, 10⟩, 0, [⟨0, 0, true⟩, ⟨1, 0, true⟩], 2, false⟩
    let other : Pool := ⟨⟨2, 10⟩, 1, [⟨2, 1, true⟩], 1, false⟩
    let client : Client :=
      ⟨.sharded #v[pool, other], Wire.new.arm ⟨.close, .lost, 1⟩, none⟩
    let after := finalState (close client)
    outcome (close client) = .ok () ∧
      after.wire.record =
        [.close ⟨2, 1, true⟩, .close ⟨1, 0, true⟩, .close ⟨0, 0, true⟩] ∧
      ((fun client => finalState (close client))^[2] after).wire.record = after.wire.record := by
  intro pool other client after
  have hopen : client.backend.ClosedIs false := by
    intro shard hmem
    have hshards : shard = pool ∨ shard = other := by
      simpa [pool, other] using hmem
    rcases hshards with rfl | rfl <;> rfl
  obtain ⟨hasks, hagain⟩ := close_asks_waiting hopen
  exact ⟨rfl, hasks.record, (hagain 2).1⟩

/-- The first of two nodes fails to close. The cluster is closed, and the other node was never asked,
nor is it when the cluster is closed again. -/
theorem close_skips_nodes :
    let nodes : Vector Link 2 := #v[⟨0, 0, true⟩, ⟨1, 1, true⟩]
    let client : Client := ⟨.cluster nodes false, Wire.new.arm ⟨.close, .lost, 1⟩, none⟩
    let after := finalState (close client)
    outcome (close client) = .error Fault.broken ∧ after.wire.record = [.close ⟨0, 0, true⟩] ∧
      outcome (close after) = .ok () ∧ (finalState (close after)).wire.record = after.wire.record :=
  ⟨rfl, rfl, rfl, rfl⟩

end Client

end BlockDir
