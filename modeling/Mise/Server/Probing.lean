import Mise.Async.Workers
import Mise.Server.UpdateCycle

set_option autoImplicit true

namespace Mise.Server

open Js

namespace Updated

variable (H : HistoryRules) (T : CycleText) (limit : Nat)

/-- What the cycle writes of the nodes, whose results it has by their places. -/
def recordNodes (now : Int) (results : List ProbeResult) (u : Updated) : Updated :=
  { u with
    nodes := (u.nodes.zip results).map fun (n, r) => n.probed T now r
    files := u.files.update H ((u.nodes.zip results).map fun (n, r) =>
      (n.key, { up := r.up, height := r.height })) now
    generatedAt := .at (isoSec now)
    probeFault := none }

def recordPending (now : Int) (subs : List RawRecord) (results : List ProbeResult) (u : Updated) : Updated :=
  { u with
    pending := (subs.zip results).foldl (fun t (s, r) =>
      let key := s.id.getD "undefined"
      t.set key (.probed T H.window now r (u.pending.get key))) {} }

/-- How far a cycle has come: what it has left of the instance, and whether it waits for a probe. -/
structure Progress where
  left : Updated
  waits : Bool

/-- `main`, once the list is reconciled, while the probes answer in this order. What `fn` and `pending`
throw is why `pool` rejects; the second rejection is caught. -/
def recordProbed (now : Int) (fn : PublicNode → Except String ProbeResult)
    (pending : RawRecord → Except String ProbeResult) (order pendingOrder : List Nat) (u : Updated) :
    Progress :=
  match (Workers.run (u.nodes.map fn) limit order).outcome with
  | none => ⟨u, true⟩
  | some (.error _) => ⟨u, false⟩
  | some (.ok out) =>
    match out.mapM id with
    | none => ⟨u, false⟩
    | some results =>
      if !u.nodes.isEmpty && results.all fun r => !r.up then
        ⟨{ u with probeFault := some (isoSec now, u.nodes.length) }, false⟩
      else
        let recorded := u.recordNodes H T now results
        if u.pendingSubs.isEmpty then ⟨recorded, false⟩
        else
          -- `dojos.json` and both histories are written by now
          match (Workers.run (u.pendingSubs.map pending) limit pendingOrder).outcome with
          | none => ⟨recorded, true⟩
          | some (.error _) => ⟨recorded, false⟩
          | some (.ok out) =>
            match out.mapM id with
            | none => ⟨recorded, false⟩
            | some results => ⟨recorded.recordPending H T now u.pendingSubs results, false⟩

/-- The cycle in which the probes find what the cycle `c` says, in this order. -/
def runCycle (c : Cycle) (order pendingOrder : List Nat) (u : Updated) : Progress :=
  (u.reconcile H c.rebuilt).recordProbed H T limit c.now (fun n => .ok (c.probe n))
    (fun s => .ok (c.pendingProbe (s.id.getD "undefined"))) order pendingOrder

section Order

variable {H : HistoryRules} {T : CycleText} {limit : Nat} {c : Cycle} {order pendingOrder : List Nat} {u : Updated}

theorem zip_map_self (l : List α) (f : α → β) : l.zip (l.map f) = l.map fun a => (a, f a) := by
  induction l with
  | nil => rfl
  | cons a l ih =>
    rw [List.map_cons, List.zip_cons_cons, ih]
    rfl

theorem mapM_some (l : List α) : (l.map some).mapM id = some l := by
  induction l with
  | nil => rfl
  | cons a l ih =>
    rw [List.map_cons, List.mapM_cons, ih]
    rfl

/-- Once all that it probes has answered, `pool` has what each item has come to. -/
theorem pool_ok {items : List α} {f : α → β} (hlimit : 0 < limit)
    (h : Workers.Legal (items.map fun a => (.ok (f a) : Except ε β)) limit order) :
    ((Workers.run (items.map fun a => (.ok (f a) : Except ε β)) limit order).outcome = none ∧
      order.length < items.length) ∨
    ((Workers.run (items.map fun a => (.ok (f a) : Except ε β)) limit order).outcome =
      some (.ok ((items.map f).map some)) ∧ order.length = items.length) := by
  obtain ⟨-, -, -, ⟨hnone, w, hmore⟩ | ⟨values, hvalues, hlen, hout⟩ | ⟨e, he, -⟩⟩ :=
    Workers.pool_settles _ hlimit h
  · obtain ⟨-, hle, -, -⟩ := Workers.pool_settles _ hlimit hmore
    rw [List.length_append, List.length_singleton, List.length_map] at hle
    exact .inl ⟨hnone, hle⟩
  · rw [List.length_map] at hlen
    have hf : values = items.map f := by
      have hmap : (items.map f).map (.ok : β → Except ε β) = values.map .ok := by
        rw [List.map_map, ← hvalues]
        rfl
      exact (List.map_injective_iff.2 (fun a b hab => Except.ok.inj hab) hmap).symm
    rw [hf] at hout
    exact .inr ⟨hout, hlen⟩
  · obtain ⟨a, -, ha⟩ := List.mem_map.1 he
    cases ha

theorem recordNodes_probes (u : Updated) : u.recordNodes H T c.now (u.nodes.map c.probe) =
    { u with
      nodes := u.nodes.map fun n => n.probed T c.now (c.probe n)
      files := u.files.update H (u.nodes.map fun n =>
        (n.key, { up := (c.probe n).up, height := (c.probe n).height })) c.now
      generatedAt := .at (isoSec c.now)
      probeFault := none } := by
  rw [recordNodes, zip_map_self, List.map_map, List.map_map]
  rfl

/-- The cycle records the nodes once all of them have answered, and the pending submissions once these
have too. -/
theorem recordProbed_eq (hlimit : 0 < limit)
    (h : Workers.Legal (u.nodes.map fun n => (.ok (c.probe n) : Except String ProbeResult)) limit order)
    (hp : Workers.Legal (u.pendingSubs.map fun s =>
      (.ok (c.pendingProbe (s.id.getD "undefined")) : Except String ProbeResult)) limit pendingOrder) :
    u.recordProbed H T limit c.now (fun n => .ok (c.probe n))
      (fun s => .ok (c.pendingProbe (s.id.getD "undefined"))) order pendingOrder =
    if order.length < u.nodes.length then ⟨u, true⟩
    else if u.allFailed c = false ∧ pendingOrder.length < u.pendingSubs.length then
      ⟨{ u.record H T c with pending := u.pending }, true⟩
    else ⟨u.record H T c, false⟩ := by
  rw [recordProbed]
  rcases pool_ok hlimit h with ⟨hnone, hlt⟩ | ⟨hsome, hlen⟩
  · rw [hnone, if_pos hlt]
  · have hall : ((u.nodes.map c.probe).all fun r => !r.up) = u.nodes.all fun n => !(c.probe n).up := by
      rw [List.all_map]
      rfl
    rw [hsome, if_neg (Nat.not_lt.2 (Nat.le_of_eq hlen.symm))]
    dsimp only
    rw [mapM_some]
    dsimp only
    rw [hall, ← allFailed, record]
    cases hfailed : u.allFailed c with
    | true => rw [if_pos rfl, if_pos rfl, if_neg fun h => Bool.false_ne_true h.1.symm]
    | false =>
      rw [if_neg Bool.false_ne_true, if_neg Bool.false_ne_true, recordNodes_probes]
      cases hempty : u.pendingSubs.isEmpty with
      | true =>
        rw [if_pos rfl, if_pos rfl, if_neg]
        rintro ⟨-, hlt⟩
        rw [List.isEmpty_iff.1 hempty] at hlt
        exact Nat.not_lt_zero _ hlt
      | false =>
        rw [if_neg Bool.false_ne_true, if_neg Bool.false_ne_true]
        rcases pool_ok hlimit hp with ⟨hnone, hlt⟩ | ⟨hsome, hplen⟩
        · rw [hnone, if_pos ⟨rfl, hlt⟩]
        · rw [hsome, if_neg fun h => absurd hplen (Nat.ne_of_lt h.2)]
          dsimp only
          rw [mapM_some]
          dsimp only
          rw [recordPending, zip_map_self, List.foldl_map]

/-- In whatever order the probes of a cycle answer, no node is probed twice at a time, as many probes are
under way as the limit lets or as nodes are left, and the cycle writes in two steps: nothing beyond the
reconciled list before all nodes have answered, then what each of them has said, and what is pending
once its probes have answered too. -/
theorem cycle_any_order (H : HistoryRules) (T : CycleText) (u : Updated) (c : Cycle) (limit : Nat)
    (order pendingOrder : List Nat) (hlimit : 0 < limit)
    (h : Workers.Legal ((u.probes H c).map fun n => (.ok (c.probe n) : Except String ProbeResult)) limit order)
    (hp : Workers.Legal ((u.reconcile H c.rebuilt).pendingSubs.map fun s =>
      (.ok (c.pendingProbe (s.id.getD "undefined")) : Except String ProbeResult)) limit pendingOrder) :
    (Workers.run ((u.probes H c).map fun n => (.ok (c.probe n) : Except String ProbeResult)) limit
        order).inFlight.Nodup ∧
    (Workers.run ((u.probes H c).map fun n => (.ok (c.probe n) : Except String ProbeResult)) limit
        order).inFlight.length = min limit ((u.probes H c).length - order.length) ∧
    u.runCycle H T limit c order pendingOrder =
      if order.length < (u.probes H c).length then ⟨u.reconcile H c.rebuilt, true⟩
      else if (u.reconcile H c.rebuilt).allFailed c = false ∧
          pendingOrder.length < (u.reconcile H c.rebuilt).pendingSubs.length then
        ⟨{ u.cycle H T c with pending := u.pending }, true⟩
      else ⟨u.cycle H T c, false⟩ := by
  obtain ⟨honce, -, hbusy, -⟩ := Workers.pool_settles _ hlimit h
  refine ⟨honce, ?_, recordProbed_eq hlimit h hp⟩
  cases hfailed : (Workers.run ((u.probes H c).map fun n => (.ok (c.probe n) : Except String ProbeResult))
      limit order).failed with
  | none =>
    have hlen := hbusy hfailed
    rw [List.length_map] at hlen
    exact hlen
  | some e =>
    obtain ⟨n, -, hn⟩ := List.mem_map.1 ((Workers.run_sound _ limit order).rejected e hfailed)
    cases hn

/-- Two nodes that answer in the other order, and a pending submission after them. -/
theorem cycle_any_order_sample :
    listedUpdated.runCycle ⟨86400000, 144, 90⟩ sampleText 3 (uniformCycle 0 1000 true) [1] [] =
        ⟨listedUpdated.reconcile ⟨86400000, 144, 90⟩ 0, true⟩ ∧
      listedUpdated.runCycle ⟨86400000, 144, 90⟩ sampleText 3 (uniformCycle 0 1000 true) [1, 0] [] =
        ⟨{ listedUpdated.cycle ⟨86400000, 144, 90⟩ sampleText (uniformCycle 0 1000 true) with
          pending := listedUpdated.pending }, true⟩ ∧
      listedUpdated.runCycle ⟨86400000, 144, 90⟩ sampleText 3 (uniformCycle 0 1000 true) [1, 0] [0] =
        ⟨listedUpdated.cycle ⟨86400000, 144, 90⟩ sampleText (uniformCycle 0 1000 true), false⟩ := by
  have htwo : (listedUpdated.probes ⟨86400000, 144, 90⟩ (uniformCycle 0 1000 true)).length = 2 := by
    have hids := congrArg List.length
      ((probes_ids ⟨86400000, 144, 90⟩ listedUpdated (uniformCycle 0 1000 true)).trans listed_keys)
    rw [List.length_map] at hids
    exact hids
  have hone : (listedUpdated.reconcile ⟨86400000, 144, 90⟩ 0).pendingSubs.length = 1 := rfl
  have hreached : (listedUpdated.reconcile ⟨86400000, 144, 90⟩ 0).allFailed (uniformCycle 0 1000 true) =
      false := by
    rw [← Bool.not_eq_true]
    intro hfailed
    obtain ⟨hne, hno⟩ := allFailed_iff.1 hfailed
    exact hno ((reaches_uniform _ _ 0 1000).2 hne)
  have hsame {α : Type} (items : List α) (f : α → ProbeResult) (hf : ∀ a, f a = { up := true }) :
      (items.map fun a => (.ok (f a) : Except String ProbeResult)) =
        List.replicate items.length (.ok { up := true }) := by
    rw [List.eq_replicate_iff]
    refine ⟨List.length_map _, fun r hr => ?_⟩
    obtain ⟨a, -, rfl⟩ := List.mem_map.1 hr
    rw [hf]
  have hnodes := hsame (listedUpdated.probes ⟨86400000, 144, 90⟩ (uniformCycle 0 1000 true))
    (uniformCycle 0 1000 true).probe fun _ => rfl
  have hpending := hsame (listedUpdated.reconcile ⟨86400000, 144, 90⟩ 0).pendingSubs
    (fun s => (uniformCycle 0 1000 true).pendingProbe (s.id.getD "undefined")) fun _ => rfl
  rw [htwo] at hnodes
  rw [hone] at hpending
  have hfirst : Workers.Legal (List.replicate 2 (.ok { up := true } : Except String ProbeResult)) 3 [1] :=
    Workers.Legal.nil.concat (by decide)
  have hboth : Workers.Legal (List.replicate 2 (.ok { up := true } : Except String ProbeResult)) 3
    [1, 0] := hfirst.concat (by decide)
  have hlast : Workers.Legal (List.replicate 1 (.ok { up := true } : Except String ProbeResult)) 3 [0] :=
    Workers.Legal.nil.concat (by decide)
  rw [← hnodes] at hfirst hboth
  rw [← hpending] at hlast
  refine ⟨?_, ?_, ?_⟩
  · rw [(cycle_any_order _ sampleText listedUpdated _ 3 [1] [] (by decide) hfirst .nil).2.2, htwo]
    rfl
  · rw [(cycle_any_order _ sampleText listedUpdated _ 3 [1, 0] [] (by decide) hboth .nil).2.2, htwo,
      if_neg (by decide)]
    exact if_pos ⟨hreached, Nat.one_pos⟩
  · rw [(cycle_any_order _ sampleText listedUpdated _ 3 [1, 0] [0] (by decide) hboth hlast).2.2, htwo,
      if_neg (by decide)]
    apply if_neg
    rintro ⟨-, hlt⟩
    exact absurd hlt (by decide)

end Order

end Updated

end Mise.Server
