import Mise.Server.Allowlist

set_option autoImplicit true

namespace Mise

open Js

namespace Server

section Values

end Values

namespace Instance

variable {S : Instance} {H : HistoryRules} {now : Int}

/-- Every record that may be published has an id. -/
def Identified (S : Instance) : Prop := ∀ r ∈ S.seedNodes ++ S.approvedSubs, r.id.isSome

theorem published_ids (S : Instance) : S.published.map PublicNode.id = S.byId.keys := by
  have hown : ∀ x ∈ S.byId.entries, x.2.id = x.1 := fun x hx => (S.byId_entry (Map.get_eq_some.2 hx)).1
  unfold published
  rw [List.map_map, List.map_map, Map.values, List.map_map, Map.keys]
  exact List.map_congr_left hown

theorem prior_unique {p : PublicNode} (hp : p ∈ S.nodes) (hu : ∀ q ∈ S.nodes, q.id = p.id → q = p) :
    S.prior p.id = some p := by
  rw [prior, Map.get_setAll, Map.get_empty, Option.or_none, Option.map_id']
  cases hf : S.nodes.reverse.find? (fun q => q.id = p.id) with
  | none => exact absurd (List.find?_eq_none.1 hf p (List.mem_reverse.2 hp)) (by simp)
  | some q =>
    have hq := List.mem_reverse.1 (List.mem_of_find?_eq_some hf)
    have hid : q.id = p.id := by simpa using List.find?_some hf
    rw [hu q hq hid]

section Buckets

variable {rows : PendingNode → List ρ} {m : Table (Bucket ρ)}

theorem truthy_set {t : Table β} {k k' : String} {v : β} (h : (t.find [] k).truthy = true) :
    ((t.set k' v).find [] k).truthy = true := by
  unfold Table.find at h ⊢
  rw [Table.get_set]
  by_cases hk : k = k'
  · rw [if_pos hk]
    rfl
  · rw [if_neg hk]
    exact h

theorem mem_approvedIds {n : PublicNode} (h : n ∈ S.published) : some n.key ∈ S.byId.keys ∨ n.id = none := by
  cases hid : n.id with
  | none => exact .inr rfl
  | some k =>
    have hk : n.id ∈ S.published.map PublicNode.id := List.mem_map_of_mem h
    rw [published_ids] at hk
    rw [PublicNode.key, hid]
    exact .inl (hid ▸ hk)

theorem Identified.key (hS : S.Identified) {n : PublicNode} (h : n ∈ S.published) :
    some n.key ∈ S.byId.keys := by
  obtain hk | hid := mem_approvedIds h
  · exact hk
  · obtain ⟨r, hr⟩ := mem_published h
    have hsome := hS r hr.mem
    rw [← hr.id, hid] at hsome
    cases hsome

end Buckets

end Instance

/-- A node that was listed before. -/
def priorNode : PublicNode where
  id := some "mainnet-dojo"
  status := some (.str "active")
  blockHeight := some (.num "840001")

/-- Two listings are approved, of which one was listed before and the other probed while it was pending;
a third one is pending, and a fourth is listed no more. -/
def listedInstance : Instance where
  store := {
    submissions := [("approved", "mainnet-dojo", []), ("approved", "mainnet-oak", []),
      ("pending", "mainnet-elm", [])].map fun x => sampleSubmission x.1 x.2.1 x.2.2 }
  pending := { entries := [("mainnet-oak", {
    checks := [⟨3, true, []⟩]
    live := { status := some (.str "active"), blockHeight := some (.num "840000") } })] }
  nodes := [priorNode, { id := some "mainnet-ash", status := some (.str "inactive") }]
  files := {
    hist := { entries := [("mainnet-dojo", ⟨[⟨1, true, []⟩, ⟨2, false, []⟩], .absent⟩),
      ("mainnet-ash", ⟨[⟨1, true, []⟩], .absent⟩)] }
    daily := { entries := [("mainnet-dojo", ⟨[{ d := 0, up := 1, total := 2 }], .absent⟩),
      ("mainnet-ash", ⟨[{ d := 0, up := 1, total := 1 }], .at 0⟩)] } }

theorem listed_approvedSubs : listedInstance.approvedSubs =
    [(sampleSubmission "approved" "mainnet-dojo" []).2,
      (sampleSubmission "approved" "mainnet-oak" []).2] := by
  rw [sample_approvedSubs _ rfl]
  rfl

theorem listed_keys : listedInstance.byId.keys = [some "mainnet-dojo", some "mainnet-oak"] := by
  have hseeds : listedInstance.seedNodes = [] := rfl
  rw [Instance.byId, Instance.approved, listed_approvedSubs, hseeds]
  rfl

end Server

end Mise
