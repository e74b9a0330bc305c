import Mathlib.Data.List.TakeWhile
import Mise.Server.Import

set_option autoImplicit true

namespace Mise

namespace Js.Table

theorem put_new {l : List (String × β)} (h : k ∉ l.map Prod.fst) : put k v l = l ++ [(k, v)] := by
  induction l with
  | nil => rfl
  | cons x l ih =>
    rw [List.map_cons, List.mem_cons, not_or] at h
    rw [put, if_neg fun e => h.1 e.symm, ih h.2]
    rfl

theorem length_put (k : String) (v : β) (l : List (String × β)) :
    (put k v l).length = if k ∈ l.map Prod.fst then l.length else l.length + 1 := by
  have h := congrArg List.length (keys_put k v l)
  rw [List.length_map] at h
  rw [h]
  split <;> simp

theorem get_eq_none {t : Table β} : t.get k = none ↔ k ∉ t.entries.map Prod.fst := by
  refine ⟨fun h hk => ?_, lookup_none⟩
  obtain ⟨x, hx, rfl⟩ := List.mem_map.1 hk
  cases h.symm.trans (get_of_mem hx)

end Js.Table

namespace Server

open Js

section Store

variable {s : Store} {rec : StoreRecord} {id : String}

/-- The write of `putSubmission`, once the guards have let the record through. -/
def Store.keep (rec : StoreRecord) (s : Store) : Store :=
  putObject s.objects.length { s with objects := s.objects ++ [normaliseSubmission rec] }

theorem keep_eq (rec : StoreRecord) (s : Store) : s.keep rec =
    { s with
      objects := s.objects ++ [normaliseSubmission rec]
      submissions := s.submissions.set rec.id s.objects.length } := by
  have ho : ({ s with objects := s.objects ++ [normaliseSubmission rec] } : Store).object
      s.objects.length = some (normaliseSubmission rec) := by
    simp [Store.object]
  rw [Store.keep, Store.putObject, ho]
  rfl

theorem object_keep (h : s.object r = some x) : (s.keep rec).object r = some x := by
  have hr : r < s.objects.length := (List.getElem?_eq_some_iff.1 h).1
  rw [keep_eq, Store.object, List.getElem?_append_left hr]
  exact h

theorem keep_wellFormed (hs : s.WellFormed) : (s.keep rec).WellFormed where
  stored id r h := by
    rw [keep_eq, Table.get_set] at h
    split at h
    · next hid =>
      cases h
      refine ⟨normaliseSubmission rec, ?_, hid.symm⟩
      rw [keep_eq]
      simp [Store.object]
    · obtain ⟨x, hx, hid⟩ := hs.stored id r h
      exact ⟨x, object_keep hx, hid⟩
  normal r x h := by
    have hx : x ∈ s.objects ++ [normaliseSubmission rec] := by
      rw [keep_eq] at h
      exact List.mem_of_getElem? h
    obtain hx | hx := List.mem_append.1 hx
    · obtain ⟨q, hq⟩ := List.getElem?_of_mem hx
      exact hs.normal q x hq
    · rw [List.mem_singleton.1 hx]
      exact normal_normalise rec

theorem get_of_listed (hs : s.WellFormed) (h : x ∈ s.listed) :
    ∃ r, s.submissions.get x.id = some r ∧ s.object r = some x := by
  obtain ⟨r, hr, hx⟩ := List.mem_filterMap.1 h
  obtain ⟨⟨k, r'⟩, hk, rfl⟩ := List.mem_map.1 hr
  have hget := Table.get_of_mem hk
  obtain ⟨y, hy, rfl⟩ := hs.stored k r' hget
  cases hx.symm.trans hy
  exact ⟨r', hget, hx⟩

theorem listed_of_get (hs : s.WellFormed) (h : s.submissions.get id = some r) :
    ∃ x ∈ s.listed, x.id = id ∧ s.object r = some x := by
  obtain ⟨x, hx, hid⟩ := hs.stored id r h
  exact ⟨x, List.mem_filterMap.2 ⟨r, Table.mem_values h, hx⟩, hid, hx⟩

theorem get_none_iff (hs : s.WellFormed) :
    s.submissions.get id = none ↔ id ∉ s.listed.map StoreRecord.id := by
  constructor
  · intro h hid
    obtain ⟨x, hx, rfl⟩ := List.mem_map.1 hid
    obtain ⟨r, hr, -⟩ := get_of_listed hs hx
    cases h.symm.trans hr
  · intro h
    cases hr : s.submissions.get id with
    | none => rfl
    | some r =>
      obtain ⟨x, hx, hid, -⟩ := listed_of_get hs hr
      exact absurd (List.mem_map.2 ⟨x, hx, hid⟩) h

theorem listed_keep (hs : s.WellFormed) (h : s.submissions.get rec.id = none) :
    (s.keep rec).listed = s.listed ++ [normaliseSubmission rec] := by
  have hv : (s.keep rec).listSubmissions = s.listSubmissions ++ [s.objects.length] := by
    rw [keep_eq]
    simp only [Store.listSubmissions, Table.values, Table.set,
      Table.put_new (Table.get_eq_none.1 h), List.map_append, List.map_cons, List.map_nil]
  have ho : (s.keep rec).object s.objects.length = some (normaliseSubmission rec) := by
    rw [keep_eq]
    simp [Store.object]
  rw [Store.listed, hv, List.filterMap_append, List.filterMap_cons, ho]
  congr 1
  apply List.filterMap_congr
  intro r hr
  obtain ⟨⟨k, r'⟩, hk, rfl⟩ := List.mem_map.1 hr
  obtain ⟨x, hx, -⟩ := hs.stored k r' (Table.get_of_mem hk)
  rw [object_keep hx, hx]

theorem get_keep (rec : StoreRecord) (s : Store) (id : String) : (s.keep rec).submissions.get id =
    if id = rec.id then some s.objects.length else s.submissions.get id := by
  rw [keep_eq, Table.get_set]

theorem length_keep (rec : StoreRecord) (s : Store) : (s.keep rec).listSubmissions.length =
    if s.submissions.get rec.id = none then s.listSubmissions.length + 1
    else s.listSubmissions.length := by
  rw [keep_eq]
  simp only [Store.listSubmissions, Table.values, Table.set, List.length_map, Table.length_put,
    Table.get_eq_none, ite_not]

end Store

namespace ImportRecord

/-- Whether the store's guards let the record through. -/
def storable (r : ImportRecord) : Bool := (normaliseSubmission r.stored).guard matches .ok _

theorem storable_iff (r : ImportRecord) :
    r.storable = true ↔ (normaliseSubmission r.stored).guard = .ok () := by
  unfold storable
  cases (normaliseSubmission r.stored).guard with
  | error e => simp
  | ok u => simp

end ImportRecord

section Apply

variable {rs : List ImportRecord} {s : Store}

theorem assign_ok {r : ImportRecord} (h : r.storable = true) (s : Store) :
    s.assign r.stored = .ok (if s.loses r.id then s else s.keep r.stored) := by
  have hg := r.storable_iff.1 h
  unfold Store.assign
  by_cases hl : s.loses r.id
  · have hl' : s.loses r.stored.id := hl
    rw [if_pos hl', if_pos hl, hg]
    rfl
  · have hl' : ¬ s.loses r.stored.id := hl
    rw [if_neg hl', if_neg hl, Store.putSubmission, hg]
    rfl

theorem assign_error {r : ImportRecord} (h : r.storable = false) (s : Store) :
    ∃ e, s.assign r.stored = .error e := by
  unfold Store.assign Store.putSubmission
  cases hg : (normaliseSubmission r.stored).guard with
  | ok u =>
    rw [r.storable_iff.2 hg] at h
    cases h
  | error e =>
    refine ⟨e, ?_⟩
    split <;> rfl

theorem applyImports_eq (hs : ∀ r ∈ rs, r.id = "__proto__" → s.submissions.get r.id = none) :
    let written := (rs.takeWhile ImportRecord.storable).filter (·.id ≠ "__proto__")
    (applyImports rs s).1 = written ∧
      (applyImports rs s).2.1 = written.foldl (fun s r => s.keep r.stored) s ∧
      ((applyImports rs s).2.2 = none ↔ ∀ r ∈ rs, r.storable = true) := by
  induction rs generalizing s with
  | nil => exact ⟨rfl, rfl, by simp [applyImports]⟩
  | cons r rs ih =>
    cases hr : r.storable with
    | false =>
      obtain ⟨e, he⟩ := assign_error hr s
      simp [applyImports, he, hr]
    | true =>
      have hok := assign_ok hr s
      by_cases hp : r.id = "__proto__"
      · have hl : s.loses r.id := ⟨hp, hs r List.mem_cons_self hp⟩
        rw [if_pos hl] at hok
        obtain ⟨h₁, h₂, h₃⟩ := ih fun x hx => hs x (List.mem_cons_of_mem r hx)
        simp only [applyImports, hok, if_pos hl, h₁, h₂, h₃, List.takeWhile_cons, hr, if_true]
        simp [hp, hr]
      · have hl : ¬ s.loses r.id := fun h => hp h.1
        rw [if_neg hl] at hok
        have hs' : ∀ x ∈ rs, x.id = "__proto__" → (s.keep r.stored).submissions.get x.id = none := by
          intro x hx hxp
          have hne : x.id ≠ r.stored.id := fun e => hp (e.symm.trans hxp)
          rw [get_keep, if_neg hne]
          exact hs x (List.mem_cons_of_mem r hx) hxp
        obtain ⟨h₁, h₂, h₃⟩ := ih hs'
        simp only [applyImports, hok, if_neg hl, h₁, h₂, h₃, List.takeWhile_cons, hr, if_true]
        simp [hp, hr]

theorem get_keep_new {r : ImportRecord} (hr : r.id ∉ rs.map ImportRecord.id)
    (hg : ∀ x ∈ r :: rs, s.submissions.get x.id = none) :
    ∀ x ∈ rs, (s.keep r.stored).submissions.get x.id = none := by
  intro x hx
  have hne : x.id ≠ r.stored.id := by
    intro e
    have e : x.id = r.id := e
    exact hr (e ▸ List.mem_map_of_mem hx)
  rw [get_keep, if_neg hne]
  exact hg x (List.mem_cons_of_mem r hx)

/-- Records under new ids that differ from each other are listed after those that were here. -/
theorem keep_all (hs : s.WellFormed) (hn : (rs.map ImportRecord.id).Nodup)
    (hg : ∀ r ∈ rs, s.submissions.get r.id = none) :
    let s' := rs.foldl (fun s r => s.keep r.stored) s
    s'.WellFormed ∧ s'.listed = s.listed ++ rs.map fun r => normaliseSubmission r.stored := by
  induction rs generalizing s with
  | nil => exact ⟨hs, (List.append_nil _).symm⟩
  | cons r rs ih =>
    rw [List.map_cons, List.nodup_cons] at hn
    obtain ⟨hw, hl⟩ := ih (keep_wellFormed hs) hn.2 (get_keep_new hn.1 hg)
    refine ⟨hw, ?_⟩
    rw [List.foldl_cons, hl, listed_keep hs (hg r List.mem_cons_self), List.append_assoc]
    rfl

theorem length_keep_all (rs : List ImportRecord) (s : Store) :
    (rs.foldl (fun s r => s.keep r.stored) s).listSubmissions.length ≤
      s.listSubmissions.length + rs.length := by
  induction rs generalizing s with
  | nil => exact Nat.le_refl _
  | cons r rs ih =>
    have h := ih (s.keep r.stored)
    have hk := length_keep r.stored s
    rw [List.foldl_cons, List.length_cons]
    split at hk <;> omega

theorem length_keep_lt (hx : x ∈ rs) (hg : s.submissions.get x.id ≠ none) :
    (rs.foldl (fun s r => s.keep r.stored) s).listSubmissions.length <
      s.listSubmissions.length + rs.length := by
  induction rs generalizing s with
  | nil => cases hx
  | cons r rs ih =>
    have hlen := length_keep r.stored s
    rw [List.foldl_cons, List.length_cons]
    obtain rfl | hx := List.mem_cons.1 hx
    · have hg : s.submissions.get x.stored.id ≠ none := hg
      rw [if_neg hg] at hlen
      have hle := length_keep_all rs (s.keep x.stored)
      omega
    · have hg' : (s.keep r.stored).submissions.get x.id ≠ none := by
        rw [get_keep]
        split
        · exact Option.some_ne_none _
        · exact hg
      have hlt := ih hx hg'
      split at hlen <;> omega

/-- The store grows by as many records as it is given only if no two of them have one id. -/
theorem length_keep_eq (hg : ∀ r ∈ rs, s.submissions.get r.id = none) :
    (rs.foldl (fun s r => s.keep r.stored) s).listSubmissions.length =
      s.listSubmissions.length + rs.length ↔ (rs.map ImportRecord.id).Nodup := by
  induction rs generalizing s with
  | nil => simp
  | cons r rs ih =>
    have hr : s.submissions.get r.stored.id = none := hg r List.mem_cons_self
    have hlen := length_keep r.stored s
    rw [if_pos hr] at hlen
    rw [List.foldl_cons, List.length_cons, List.map_cons, List.nodup_cons]
    by_cases hm : r.id ∈ rs.map ImportRecord.id
    · refine ⟨fun h => ?_, fun h => absurd hm h.1⟩
      obtain ⟨x, hx, hid⟩ := List.mem_map.1 hm
      have htaken : (s.keep r.stored).submissions.get x.id ≠ none := by
        have hid : x.id = r.stored.id := hid
        rw [get_keep, if_pos hid]
        exact Option.some_ne_none _
      have hlt := length_keep_lt hx htaken
      omega
    · rw [← ih (get_keep_new hm hg), hlen]
      constructor
      · exact fun h => ⟨hm, by omega⟩
      · exact fun h => by omega

end Apply

section Plan

variable (I : Importer) (R : Remote) (trustedCode : String) (L : LocalState)

/-- The payment codes of a node that are texts. -/
def RemoteNode.texts (n : RemoteNode) (fetchCodes : Json → Option (List String)) : List String :=
  (n.codes fetchCodes).filterMap fun v => asText (some v)

namespace Importer

/-- The node is new to this instance, its block verifies over its payload, and it has a code. -/
def arrives (n : RemoteNode) : Bool :=
  !(asText n.id).any (· ∈ L.existingIds) &&
    (present ((pairingKey I.lower (.given n.payload)).bind (L.localByUrl I.lower).get)).isNone &&
    n.hasSignedBlock &&
    (I.verifySignedPayload ((asText n.signed).getD "") (some (canonicalPairing (.given n.payload)))
      none n.chain matches .ok _) &&
    !(n.codes I.fetchCodes).isEmpty

/-- The nodes of a document that passes the trust gate which can be listed here. -/
def arrivals : List RemoteNode :=
  match I.trustedNodes R trustedCode with
  | .ok nodes => nodes.filter (I.arrives L)
  | .error _ => []

/-- The record that an import makes of a node. -/
def recordOf (status : Status) (now : Int) (n : RemoteNode) : ImportRecord :=
  n.record (n.codes I.fetchCodes) R.onionHost status now

/-- One of the node's codes looks like a payment code. -/
def Coded (n : RemoteNode) : Prop := ∃ c ∈ n.texts I.fetchCodes, looksLikeCode (trim c) = true

end Importer

variable {I R trustedCode L} {n : RemoteNode} {rows : List (RemoteNode × PlanAction)}

theorem planAction_eq (I : Importer) (L : LocalState) (n : RemoteNode) :
    (I.arrives L n = true ∧ I.planAction L n = .take (n.codes I.fetchCodes)) ∨
      (I.arrives L n = false ∧ ∀ codes, I.planAction L n ≠ .take codes) := by
  unfold Importer.planAction Importer.arrives
  by_cases hid : (asText n.id).any (· ∈ L.existingIds) = true
  · rw [if_pos hid]
    exact .inr ⟨by simp [hid], nofun⟩
  · rw [if_neg hid]
    cases hdup : present ((pairingKey I.lower (.given n.payload)).bind (L.localByUrl I.lower).get) with
    | some dupOf => exact .inr ⟨by simp, nofun⟩
    | none =>
      cases hb : n.hasSignedBlock with
      | false => exact .inr ⟨by simp, nofun⟩
      | true =>
        cases hv : I.verifySignedPayload ((asText n.signed).getD "")
            (some (canonicalPairing (.given n.payload))) none n.chain with
        | error e => exact .inr ⟨by simp, nofun⟩
        | ok signer =>
          cases hc : (n.codes I.fetchCodes).isEmpty with
          | true => exact .inr ⟨by simp, by simp⟩
          | false => exact .inl ⟨by simp_all, by simp⟩

theorem imports_map (nodes : List RemoteNode) (status : Status) (now : Int) :
    Importer.imports R (nodes.map fun n => (n, I.planAction L n)) status now =
      (nodes.filter (I.arrives L)).map (I.recordOf R status now) := by
  induction nodes with
  | nil => rfl
  | cons n nodes ih =>
    rw [List.map_cons, Importer.imports, List.filterMap_cons, List.filter_cons, ← Importer.imports, ih]
    obtain ⟨ha, hp⟩ | ⟨ha, hp⟩ := planAction_eq I L n
    · rw [hp, ha]
      rfl
    · cases hq : I.planAction L n with
      | take codes => exact absurd hq (hp codes)
      | skip | merge dupOf | refuse why => simp [ha]

theorem plan_imports (h : I.plan R trustedCode L = .ok rows) (status : Status) (now : Int) :
    Importer.imports R rows status now =
      (I.arrivals R trustedCode L).map (I.recordOf R status now) := by
  unfold Importer.plan at h
  unfold Importer.arrivals
  cases hn : I.trustedNodes R trustedCode with
  | error e =>
    rw [hn] at h
    cases h
  | ok nodes =>
    rw [hn] at h
    cases h
    exact imports_map nodes status now

theorem arrivals_error (h : I.plan R trustedCode L = .error e) : I.arrivals R trustedCode L = [] := by
  unfold Importer.plan at h
  unfold Importer.arrivals
  cases hn : I.trustedNodes R trustedCode with
  | error e => rfl
  | ok nodes =>
    rw [hn] at h
    cases h

theorem planned_eq (rows : List (RemoteNode × PlanAction)) (imported : Nat) (status : Status)
    (now : Int) : (Importer.report rows imported status).planned =
      (Importer.imports R rows status now).length := by
  unfold Importer.report Importer.imports
  induction rows with
  | nil => rfl
  | cons x rows ih =>
    obtain ⟨n, a⟩ := x
    dsimp only at ih ⊢
    rw [List.countP_cons, List.filterMap_cons, ih]
    cases a <;> rfl

/-- What an applying import writes is what the loop makes of the nodes that arrive. -/
theorem bootstrapImport_apply (I : Importer) (R : Remote) (trustedCode : String) (L : LocalState)
    (status : Status) (now : Int) :
    let done := I.bootstrapImport R trustedCode L false status now
    let loop := applyImports ((I.arrivals R trustedCode L).map (I.recordOf R status now)) L.store
    done.written = loop.1 ∧ done.store = loop.2.1 := by
  unfold Importer.bootstrapImport
  cases hp : I.plan R trustedCode L with
  | error e =>
    rw [arrivals_error hp]
    exact ⟨rfl, rfl⟩
  | ok rows =>
    dsimp only
    rw [if_neg Bool.false_ne_true, plan_imports hp]
    rcases applyImports ((I.arrivals R trustedCode L).map (I.recordOf R status now)) L.store with
      ⟨written, store, _ | e⟩
    · exact ⟨rfl, rfl⟩
    · exact ⟨rfl, rfl⟩

theorem arrivals_ok {nodes : List RemoteNode} (h : I.trustedNodes R trustedCode = .ok nodes) :
    I.arrivals R trustedCode L = nodes.filter (I.arrives L) := by
  rw [Importer.arrivals, h]

theorem plan_ok {nodes : List RemoteNode} (h : I.trustedNodes R trustedCode = .ok nodes) :
    I.plan R trustedCode L = .ok (nodes.map fun n => (n, I.planAction L n)) := by
  rw [Importer.plan, h]
  rfl

theorem arrives_of_mem (h : n ∈ I.arrivals R trustedCode L) : I.arrives L n = true := by
  unfold Importer.arrivals at h
  split at h
  · exact (List.mem_filter.1 h).2
  · cases h

theorem trustedNodes_logged {nodes : List RemoteNode} (h : I.trustedNodes R trustedCode = .ok nodes)
    (hn : n ∈ nodes) : n.logged = .ok () := by
  have hlog : nodes.any RemoteNode.breaksLog = false := by
    unfold Importer.trustedNodes at h
    cases hg : I.trustGate R trustedCode with
    | error e =>
      rw [hg] at h
      cases h
    | ok u =>
      cases hd : R.dojos with
      | none =>
        rw [hg, hd] at h
        cases h
      | some dojos =>
        cases hl : Importer.listedNodes dojos with
        | error e =>
          rw [hg, hd] at h
          dsimp only [bind, Except.bind] at h
          rw [hl] at h
          cases h
        | ok ns =>
          rw [hg, hd] at h
          dsimp only [bind, Except.bind] at h
          rw [hl] at h
          dsimp only [Except.mapError] at h
          cases hany : ns.any RemoteNode.breaksLog with
          | true =>
            rw [hany] at h
            cases h
          | false =>
            rw [hany] at h
            cases h
            exact hany
  have hnot := List.any_eq_false.1 hlog n hn
  unfold RemoteNode.breaksLog at hnot
  cases hr : n.logged with
  | ok u => rfl
  | error e =>
    rw [hr] at hnot
    exact absurd rfl hnot

theorem arrivals_id (h : n ∈ I.arrivals R trustedCode L) : ∃ id, asText n.id = some id := by
  unfold Importer.arrivals at h
  split at h
  · next nodes hn =>
    have hlog := trustedNodes_logged hn (List.mem_filter.1 h).1
    unfold RemoteNode.logged at hlog
    cases hid : asText n.id with
    | some id => exact ⟨id, rfl⟩
    | none =>
      rw [hid] at hlog
      cases hlog
  · cases h

theorem arrivals_new (h : n ∈ I.arrivals R trustedCode L) (status : Status) (now : Int) :
    (I.recordOf R status now n).id ∉ L.existingIds := by
  obtain ⟨id, hid⟩ := arrivals_id h
  have ha := arrives_of_mem h
  simp only [Importer.arrives, Bool.and_eq_true, Bool.not_eq_true', hid] at ha
  have hid' : (I.recordOf R status now n).id = id := by
    simp [Importer.recordOf, RemoteNode.record, hid]
  rw [hid']
  simpa using ha.1.1.1.1

theorem asText_orNothing (v : Option Json) :
    (asText (orNothing v)).getD "" = (asText v).getD "" := by
  rcases v with _ | (_ | b | t | s | vs | fields)
  · rfl
  · rfl
  · cases b <;> rfl
  · by_cases ht : t = "0" <;> simp [orNothing, Json.truthy, asText, Option.filter, ht]
  · by_cases hs : s = "" <;> simp [orNothing, Json.truthy, asText, Option.filter, hs]
  · rfl
  · rfl

theorem hasSignedBlock_of (h : I.arrives L n = true) (status : Status) (now : Int) :
    hasSignedBlock (normaliseSubmission (I.recordOf R status now n).stored) = true := by
  simp only [Importer.arrives, Bool.and_eq_true] at h
  have hb : n.hasSignedBlock = true := h.1.1.2
  unfold RemoteNode.hasSignedBlock at hb
  unfold hasSignedBlock at hb ⊢
  rw [← asText_orNothing] at hb
  exact hb

theorem mem_codes_recordOf {c : String} (status : Status) (now : Int) :
    c ∈ (normaliseSubmission (I.recordOf R status now n).stored).codes ↔
      c ∈ n.texts I.fetchCodes ∧ c ≠ "" := by
  simp [normaliseSubmission, StoreRecord.codes, StoreRecord.allCodes, ImportRecord.stored,
    Importer.recordOf, RemoteNode.record, RemoteNode.texts]

/-- The store takes a node that arrives exactly if one of its codes looks like a payment code. -/
theorem storable_recordOf (h : I.arrives L n = true) (status : Status) (now : Int) :
    (I.recordOf R status now n).storable = true ↔ I.Coded n := by
  have hcodes : ((normaliseSubmission (I.recordOf R status now n).stored).codes.any fun c =>
      looksLikeCode (trim c)) = true ↔ I.Coded n := by
    rw [List.any_eq_true]
    constructor
    · rintro ⟨c, hc, hl⟩
      exact ⟨c, ((mem_codes_recordOf status now).1 hc).1, hl⟩
    · rintro ⟨c, hc, hl⟩
      refine ⟨c, (mem_codes_recordOf status now).2 ⟨hc, ?_⟩, hl⟩
      rintro rfl
      exact absurd hl (by decide)
  rw [ImportRecord.storable_iff, StoreRecord.guard, hasSignedBlock_of h, ← hcodes]
  cases (normaliseSubmission (I.recordOf R status now n).stored).codes.any fun c =>
      looksLikeCode (trim c) with
  | false => simp
  | true => simp

/-- The plan of these rows is what the apply does with them. The apply ends here with its records; the
domain claims and the histories that it takes over after them are left out. -/
structure Importer.Kept (I : Importer) (R : Remote) (trustedCode : String) (L : LocalState)
    (status : Status) (now : Int) (rows : List (RemoteNode × PlanAction)) : Prop where
  accepted : ∀ x ∈ rows, ∀ codes, x.2 = .take codes → ∀ s : Store,
    ∃ s', s.putSubmission (x.1.record codes R.onionHost status now).stored = .ok s'
  completes : ∃ report, (I.bootstrapImport R trustedCode L false status now).result = .ok report
  counted : ∀ report, (I.bootstrapImport R trustedCode L true status now).result = .ok report →
    (I.bootstrapImport R trustedCode L false status now).store.listSubmissions.length =
      L.store.listSubmissions.length + report.planned
  whole : (I.bootstrapImport R trustedCode L false status now).written = [] ∨
    (I.bootstrapImport R trustedCode L false status now).written =
      Importer.imports R rows status now

theorem existing_none (h : n ∈ I.arrivals R trustedCode L) (status : Status) (now : Int) :
    L.store.submissions.get (I.recordOf R status now n).id = none :=
  (get_none_iff L.wellFormed).2 (arrivals_new h status now)

theorem applyImports_arrivals (I : Importer) (R : Remote) (trustedCode : String) (L : LocalState)
    (status : Status) (now : Int) :
    let records := (I.arrivals R trustedCode L).map (I.recordOf R status now)
    let written := (records.takeWhile ImportRecord.storable).filter (·.id ≠ "__proto__")
    let done := I.bootstrapImport R trustedCode L false status now
    done.written = written ∧ done.store = written.foldl (fun s r => s.keep r.stored) L.store ∧
      ((applyImports records L.store).2.2 = none ↔ ∀ r ∈ records, r.storable = true) := by
  have hnew : ∀ r ∈ (I.arrivals R trustedCode L).map (I.recordOf R status now),
      r.id = "__proto__" → L.store.submissions.get r.id = none := by
    intro r hr _
    obtain ⟨n, hn, rfl⟩ := List.mem_map.1 hr
    exact existing_none hn status now
  obtain ⟨h₁, h₂, h₃⟩ := applyImports_eq hnew
  obtain ⟨hw, hs⟩ := bootstrapImport_apply I R trustedCode L status now
  exact ⟨hw.trans h₁, hs.trans h₂, h₃⟩

theorem storable_of_put {r : ImportRecord} {s s' : Store} (h : s.putSubmission r.stored = .ok s') :
    r.storable = true := by
  rw [ImportRecord.storable_iff]
  unfold Store.putSubmission at h
  cases hg : (normaliseSubmission r.stored).guard with
  | ok u => rfl
  | error e =>
    rw [hg] at h
    cases h

theorem dryRun_result (h : I.plan R trustedCode L = .ok rows) :
    (I.bootstrapImport R trustedCode L true status now).result =
      .ok (Importer.report rows 0 status) := by
  unfold Importer.bootstrapImport
  rw [h]
  rfl

theorem apply_result (h : I.plan R trustedCode L = .ok rows)
    (hf : (applyImports ((I.arrivals R trustedCode L).map (I.recordOf R status now)) L.store).2.2 =
      none) : ∃ report, (I.bootstrapImport R trustedCode L false status now).result = .ok report := by
  unfold Importer.bootstrapImport
  rw [h]
  dsimp only
  rw [if_neg Bool.false_ne_true, plan_imports h]
  revert hf
  rcases applyImports ((I.arrivals R trustedCode L).map (I.recordOf R status now)) L.store with
    ⟨written, store, _ | e⟩
  · exact fun _ => ⟨_, rfl⟩
  · exact fun hf => absurd hf (Option.some_ne_none e)

theorem mem_rows (h : I.plan R trustedCode L = .ok rows) (hn : n ∈ I.arrivals R trustedCode L) :
    (n, .take (n.codes I.fetchCodes)) ∈ rows := by
  unfold Importer.plan at h
  unfold Importer.arrivals at hn
  cases ht : I.trustedNodes R trustedCode with
  | error e =>
    rw [ht] at h
    cases h
  | ok nodes =>
    rw [ht] at h hn
    cases h
    obtain ⟨hmem, ha⟩ := List.mem_filter.1 hn
    obtain ⟨-, hp⟩ | ⟨hf, -⟩ := planAction_eq I L n
    · exact List.mem_map.2 ⟨n, hmem, by rw [hp]⟩
    · cases ha.symm.trans hf

theorem recordOf_id (h : n ∈ I.arrivals R trustedCode L) (status : Status) (now : Int) :
    asText n.id = some (I.recordOf R status now n).id := by
  obtain ⟨id, hid⟩ := arrivals_id h
  rw [hid, Importer.recordOf, RemoteNode.record, hid]
  rfl

theorem arrivals_ids {nodes : List RemoteNode} (h : ∀ n ∈ nodes, n ∈ I.arrivals R trustedCode L)
    (status : Status) (now : Int) : (nodes.map fun n => asText n.id) =
      ((nodes.map (I.recordOf R status now)).map ImportRecord.id).map some := by
  rw [List.map_map, List.map_map]
  exact List.map_congr_left fun n hn => recordOf_id (h n hn) status now

/-- An import does what its dry run has planned exactly if every node that arrives has a code that
looks like a payment code, and an id of its own that is not `__proto__`. -/
theorem plan_is_what_apply_does (I : Importer) (R : Remote) (trustedCode : String) (L : LocalState)
    (status : Status) (now : Int) :
    (∀ rows, I.plan R trustedCode L = .ok rows → I.Kept R trustedCode L status now rows) ↔
      (∀ n ∈ I.arrivals R trustedCode L, I.Coded n ∧ asText n.id ≠ some "__proto__") ∧
        ((I.arrivals R trustedCode L).map fun n => asText n.id).Nodup := by
  obtain ⟨hw, hs, hf⟩ := applyImports_arrivals I R trustedCode L status now
  constructor
  · intro hkept
    cases hp : I.plan R trustedCode L with
    | error e =>
      rw [arrivals_error hp]
      exact ⟨fun n hn => absurd hn List.not_mem_nil, List.nodup_nil⟩
    | ok rows =>
      have hk := hkept rows hp
      have hstore : ∀ n ∈ I.arrivals R trustedCode L, (I.recordOf R status now n).storable = true := by
        intro n hn
        obtain ⟨s', hs'⟩ := hk.accepted (n, .take (n.codes I.fetchCodes)) (mem_rows hp hn) _ rfl L.store
        exact storable_of_put hs'
      have hall : ((I.arrivals R trustedCode L).map (I.recordOf R status now)).takeWhile
          ImportRecord.storable = (I.arrivals R trustedCode L).map (I.recordOf R status now) := by
        rw [List.takeWhile_eq_self_iff]
        intro r hr
        obtain ⟨n, hn, rfl⟩ := List.mem_map.1 hr
        exact hstore n hn
      have hdry := hk.counted _ (dryRun_result hp)
      rw [hs, hall, planned_eq rows 0 status now, plan_imports hp] at hdry
      have hle := length_keep_all (((I.arrivals R trustedCode L).map
        (I.recordOf R status now)).filter (·.id ≠ "__proto__")) L.store
      have hfilter : ((I.arrivals R trustedCode L).map (I.recordOf R status now)).filter
          (·.id ≠ "__proto__") = (I.arrivals R trustedCode L).map (I.recordOf R status now) := by
        apply List.filter_sublist.eq_of_length_le
        omega
      rw [hfilter] at hdry
      have hnew : ∀ r ∈ (I.arrivals R trustedCode L).map (I.recordOf R status now),
          L.store.submissions.get r.id = none := by
        intro r hr
        obtain ⟨n, hn, rfl⟩ := List.mem_map.1 hr
        exact existing_none hn status now
      refine ⟨fun n hn => ⟨(storable_recordOf (arrives_of_mem hn) status now).1 (hstore n hn), ?_⟩, ?_⟩
      · have hne := List.filter_eq_self.1 hfilter _ (List.mem_map_of_mem hn)
        rw [recordOf_id hn status now]
        simpa using hne
      · rw [arrivals_ids (fun n hn => hn) status now]
        exact ((length_keep_eq hnew).1 hdry).map fun _ _ h => Option.some.inj h
  · rintro ⟨hcoded, hnodup⟩ rows hp
    have hstore : ∀ r ∈ (I.arrivals R trustedCode L).map (I.recordOf R status now),
        r.storable = true := by
      intro r hr
      obtain ⟨n, hn, rfl⟩ := List.mem_map.1 hr
      exact (storable_recordOf (arrives_of_mem hn) status now).2 (hcoded n hn).1
    have hplain : ∀ r ∈ (I.arrivals R trustedCode L).map (I.recordOf R status now),
        decide (r.id ≠ "__proto__") = true := by
      intro r hr
      obtain ⟨n, hn, rfl⟩ := List.mem_map.1 hr
      have hne := (hcoded n hn).2
      rw [recordOf_id hn status now] at hne
      simpa using hne
    have hnew : ∀ r ∈ (I.arrivals R trustedCode L).map (I.recordOf R status now),
        L.store.submissions.get r.id = none := by
      intro r hr
      obtain ⟨n, hn, rfl⟩ := List.mem_map.1 hr
      exact existing_none hn status now
    rw [List.takeWhile_eq_self_iff.2 hstore, List.filter_eq_self.2 hplain] at hw hs
    rw [arrivals_ids (fun n hn => hn) status now] at hnodup
    refine ⟨fun x hx codes hc s => ?_, ?_, fun report hr => ?_, .inr ?_⟩
    · have hmem : x.1.record codes R.onionHost status now ∈
          Importer.imports R rows status now := by
        refine List.mem_filterMap.2 ⟨x, hx, ?_⟩
        rw [hc]
      rw [plan_imports hp] at hmem
      have hg := (ImportRecord.storable_iff _).1 (hstore _ hmem)
      exact ⟨_, by rw [Store.putSubmission, hg]; rfl⟩
    · exact apply_result hp (hf.2 hstore)
    · cases (dryRun_result hp).symm.trans hr
      rw [hs, planned_eq rows 0 status now, plan_imports hp]
      exact (length_keep_eq hnew).2 (List.Nodup.of_map _ hnodup)
    · rw [hw, plan_imports hp]

instance (n : RemoteNode) : Decidable (I.Coded n) :=
  inferInstanceAs (Decidable (∃ c ∈ n.texts I.fetchCodes, looksLikeCode (trim c) = true))

/-- The nodes whose records an import stores: those that arrive, up to the first without a code that
looks like a payment code. -/
def Importer.landing (I : Importer) (R : Remote) (trustedCode : String) (L : LocalState) :
    List RemoteNode :=
  ((I.arrivals R trustedCode L).takeWhile fun n => decide (I.Coded n)).filter fun n =>
    asText n.id ≠ some "__proto__"

theorem landing_arrives (h : n ∈ I.landing R trustedCode L) : n ∈ I.arrivals R trustedCode L :=
  (List.takeWhile_sublist _).subset (List.mem_of_mem_filter h)

theorem written_eq (I : Importer) (R : Remote) (trustedCode : String) (L : LocalState)
    (status : Status) (now : Int) :
    let done := I.bootstrapImport R trustedCode L false status now
    done.written = (I.landing R trustedCode L).map (I.recordOf R status now) ∧
      done.store = done.written.foldl (fun s r => s.keep r.stored) L.store := by
  obtain ⟨hw, hs, -⟩ := applyImports_arrivals I R trustedCode L status now
  refine ⟨?_, by rw [hw, hs]⟩
  have htake : ∀ nodes : List RemoteNode, (∀ n ∈ nodes, n ∈ I.arrivals R trustedCode L) →
      ((nodes.map (I.recordOf R status now)).takeWhile ImportRecord.storable).filter
          (·.id ≠ "__proto__") =
        ((nodes.takeWhile fun n => decide (I.Coded n)).filter fun n =>
          asText n.id ≠ some "__proto__").map (I.recordOf R status now) := by
    intro nodes hnodes
    induction nodes with
    | nil => rfl
    | cons n nodes ih =>
      have hn := hnodes n List.mem_cons_self
      have hstore : (I.recordOf R status now n).storable = true ↔ I.Coded n :=
        storable_recordOf (arrives_of_mem hn) status now
      rw [List.map_cons, List.takeWhile_cons, List.takeWhile_cons]
      by_cases hc : I.Coded n
      · rw [hstore.2 hc, decide_eq_true hc, if_pos rfl, if_pos rfl, List.filter_cons,
          List.filter_cons, ih fun x hx => hnodes x (List.mem_cons_of_mem n hx),
          recordOf_id hn status now]
        by_cases hp : (I.recordOf R status now n).id = "__proto__" <;> simp [hp]
      · rw [decide_eq_false hc, Bool.eq_false_iff.2 fun h => hc (hstore.1 h)]
        rfl
  rw [hw]
  exact htake _ fun n hn => hn

end Plan

section Sample

/-- Numbers that are written as they are read. -/
def literalText (t : String) : String :=
  if numberLiteral t.toList = some (t.toList, []) then t else "NaN"

def literalNumbers : NumberText where
  text := literalText
  canonical t h := by
    by_cases ht : numberLiteral t.toList = some (t.toList, [])
    · have he : literalText t = t := if_pos ht
      rw [he]
      exact ⟨ht, he⟩
    · rw [literalText, if_neg ht] at h
      cases h

/-- Libraries that know three payment codes, and accept the signatures of their addresses. -/
def sampleImporter : Importer where
  numbers := literalNumbers
  messagePrefix _ := "Bitcoin Signed Message:"
  samePrefix := rfl
  verify _ address _ _ := .ok (address ∈ ["1Operator", "1David", "1Maxim"])
  notificationAddress code _ :=
    [("PM8Toperator", "1Operator"), ("PM8Tdavid", "1David"), ("PM8Tmaxim", "1Maxim")].lookup code
  lower := id
  fetchCodes _ := none

def sampleSignature : String := String.ofList (List.replicate 88 'A')

theorem toList_append₇ (a b c d e f g : String) : (a ++ b ++ c ++ d ++ e ++ f ++ g).toList =
    a.toList ++ b.toList ++ c.toList ++ d.toList ++ e.toList ++ f.toList ++ g.toList := by
  simp only [String.toList_append]

theorem signedBlock_toList (m a : String) : (Crypto.signedBlock m a sampleSignature).toList =
    "-----BEGIN BITCOIN SIGNED MESSAGE-----\n".toList ++ m.toList ++
      "\n-----BEGIN BITCOIN SIGNATURE-----\nVersion: Bitcoin-qt (1.0)\nAddress: ".toList ++
      a.toList ++ "\n\n".toList ++ List.replicate 88 'A' ++
      "\n-----END BITCOIN SIGNATURE-----".toList := by
  have h := toList_append₇ "-----BEGIN BITCOIN SIGNED MESSAGE-----\n" m
    "\n-----BEGIN BITCOIN SIGNATURE-----\nVersion: Bitcoin-qt (1.0)\nAddress: " a "\n\n"
    sampleSignature "\n-----END BITCOIN SIGNATURE-----"
  have hs : sampleSignature.toList = List.replicate 88 'A' := String.toList_ofList
  rw [hs] at h
  exact h

def sampleOperator : Json := .obj [("paymentCode", .str "PM8Toperator"),
  ("onion", .str "http://b.onion"), ("verifySigned", .str (Crypto.signedBlock
    "http://b.onion/\n\nBIP47: PM8Toperator" "1Operator" sampleSignature))]

def samplePayload (url : String) : Json := .obj [("pairing", .obj [("url", .str url)])]

/-- A node of the remote list, with a block over its payload that names no payment code. -/
def sampleNode (id url signer code : String) : Json := .obj [("id", .str id),
  ("network", .str "mainnet"), ("paymentCode", .str code), ("payload", samplePayload url),
  ("signed", .str (Crypto.signedBlock (samplePayload url).stringify signer sampleSignature))]

def sampleRemote (nodes : List Json) : Remote where
  onionHost := "b.onion"
  operator := some sampleOperator
  dojos := some (.obj [("nodes", .arr nodes)])

/-- What the block of the sample's operator says of its claim, its address and its signature. -/
theorem sample_block : Crypto.claimPart (lineFeeds (Crypto.signedBlock
      "http://b.onion/\n\nBIP47: PM8Toperator" "1Operator" sampleSignature).toList) =
        some "http://b.onion/\n\nBIP47: PM8Toperator".toList ∧
    addressLine (lineFeeds (Crypto.signedBlock
      "http://b.onion/\n\nBIP47: PM8Toperator" "1Operator" sampleSignature).toList) =
        some "1Operator".toList ∧
    signatureLine (fun cs => endMark.isPrefixOf (cs.dropWhile (· = '\n')))
      (lineFeeds (Crypto.signedBlock "http://b.onion/\n\nBIP47: PM8Toperator" "1Operator"
        sampleSignature).toList) = some (List.replicate 88 'A') := by
  rw [signedBlock_toList]
  unfold Crypto.claimPart addressLine endMark
  repeat rw [String.toList_ofList]
  decide +kernel

theorem sample_claim : Crypto.plainUrl (some (.str "http://b.onion")) = .ok "http://b.onion" ∧
    Crypto.trimSlashes (trim (String.ofList ((Crypto.trimLines
      "http://b.onion/\n\nBIP47: PM8Toperator".toList).takeWhile (· ≠ '\n')))) =
        "http://b.onion" ∧
    (Crypto.declaredCode (Crypto.trimLines
      "http://b.onion/\n\nBIP47: PM8Toperator".toList)).map String.ofList =
        some "PM8Toperator" ∧
    sampleImporter.notificationAddresses "PM8Toperator" = ["1Operator"] ∧
    Crypto.trimSlashes (trim "http://b.onion") = "http://b.onion" ∧
    trim (String.ofList "1Operator".toList) = "1Operator" := by
  repeat rw [String.toList_ofList]
  decide +kernel

theorem sample_verified {block : String} (hne : block ≠ "")
    (hm : Crypto.claimPart (lineFeeds block.toList) =
      some "http://b.onion/\n\nBIP47: PM8Toperator".toList)
    (ha : addressLine (lineFeeds block.toList) = some "1Operator".toList)
    (hs : signatureLine (fun cs => endMark.isPrefixOf (cs.dropWhile (· = '\n')))
      (lineFeeds block.toList) = some (List.replicate 88 'A')) :
    sampleImporter.verifyOperatorDoc (.obj [("paymentCode", .str "PM8Toperator"),
      ("onion", .str "http://b.onion"), ("verifySigned", .str block)]) "http://b.onion" =
        .ok (.ok "1Operator") := by
  have hb : (Json.str block).truthy = true := by simp [Json.truthy, hne]
  have hc : (Json.str "PM8Toperator").truthy = true := rfl
  generalize hd : Json.obj [("paymentCode", .str "PM8Toperator"), ("onion", .str "http://b.onion"),
    ("verifySigned", .str block)] = doc
  have h₁ : doc.get "paymentCode" = .ok (some (.str "PM8Toperator")) := hd ▸ rfl
  have h₂ : doc.get "onion" = .ok (some (.str "http://b.onion")) := hd ▸ rfl
  have h₃ : doc.get "verifySigned" = .ok (some (.str block)) := hd ▸ rfl
  unfold Crypto.verifyOperatorDoc
  rw [h₁, h₂, h₃]
  subst hd
  obtain ⟨honion, hline, hcode, hnote, hclean, haddr⟩ := sample_claim
  simp only [truthy, Option.any, hb, hc, orEmpty, Json.text, bind, Except.bind, pure, Except.pure,
    if_true, hm, ha, hs, honion, hline, hcode, hnote, hclean, haddr]
  rfl

theorem signedBlock_ne (m a : String) : Crypto.signedBlock m a sampleSignature ≠ "" := by
  intro h
  have hmem : 'A' ∈ (Crypto.signedBlock m a sampleSignature).toList := by
    rw [signedBlock_toList]
    exact List.mem_append_left _ (List.mem_append_right _ (List.mem_replicate.2 ⟨nofun, rfl⟩))
  rw [h] at hmem
  exact List.not_mem_nil hmem

theorem trustGate_ok {I : Importer} {R : Remote} {doc : Json} (hd : R.operator = some doc)
    (hv : I.verifyOperatorDoc doc ("http://" ++ R.onionHost) = .ok (.ok signer))
    (hc : asText (field "paymentCode" (some doc)) = some code) : I.trustGate R code = .ok () := by
  unfold Importer.trustGate
  rw [hd]
  dsimp only
  rw [hv]
  exact if_neg fun h => h hc

theorem sample_trusted (nodes : List Json) :
    sampleImporter.trustGate (sampleRemote nodes) "PM8Toperator" = .ok () := by
  have hv : sampleImporter.verifyOperatorDoc sampleOperator "http://b.onion" =
      .ok (.ok "1Operator") := by
    obtain ⟨hm, ha, hs⟩ := sample_block
    exact sample_verified (signedBlock_ne _ _) hm ha hs
  have hurl : "http://" ++ "b.onion" = "http://b.onion" := by simp
  rw [← hurl] at hv
  exact trustGate_ok rfl hv rfl

theorem listedNodes_eq (vs : List Json) (hnull : vs.any isNull = false)
    (hurl : ∀ v ∈ vs, truthy (RemoteNode.ofJson v).url = true) :
    Importer.listedNodes (.obj [("nodes", .arr vs)]) = .ok (vs.map RemoteNode.ofJson) := by
  have hf : (vs.map RemoteNode.ofJson).filter (fun n => truthy n.url) = vs.map RemoteNode.ofJson := by
    rw [List.filter_eq_self]
    intro n hn
    obtain ⟨v, hv, rfl⟩ := List.mem_map.1 hn
    exact hurl v hv
  unfold Importer.listedNodes
  have hn : orNothing (field "nodes" (some (.obj [("nodes", .arr vs)]))) = some (.arr vs) := rfl
  dsimp only
  rw [hn]
  dsimp only
  rw [hnull, hf]
  rfl

theorem sample_nodes (xs : List (String × String × String × String))
    (h : ∀ x ∈ xs, x.2.1 ≠ "") :
    sampleImporter.trustedNodes (sampleRemote (xs.map fun x => sampleNode x.1 x.2.1 x.2.2.1 x.2.2.2))
      "PM8Toperator" = .ok (xs.map fun x => RemoteNode.ofJson (sampleNode x.1 x.2.1 x.2.2.1 x.2.2.2)) := by
  have hl := listedNodes_eq (xs.map fun x => sampleNode x.1 x.2.1 x.2.2.1 x.2.2.2)
    (by
      rw [List.any_eq_false]
      intro v hv
      obtain ⟨x, -, rfl⟩ := List.mem_map.1 hv
      exact Bool.false_ne_true)
    (by
      intro v hv
      obtain ⟨x, hx, rfl⟩ := List.mem_map.1 hv
      have hu : (RemoteNode.ofJson (sampleNode x.1 x.2.1 x.2.2.1 x.2.2.2)).url = some (.str x.2.1) := rfl
      rw [hu]
      simpa [truthy, Json.truthy] using h x hx)
  have hlog : ((xs.map fun x => sampleNode x.1 x.2.1 x.2.2.1 x.2.2.2).map RemoteNode.ofJson).any
      RemoteNode.breaksLog = false := by
    rw [List.any_eq_false]
    intro n hn
    obtain ⟨v, hv, rfl⟩ := List.mem_map.1 hn
    obtain ⟨x, -, rfl⟩ := List.mem_map.1 hv
    exact Bool.false_ne_true
  unfold Importer.trustedNodes
  rw [sample_trusted]
  simp only [sampleRemote, bind, Except.bind]
  rw [hl]
  simp only [Except.mapError, hlog]
  rw [List.map_map]
  rfl

theorem sample_blocks :
    parseSignedBlock (Crypto.signedBlock (samplePayload "http://c.onion").stringify
      "1Maxim" sampleSignature) = some ⟨(samplePayload "http://c.onion").stringify,
        (samplePayload "http://c.onion").stringify, none, "1Maxim", sampleSignature⟩ ∧
    parseSignedBlock (Crypto.signedBlock (samplePayload "http://d.onion").stringify
      "1David" sampleSignature) = some ⟨(samplePayload "http://d.onion").stringify,
        (samplePayload "http://d.onion").stringify, none, "1David", sampleSignature⟩ := by
  unfold parseSignedBlock
  rw [signedBlock_toList, signedBlock_toList]
  unfold Json.stringify addressLine endMark sampleSignature
  repeat rw [String.toList_ofList]
  decide +kernel

theorem trim_toList {s : String} {c d : Char} (hc : s.toList.head? = some c) (hsc : isSpace c = false)
    (hd : s.toList.getLast? = some d) (hsd : isSpace d = false) : (trim s).toList = s.toList := by
  have h₁ : trimStart s.toList = s.toList := by
    obtain ⟨l, hl⟩ := List.head?_eq_some_iff.1 hc
    rw [hl, trimStart]
    exact List.dropWhile_cons_of_neg (by simp [hsc])
  have h₂ : trimStart s.toList.reverse = s.toList.reverse := by
    obtain ⟨l, hl⟩ := List.getLast?_eq_some_iff.1 hd
    rw [hl, trimStart, List.reverse_append]
    exact List.dropWhile_cons_of_neg (by simp [hsd])
  rw [trim, String.toList_ofList, h₁, h₂, List.reverse_reverse]

theorem hasSignedBlock_signedBlock (m a : String) (n : Network) : hasSignedBlock
    { id := "", network := n, signed := some (Crypto.signedBlock m a sampleSignature) } = true := by
  obtain ⟨hopen, hsign⟩ : "BEGIN BITCOIN SIGNED MESSAGE".toList <:+:
        "-----BEGIN BITCOIN SIGNED MESSAGE-----\n".toList ∧
      "BEGIN BITCOIN SIGNATURE".toList <:+:
        "\n-----BEGIN BITCOIN SIGNATURE-----\nVersion: Bitcoin-qt (1.0)\nAddress: ".toList := by
    repeat rw [String.toList_ofList]
    decide +kernel
  have hhead : "-----BEGIN BITCOIN SIGNED MESSAGE-----\n".toList.head? = some '-' := by
    rw [String.toList_ofList]
    rfl
  have hlast : "\n-----END BITCOIN SIGNATURE-----".toList.getLast? = some '-' := by
    rw [String.toList_ofList]
    rfl
  have hblock := signedBlock_toList m a
  generalize "-----BEGIN BITCOIN SIGNED MESSAGE-----\n".toList = opening at hopen hhead hblock
  generalize "\n-----BEGIN BITCOIN SIGNATURE-----\nVersion: Bitcoin-qt (1.0)\nAddress: ".toList =
    middle at hsign hblock
  generalize "\n-----END BITCOIN SIGNATURE-----".toList = closing at hlast hblock
  have hfirst : (Crypto.signedBlock m a sampleSignature).toList.head? = some '-' := by
    rw [hblock]
    simp [hhead]
  have hend : (Crypto.signedBlock m a sampleSignature).toList.getLast? = some '-' := by
    rw [hblock, List.getLast?_append, hlast]
    rfl
  have htrim := trim_toList hfirst rfl hend rfl
  rw [hblock] at htrim
  unfold hasSignedBlock
  rw [Option.getD_some, Bool.and_eq_true]
  constructor
  · refine decide_eq_true (hopen.trans ?_)
    rw [htrim]
    simp only [List.append_assoc]
    exact (List.prefix_append opening _).isInfix
  · refine decide_eq_true (hsign.trans ?_)
    rw [htrim]
    simp only [List.append_assoc]
    exact ((List.prefix_append middle _).isInfix.trans (List.suffix_append m.toList _).isInfix).trans
      (List.suffix_append opening _).isInfix

theorem sample_arrives {L : LocalState} {id url signer code : String} (hid : id ∉ L.existingIds)
    (hurl : (pairingKey sampleImporter.lower (.given (some (samplePayload url)))).bind
      (L.localByUrl sampleImporter.lower).get = none)
    (hp : parseSignedBlock (Crypto.signedBlock (samplePayload url).stringify signer sampleSignature) =
      some ⟨(samplePayload url).stringify, (samplePayload url).stringify, none, signer,
        sampleSignature⟩)
    (hs : signer ∈ ["1Operator", "1David", "1Maxim"]) (hc : code ≠ "") :
    sampleImporter.arrives L (.ofJson (sampleNode id url signer code)) = true := by
  have hcanon : canonicalPairing (.given (some (samplePayload url))) =
      (samplePayload url).stringify := rfl
  have hv : sampleImporter.verifySignedPayload
      (Crypto.signedBlock (samplePayload url).stringify signer sampleSignature)
      (some (canonicalPairing (.given (some (samplePayload url))))) none .mainnet =
        .ok (signer, none) := by
    have hok : sampleImporter.verify (samplePayload url).stringify signer sampleSignature
        (sampleImporter.messagePrefix .mainnet) = .ok true := by
      rw [sampleImporter]
      simpa using hs
    unfold Crypto.verifySignedPayload
    rw [hp, hcanon]
    dsimp only
    rw [hok]
    simp [Crypto.sameSignedPayload]
  have hcodes : (RemoteNode.ofJson (sampleNode id url signer code)).codes sampleImporter.fetchCodes =
      [.str code] := by
    have hown : orNothing (RemoteNode.ofJson (sampleNode id url signer code)).paymentCode =
        some (.str code) := by
      have hpc : (RemoteNode.ofJson (sampleNode id url signer code)).paymentCode = some (.str code) :=
        rfl
      simp [hpc, orNothing, Option.filter, Json.truthy, hc]
    unfold RemoteNode.codes
    rw [hown]
    rfl
  have hblock := hasSignedBlock_signedBlock (samplePayload url).stringify signer .mainnet
  unfold Importer.arrives
  have hi : asText (RemoteNode.ofJson (sampleNode id url signer code)).id = some id := rfl
  have hpl : (RemoteNode.ofJson (sampleNode id url signer code)).payload = some (samplePayload url) := rfl
  have hsi : asText (RemoteNode.ofJson (sampleNode id url signer code)).signed = some (Crypto.signedBlock (samplePayload url).stringify signer sampleSignature) := rfl
  have hch : (RemoteNode.ofJson (sampleNode id url signer code)).chain = .mainnet := rfl
  have hsb : (RemoteNode.ofJson (sampleNode id url signer code)).hasSignedBlock = true := hblock
  rw [hi, hpl, hsi, hch, hsb, hurl, hcodes, Option.getD_some, hv]
  simpa [present] using hid

theorem emptyStore_wellFormed : ({} : Store).WellFormed where
  stored id r h := by
    rw [Table.get_empty] at h
    cases h
  normal r rec h := by
    simp [Store.object] at h

def bareLocal : LocalState := ⟨{}, emptyStore_wellFormed, []⟩

/-- A list with a good node, and with one whose payment code is the name of its operator. -/
def partlyCoded : Remote := sampleRemote
  [sampleNode "mainnet-c" "http://c.onion" "1Maxim" "PM8Tmaxim",
    sampleNode "mainnet-d" "http://d.onion" "1David" "david"]

/-- The second row of the plan is refused by the store, after the first has been stored. -/
theorem apply_stops_half_way :
    (sampleImporter.bootstrapImport partlyCoded "PM8Toperator" bareLocal false .approved 0).written.map
        ImportRecord.id = ["mainnet-c"] ∧
      ¬ ∀ rows, sampleImporter.plan partlyCoded "PM8Toperator" bareLocal = .ok rows →
        sampleImporter.Kept partlyCoded "PM8Toperator" bareLocal .approved 0 rows := by
  have hnodes : sampleImporter.trustedNodes partlyCoded "PM8Toperator" =
      .ok [.ofJson (sampleNode "mainnet-c" "http://c.onion" "1Maxim" "PM8Tmaxim"),
        .ofJson (sampleNode "mainnet-d" "http://d.onion" "1David" "david")] :=
    sample_nodes [("mainnet-c", "http://c.onion", "1Maxim", "PM8Tmaxim"),
      ("mainnet-d", "http://d.onion", "1David", "david")] (by decide)
  have hc : sampleImporter.arrives bareLocal
      (.ofJson (sampleNode "mainnet-c" "http://c.onion" "1Maxim" "PM8Tmaxim")) = true :=
    sample_arrives (by decide) (by decide +kernel) sample_blocks.1 (by decide) (by decide)
  have hd : sampleImporter.arrives bareLocal
      (.ofJson (sampleNode "mainnet-d" "http://d.onion" "1David" "david")) = true :=
    sample_arrives (by decide) (by decide +kernel) sample_blocks.2 (by decide) (by decide)
  have harr : sampleImporter.arrivals partlyCoded "PM8Toperator" bareLocal =
      [.ofJson (sampleNode "mainnet-c" "http://c.onion" "1Maxim" "PM8Tmaxim"),
        .ofJson (sampleNode "mainnet-d" "http://d.onion" "1David" "david")] := by
    rw [arrivals_ok hnodes]
    simp [hc, hd]
  have hcoded : sampleImporter.Coded
      (.ofJson (sampleNode "mainnet-c" "http://c.onion" "1Maxim" "PM8Tmaxim")) := by
    decide +kernel
  have huncoded : ¬ sampleImporter.Coded
      (.ofJson (sampleNode "mainnet-d" "http://d.onion" "1David" "david")) := by
    decide +kernel
  constructor
  · obtain ⟨hw, -⟩ := written_eq sampleImporter partlyCoded "PM8Toperator" bareLocal .approved 0
    have hid : asText (RemoteNode.ofJson
        (sampleNode "mainnet-c" "http://c.onion" "1Maxim" "PM8Tmaxim")).id = some "mainnet-c" := rfl
    rw [hw, Importer.landing, harr, List.takeWhile_cons, decide_eq_true hcoded, if_pos rfl,
      List.takeWhile_cons, decide_eq_false huncoded, if_neg Bool.false_ne_true, List.filter_cons, hid]
    rfl
  · intro h
    have hplan := plan_ok (L := bareLocal) hnodes
    have hd' := mem_rows hplan (harr ▸ List.mem_cons_of_mem _ List.mem_cons_self)
    obtain ⟨s', hs'⟩ := (h _ hplan).accepted _ hd' _ rfl bareLocal.store
    exact huncoded ((storable_recordOf hd .approved 0).1 (storable_of_put hs'))

end Sample

end Server

end Mise
