import Mise.Server.ImportPlan

set_option autoImplicit true

namespace Mise.Server.Migrate

open Js

/-- A node of the seed file, as the migration reads it. -/
structure SeedNode where
  id : String
  network : Network
  name : Option String := none
  paynym : Option String := none
  jurisdiction : Option String := none
  country : Option String := none
  hardware : Option String := none
  payload : Payload := {}
  signed : Option String := none

/-- The payment codes of each PayNym; an entry that has no text for its code counts as one. -/
abbrev Mapping := Table (List (Option String))

/-- What ends a migration. -/
inductive Stop where
  | missingCodes (nodes : List (String × Option String))
  | duplicateName (key : String)
  | clash (id storedId : String) (name : Option String)
  | fatal (fault : Fault)

inductive Planned where
  | skip
  | refuse (why : String)
  | create (rec : StoreRecord)

/-- What a migration leaves in the store, and the plan that it prints. -/
structure Outcome where
  store : Store
  result : Except Stop (List Planned)

def Planned.created : Planned → Option StoreRecord
  | .create rec => some rec
  | .skip | .refuse _ => none

def slugOf (v : String) : String :=
  let cs := squeeze (v.toList.flatMap slugChars)
  String.ofList ((cs.dropWhile (· = '-')).reverse.dropWhile (· = '-')).reverse

section Names

/-- The id without the network. -/
def remainder (n : SeedNode) : List Char :=
  let begun := (n.network.text ++ "-").toList
  if begun <+: n.id.toList then n.id.toList.drop begun.length else n.id.toList

def firstToken (r : List Char) : List Char := r.takeWhile (· ≠ '-')

/-- `r.split("-").slice(1).join("-")` -/
def otherTokens (r : List Char) : List Char := (r.dropWhile (· ≠ '-')).drop 1

/-- The names of the nodes of one owner. -/
def deriveNames (nodes : List SeedNode) : List String :=
  let rem := nodes.map remainder
  let shared := rem.all (fun r => firstToken r = firstToken (rem.headD [])) && rem.all (·.contains '-')
  let names := if 1 < nodes.length && shared then rem.map otherTokens else rem
  List.zipWith (fun n name =>
    match present n.name with
    | some own => if slugOf own = String.ofList name then own else String.ofList name
    | none => String.ofList name) nodes names

/-- The nodes that have a PayNym, those of one together. -/
def byOwner (nodes : List SeedNode) : List (List SeedNode) :=
  (unique (nodes.filterMap fun n => present n.paynym)).map fun p =>
    nodes.filter fun n => present n.paynym = some p

def nameOf (nodes : List SeedNode) : Table String :=
  let owned := (byOwner nodes).flatMap fun group => group.zip (deriveNames group)
  let others := (nodes.filter fun n => (present n.paynym).isNone).map fun n =>
    (n, (present n.name).getD (String.ofList (remainder n)))
  (owned ++ others).foldl (fun t x => t.set x.1.id x.2) {}

def nameSlug (nodes : List SeedNode) (n : SeedNode) : String := slugOf (((nameOf nodes).get n.id).getD "")

def nameKey (nodes : List SeedNode) (n : SeedNode) : String := n.network.text ++ ":" ++ nameSlug nodes n

def firstRepeated (seen : List String) : List String → Option String
  | [] => none
  | k :: ks => if k ∈ seen then some k else firstRepeated (k :: seen) ks

end Names

section Migration

variable (M : Mapping) (nodes : List SeedNode) (now : Int) (s : Store)

def toRecord (n : SeedNode) (codes : List (Option String)) : StoreRecord where
  id := n.id
  network := n.network
  name := (nameOf nodes).get n.id
  paymentCodes := some (codes.filterMap id)
  paynym := present n.paynym
  jurisdiction := present n.jurisdiction
  country := present n.country
  hardware := present n.hardware
  payload := n.payload
  signed := present n.signed
  status := .approved
  createdAt := .at now
  updatedAt := .at now

/-- Another record of the network has the name of the node. -/
def clashes (r : StoreRecord) (n : SeedNode) : Bool :=
  r.id ≠ n.id && r.network = n.network && slugOf (r.name.getD "") = nameSlug nodes n

/-- What ends the migration before there is a plan. -/
def check : Except Stop Unit :=
  match (nodes.filter fun n => (present n.paynym).any fun p => !(M.find [] p).truthy) with
  | n :: missing => .error (.missingCodes ((n :: missing).map fun n => (n.id, n.paynym)))
  | [] =>
    match firstRepeated [] (nodes.map (nameKey nodes)) with
    | some key => .error (.duplicateName key)
    | none =>
      match s.listed.findSome? fun r => (nodes.find? (clashes nodes r)).map fun n => (r, n) with
      | some (r, n) => .error (.clash n.id r.id r.name)
      | none => .ok ()

/-- `n.paynym ? mapping[n.paynym].codes.map((c) => c.code) : []` -/
def codesOf (n : SeedNode) : Except Throw (List (Option String)) :=
  match present n.paynym with
  | none => .ok []
  | some p =>
    match M.find [] p with
    | .own codes => .ok codes
    | .inherited | .absent => .error .typeError

def planNode (n : SeedNode) : Except Throw Planned :=
  if n.id ∈ s.listed.map StoreRecord.id then .ok .skip
  else (codesOf M n).map fun codes =>
    if codes = [] then .refuse "no BIP47 payment code"
    else if !hasSignedBlock (toRecord nodes now n codes) then .refuse "no signed pairing block"
    else .create (toRecord nodes now n codes)

def plan (ns : List SeedNode) : Except Throw (List Planned) :=
  match ns with
  | [] => .ok []
  | n :: ns => do
    let p ← planNode M nodes now s n
    let ps ← plan ns
    return p :: ps

/-- Stores the records one after the other, up to the first that the store refuses. -/
def putAll : List StoreRecord → Store → Store × Option Fault
  | [], s => (s, none)
  | rec :: rs, s =>
    match s.assign rec with
    | .error e => (s, some e)
    | .ok s' => putAll rs s'

/-- `main`; `dry` is `--dry-run`. -/
def migrate (dry : Bool) : Outcome :=
  match check M nodes s with
  | .error e => ⟨s, .error e⟩
  | .ok () =>
    match plan M nodes now s nodes with
    | .error _ => ⟨s, .error (.fatal .typeError)⟩
    | .ok rows =>
      if dry then ⟨s, .ok rows⟩
      else match putAll (rows.filterMap Planned.created) s with
        | (s', none) => ⟨s', .ok rows⟩
        | (s', some e) => ⟨s', .error (.fatal e)⟩

end Migration

section Check

variable {M : Mapping} {nodes : List SeedNode} {now : Int} {s : Store} {n m : SeedNode}

theorem firstRepeated_none {seen ks : List String} (h : firstRepeated seen ks = none) :
    ks.Nodup ∧ ∀ k ∈ ks, k ∉ seen := by
  induction ks generalizing seen with
  | nil => exact ⟨List.nodup_nil, nofun⟩
  | cons k ks ih =>
    rw [firstRepeated] at h
    split at h
    · cases h
    · next hk =>
      obtain ⟨hn, hs⟩ := ih h
      constructor
      · exact List.nodup_cons.2 ⟨fun hm => hs k hm List.mem_cons_self, hn⟩
      · intro x hx
        obtain rfl | hx := List.mem_cons.1 hx
        · exact hk
        · exact fun hm => hs x hx (List.mem_cons_of_mem k hm)

theorem check_ok_iff : check M nodes s = .ok () ↔
    (nodes.filter fun n => (present n.paynym).any fun p => !(M.find [] p).truthy) = [] ∧
      firstRepeated [] (nodes.map (nameKey nodes)) = none ∧
        ∀ r ∈ s.listed, ∀ n ∈ nodes, clashes nodes r n = false := by
  have hclash : (s.listed.findSome? fun r => (nodes.find? (clashes nodes r)).map fun n => (r, n)) = none ↔
      ∀ r ∈ s.listed, ∀ n ∈ nodes, clashes nodes r n = false := by
    simp only [List.findSome?_eq_none_iff, Option.map_eq_none_iff, List.find?_eq_none, Bool.not_eq_true]
  rw [← hclash]
  unfold check
  split
  · next hm =>
    rw [hm]
    exact ⟨nofun, nofun⟩
  · next hm =>
    rw [hm, and_iff_right rfl]
    split
    · next hr =>
      rw [hr]
      exact ⟨nofun, fun h => nomatch h.1⟩
    · next hr =>
      rw [hr, and_iff_right rfl]
      split
      · next hc =>
        rw [hc]
        exact ⟨nofun, nofun⟩
      · next hc =>
        rw [hc]
        exact ⟨fun _ => rfl, fun _ => rfl⟩

theorem eq_of_slug (h : firstRepeated [] (nodes.map (nameKey nodes)) = none) (hn : n ∈ nodes) (hm : m ∈ nodes)
    (hnetwork : n.network = m.network) (hslug : nameSlug nodes n = nameSlug nodes m) : n = m := by
  have hkey : nameKey nodes n = nameKey nodes m := by
    rw [nameKey, nameKey, hnetwork, hslug]
  exact List.inj_on_of_nodup_map (firstRepeated_none h).1 hn hm hkey

end Check

section Plan

variable {M : Mapping} {nodes ns : List SeedNode} {now : Int} {s : Store} {n : SeedNode} {rows : List Planned}
  {rec : StoreRecord}

theorem planNode_create (h : planNode M nodes now s n = .ok (.create rec)) :
    n.id ∉ s.listed.map StoreRecord.id ∧ ∃ codes, codesOf M n = .ok codes ∧ codes ≠ [] ∧
      rec = toRecord nodes now n codes ∧ hasSignedBlock rec = true := by
  unfold planNode at h
  split at h
  · cases h
  · next hn =>
    refine ⟨hn, ?_⟩
    cases hc : codesOf M n with
    | error e =>
      rw [hc] at h
      cases h
    | ok codes =>
      rw [hc] at h
      have h := Except.ok.inj h
      dsimp only at h
      split at h
      · cases h
      · next hne =>
        split at h
        · cases h
        · next hs =>
          cases h
          exact ⟨codes, rfl, hne, rfl, by simpa using hs⟩

theorem planNode_ok (h : n.id ∉ s.listed.map StoreRecord.id → ∃ codes, codesOf M n = .ok codes) :
    ∃ p, planNode M nodes now s n = .ok p := by
  unfold planNode
  split
  · exact ⟨.skip, rfl⟩
  · next hn =>
    obtain ⟨codes, hc⟩ := h hn
    rw [hc]
    exact ⟨_, rfl⟩

theorem plan_mem (h : plan M nodes now s ns = .ok rows) :
    ∀ n ∈ ns, ∃ p ∈ rows, planNode M nodes now s n = .ok p := by
  induction ns generalizing rows with
  | nil => exact fun n hn => absurd hn List.not_mem_nil
  | cons m ns ih =>
    simp only [plan] at h
    cases hp : planNode M nodes now s m with
    | error e =>
      rw [hp] at h
      cases h
    | ok p =>
      cases hps : plan M nodes now s ns with
      | error e =>
        rw [hp, hps] at h
        cases h
      | ok ps =>
        rw [hp, hps] at h
        cases h
        intro n hn
        obtain rfl | hn := List.mem_cons.1 hn
        · exact ⟨p, List.mem_cons_self, hp⟩
        · obtain ⟨q, hq, hnq⟩ := ih hps n hn
          exact ⟨q, List.mem_cons_of_mem p hq, hnq⟩

theorem mem_plan (h : plan M nodes now s ns = .ok rows) :
    ∀ p ∈ rows, ∃ n ∈ ns, planNode M nodes now s n = .ok p := by
  induction ns generalizing rows with
  | nil =>
    cases h
    exact fun p hp => absurd hp List.not_mem_nil
  | cons m ns ih =>
    simp only [plan] at h
    cases hp : planNode M nodes now s m with
    | error e =>
      rw [hp] at h
      cases h
    | ok p =>
      cases hps : plan M nodes now s ns with
      | error e =>
        rw [hp, hps] at h
        cases h
      | ok ps =>
        rw [hp, hps] at h
        cases h
        intro q hq
        obtain rfl | hq := List.mem_cons.1 hq
        · exact ⟨m, List.mem_cons_self, hp⟩
        · obtain ⟨n, hn, hnq⟩ := ih hps q hq
          exact ⟨n, List.mem_cons_of_mem m hn, hnq⟩

theorem plan_ok (h : ∀ n ∈ ns, ∃ p, planNode M nodes now s n = .ok p) :
    ∃ rows, plan M nodes now s ns = .ok rows := by
  induction ns with
  | nil => exact ⟨[], rfl⟩
  | cons m ns ih =>
    obtain ⟨hm, hns⟩ := List.forall_mem_cons.1 h
    obtain ⟨p, hp⟩ := hm
    obtain ⟨ps, hps⟩ := ih hns
    refine ⟨p :: ps, ?_⟩
    rw [plan, hp, hps]
    rfl

theorem mem_created (h : plan M nodes now s ns = .ok rows) (hr : rec ∈ rows.filterMap Planned.created) :
    ∃ n ∈ ns, planNode M nodes now s n = .ok (.create rec) := by
  obtain ⟨p, hp, hrec⟩ := List.mem_filterMap.1 hr
  obtain ⟨n, hn, hnp⟩ := mem_plan h p hp
  cases p with
  | skip => cases hrec
  | refuse why => cases hrec
  | create rec' =>
    cases hrec
    exact ⟨n, hn, hnp⟩

end Plan

section Put

variable {s s' : Store} {rec x : StoreRecord} {rs : List StoreRecord} {id : String}

/-- Storing a record puts it under its id, unless that is no property of its own, and leaves the others. -/
theorem assign_cases (rec : StoreRecord) (s : Store) :
    (∃ e, s.assign rec = .error e) ∨ (normaliseSubmission rec).guard = .ok () ∧
      (s.loses rec.id ∧ s.assign rec = .ok s ∨ ¬ s.loses rec.id ∧ s.assign rec = .ok (s.keep rec)) := by
  unfold Store.assign Store.putSubmission
  cases hg : (normaliseSubmission rec).guard with
  | error e =>
    refine .inl ⟨e, ?_⟩
    split <;> rfl
  | ok u =>
    refine .inr ⟨rfl, ?_⟩
    by_cases hl : s.loses rec.id
    · exact .inl ⟨hl, if_pos hl⟩
    · exact .inr ⟨hl, if_neg hl⟩

theorem record_keep (rec : StoreRecord) (s : Store) (hs : s.WellFormed) (id : String) :
    (s.keep rec).record id = if id = rec.id then some (normaliseSubmission rec) else s.record id := by
  rw [Store.record, get_keep]
  split
  · rw [keep_eq]
    simp [Store.object]
  · cases hr : s.submissions.get id with
    | none => simp [Store.record, hr]
    | some r =>
      obtain ⟨y, hy, -⟩ := hs.stored id r hr
      rw [Store.record, hr, Option.bind_some, Option.bind_some, hy, object_keep hy]

theorem mem_listed_iff (hs : s.WellFormed) : x ∈ s.listed ↔ s.record x.id = some x := by
  constructor
  · intro h
    obtain ⟨r, hr, hx⟩ := get_of_listed hs h
    rw [Store.record, hr]
    exact hx
  · intro h
    obtain ⟨r, hr, hx⟩ := Option.bind_eq_some_iff.1 h
    obtain ⟨y, hy, -, hy'⟩ := listed_of_get hs hr
    cases hx.symm.trans hy'
    exact hy

theorem id_of_record (hs : s.WellFormed) (h : s.record id = some x) : x.id = id := by
  obtain ⟨r, hr, hx⟩ := Option.bind_eq_some_iff.1 h
  obtain ⟨y, hy, hid⟩ := hs.stored id r hr
  cases hx.symm.trans hy
  exact hid

/-- What the loop leaves under an id: what was there, or a record that the store has let through. -/
theorem putAll_record (hs : s.WellFormed) (rs : List StoreRecord) : (putAll rs s).1.WellFormed ∧
    (∀ id, (∀ rec ∈ rs, rec.id ≠ id) → (putAll rs s).1.record id = s.record id) ∧
      ∀ id x, (putAll rs s).1.record id = some x → s.record id = some x ∨
        ∃ rec ∈ rs, rec.id = id ∧ x = normaliseSubmission rec ∧ x.guard = .ok () := by
  induction rs generalizing s with
  | nil => exact ⟨hs, fun _ _ => rfl, fun _ _ h => .inl h⟩
  | cons rec rs ih =>
    rw [putAll]
    obtain ⟨e, he⟩ | ⟨hg, ⟨-, he⟩ | ⟨-, he⟩⟩ := assign_cases rec s
    · rw [he]
      exact ⟨hs, fun _ _ => rfl, fun _ _ h => .inl h⟩
    · rw [he]
      obtain ⟨hw, hkept, hnew⟩ := ih hs
      refine ⟨hw, fun id hid => hkept id (List.forall_mem_cons.1 hid).2, fun id x hx => ?_⟩
      obtain hx | ⟨rec', hr, hx⟩ := hnew id x hx
      · exact .inl hx
      · exact .inr ⟨rec', List.mem_cons_of_mem rec hr, hx⟩
    · rw [he]
      have hkeep : (s.keep rec).WellFormed := keep_wellFormed hs
      obtain ⟨hw, hkept, hnew⟩ := ih hkeep
      refine ⟨hw, fun id hid => ?_, fun id x hx => ?_⟩
      · obtain ⟨hne, hid⟩ := List.forall_mem_cons.1 hid
        have hk := hkept id hid
        rw [record_keep rec s hs, if_neg hne.symm] at hk
        exact hk
      · obtain hx | ⟨rec', hr, hx⟩ := hnew id x hx
        · rw [record_keep rec s hs] at hx
          split at hx
          · next hid =>
            cases hx
            exact .inr ⟨rec, List.mem_cons_self, hid.symm, rfl, hg⟩
          · exact .inl hx
        · exact .inr ⟨rec', List.mem_cons_of_mem rec hr, hx⟩

theorem record_ne_none (hs : s.WellFormed) : s.record id ≠ none ↔ s.submissions.get id ≠ none := by
  rw [Store.record]
  cases hr : s.submissions.get id with
  | none => exact ⟨fun h => absurd rfl h, fun h => absurd rfl h⟩
  | some r =>
    obtain ⟨y, hy, -⟩ := hs.stored id r hr
    rw [Option.bind_some, hy]
    exact ⟨fun _ => Option.some_ne_none r, fun _ => Option.some_ne_none y⟩

/-- A loop that is not stopped leaves something under each id that can be stored. -/
theorem putAll_done (hs : s.WellFormed) (h : putAll rs s = (s', none)) :
    (∀ id, s.record id ≠ none → s'.record id ≠ none) ∧
      ∀ rec ∈ rs, (normaliseSubmission rec).guard = .ok () ∧
        (rec.id = "__proto__" ∨ s'.record rec.id ≠ none) := by
  induction rs generalizing s with
  | nil =>
    cases h
    exact ⟨fun _ h => h, fun rec hr => absurd hr List.not_mem_nil⟩
  | cons rec rs ih =>
    rw [putAll] at h
    obtain ⟨e, he⟩ | ⟨hg, ⟨hl, he⟩ | ⟨-, he⟩⟩ := assign_cases rec s
    · rw [he] at h
      cases h
    · rw [he] at h
      obtain ⟨hkept, hall⟩ := ih hs h
      exact ⟨hkept, List.forall_mem_cons.2 ⟨⟨hg, .inl hl.1⟩, hall⟩⟩
    · rw [he] at h
      have hkeep : (s.keep rec).WellFormed := keep_wellFormed hs
      obtain ⟨hkept, hall⟩ := ih hkeep h
      have hrecord := record_keep rec s hs
      refine ⟨fun id hid => hkept id ?_, List.forall_mem_cons.2 ⟨⟨hg, .inr (hkept rec.id ?_)⟩, hall⟩⟩
      · rw [hrecord]
        split
        · exact Option.some_ne_none _
        · exact hid
      · rw [hrecord, if_pos rfl]
        exact Option.some_ne_none _

theorem putAll_lost (h : ∀ rec ∈ rs, (normaliseSubmission rec).guard = .ok () ∧ s.loses rec.id) :
    putAll rs s = (s, none) := by
  induction rs with
  | nil => rfl
  | cons rec rs ih =>
    obtain ⟨⟨hg, hl⟩, hrs⟩ := List.forall_mem_cons.1 h
    have he : s.assign rec = .ok s := by
      rw [Store.assign, if_pos hl, hg]
      rfl
    rw [putAll, he]
    exact ih hrs

end Put

/-- What a migration does to a store. -/
structure Migrates (M : Mapping) (nodes : List SeedNode) (now : Int) (s s' : Store) : Prop where
  wellFormed : s'.WellFormed
  /-- A record that was there is left untouched. -/
  kept : ∀ id x, s.record id = some x → s'.record id = some x
  /-- A new record is a seed node under its own id, with the payment codes of its PayNym and a signed
  block. -/
  created : ∀ id x, s'.record id = some x → s.record id = some x ∨ ∃ n ∈ nodes, ∃ codes,
    n.id = id ∧ codesOf M n = .ok codes ∧ x = normaliseSubmission (toRecord nodes now n codes) ∧
      hasSignedBlock x = true ∧ ∃ c ∈ x.codes, looksLikeCode (trim c) = true
  /-- A new record has a name that no other record of its network has. -/
  names : ∀ id id' x x', s'.record id = some x → s'.record id' = some x' → id ≠ id' →
    x.network = x'.network → slugOf (x.name.getD "") = slugOf (x'.name.getD "") →
      s.record id = some x ∧ s.record id' = some x'

section Runs

variable {M : Mapping} {nodes : List SeedNode} {now : Int} {s : Store} {dry : Bool} {id : String}

theorem guard_ok {x : StoreRecord} (h : x.guard = .ok ()) :
    hasSignedBlock x = true ∧ ∃ c ∈ x.codes, looksLikeCode (trim c) = true := by
  unfold StoreRecord.guard at h
  split at h
  · cases h
  · next hc =>
    split at h
    · cases h
    · next hs =>
      simp only [Bool.not_eq_true', Bool.not_eq_false] at hc hs
      exact ⟨hs, List.any_eq_true.1 hc⟩

theorem migrate_store (M : Mapping) (nodes : List SeedNode) (now : Int) (s : Store) (dry : Bool) :
    (migrate M nodes now s dry).store = s ∨ dry = false ∧ check M nodes s = .ok () ∧
      ∃ rows, plan M nodes now s nodes = .ok rows ∧
        (migrate M nodes now s dry).store = (putAll (rows.filterMap Planned.created) s).1 ∧
          ∀ rows', (migrate M nodes now s dry).result = .ok rows' →
            (putAll (rows.filterMap Planned.created) s).2 = none := by
  unfold migrate
  cases hc : check M nodes s with
  | error e => exact .inl rfl
  | ok u =>
    cases hp : plan M nodes now s nodes with
    | error e => exact .inl rfl
    | ok rows =>
      cases dry with
      | true => exact .inl rfl
      | false =>
        refine .inr ⟨rfl, rfl, rows, rfl, ?_⟩
        simp only [Bool.false_eq_true, if_false]
        cases putAll (rows.filterMap Planned.created) s with
        | mk s' fault =>
          cases fault with
          | none => exact ⟨rfl, fun _ _ => rfl⟩
          | some e => exact ⟨rfl, fun rows' h => nomatch h⟩

theorem Migrates.refl (hs : s.WellFormed) : Migrates M nodes now s s :=
  ⟨hs, fun _ _ h => h, fun _ _ h => .inl h, fun _ _ _ _ h h' _ _ _ => ⟨h, h'⟩⟩

theorem migrates (hs : s.WellFormed) : Migrates M nodes now s (migrate M nodes now s dry).store := by
  obtain he | ⟨-, hc, rows, hp, he, -⟩ := migrate_store M nodes now s dry
  · rw [he]
    exact .refl hs
  · rw [he]
    obtain ⟨hw, hkept, hnew⟩ := putAll_record hs (rows.filterMap Planned.created)
    obtain ⟨-, hnames, hclash⟩ := check_ok_iff.1 hc
    have hcreated : ∀ id x, (putAll (rows.filterMap Planned.created) s).1.record id = some x →
        s.record id = some x ∨ ∃ n ∈ nodes, ∃ codes, n.id = id ∧ codesOf M n = .ok codes ∧
          x = normaliseSubmission (toRecord nodes now n codes) ∧ x.guard = .ok () := by
      intro id x hx
      obtain hx | ⟨rec, hr, hid, hx, hg⟩ := hnew id x hx
      · exact .inl hx
      · obtain ⟨n, hn, hplan⟩ := mem_created hp hr
        obtain ⟨-, codes, hcodes, -, rfl, -⟩ := planNode_create hplan
        exact .inr ⟨n, hn, codes, hid, hcodes, hx, hg⟩
    -- a new record has another name than every record that was there
    have hother : ∀ id id' x x', s.record id = some x → ∀ n ∈ nodes, ∀ codes, n.id = id' →
        x' = normaliseSubmission (toRecord nodes now n codes) → id ≠ id' → x.network = x'.network →
          slugOf (x.name.getD "") ≠ slugOf (x'.name.getD "") := by
      intro id id' x x' hx n hn codes hid' hx' hne hnetwork hslug
      have hxid := id_of_record hs hx
      have hlisted : x ∈ s.listed := (mem_listed_iff hs).2 (by rw [hxid]; exact hx)
      have hno := hclash x hlisted n hn
      rw [clashes, Bool.and_assoc, Bool.and_eq_false_iff, Bool.and_eq_false_iff] at hno
      subst hx'
      obtain h | h | h := hno
      · have hid : x.id = n.id := Classical.not_not.1 (of_decide_eq_false h)
        exact hne (hxid.symm.trans (hid.trans hid'))
      · exact of_decide_eq_false h hnetwork
      · exact of_decide_eq_false h hslug
    refine ⟨hw, fun id x hx => ?_, fun id x hx => ?_, ?_⟩
    · rw [hkept id ?_]
      · exact hx
      · intro rec hr hid
        obtain ⟨n, -, hplan⟩ := mem_created hp hr
        obtain ⟨hn, codes, -, -, rfl, -⟩ := planNode_create hplan
        have hxid := id_of_record hs hx
        have hlisted : x ∈ s.listed := (mem_listed_iff hs).2 (by rw [hxid]; exact hx)
        exact hn (List.mem_map.2 ⟨x, hlisted, hxid.trans hid.symm⟩)
    · obtain hx | ⟨n, hn, codes, hid, hcodes, hxe, hg⟩ := hcreated id x hx
      · exact .inl hx
      · exact .inr ⟨n, hn, codes, hid, hcodes, hxe, guard_ok hg⟩
    · intro id id' x x' hx hx' hne hnetwork hslug
      obtain hx | ⟨n, hn, codes, hid, -, hxe, -⟩ := hcreated id x hx
      · obtain hx' | ⟨n', hn', codes', hid', -, hxe', -⟩ := hcreated id' x' hx'
        · exact ⟨hx, hx'⟩
        · exact absurd hslug (hother id id' x x' hx n' hn' codes' hid' hxe' hne hnetwork)
      · obtain hx' | ⟨n', hn', codes', hid', -, hxe', -⟩ := hcreated id' x' hx'
        · exact absurd hslug.symm (hother id' id x' x hx' n hn codes hid hxe hne.symm hnetwork.symm)
        · subst hxe hxe'
          have he : n = n' := eq_of_slug hnames hn hn' hnetwork hslug
          exact absurd (hid.symm.trans ((congrArg SeedNode.id he).trans hid')) hne

theorem notMem_listed (hs : s.WellFormed) (h : s.record id = none) : id ∉ s.listed.map StoreRecord.id := by
  intro hm
  obtain ⟨x, hx, rfl⟩ := List.mem_map.1 hm
  cases h.symm.trans ((mem_listed_iff hs).1 hx)

theorem record_of_notMem (hs : s.WellFormed) (h : id ∉ s.listed.map StoreRecord.id) : s.record id = none := by
  cases hx : s.record id with
  | none => rfl
  | some x =>
    have hid := id_of_record hs hx
    have hlisted : x ∈ s.listed := (mem_listed_iff hs).2 (by rw [hid]; exact hx)
    exact absurd (List.mem_map.2 ⟨x, hlisted, hid⟩) h

theorem clashes_created {n m : SeedNode} {codes : List (Option String)}
    (hnames : firstRepeated [] (nodes.map (nameKey nodes)) = none) (hn : n ∈ nodes) (hm : m ∈ nodes) :
    clashes nodes (normaliseSubmission (toRecord nodes now m codes)) n = false := by
  cases hc : clashes nodes (normaliseSubmission (toRecord nodes now m codes)) n with
  | false => rfl
  | true =>
    rw [clashes, Bool.and_eq_true, Bool.and_eq_true, decide_eq_true_eq, decide_eq_true_eq,
      decide_eq_true_eq] at hc
    obtain ⟨⟨hid, hnetwork⟩, hslug⟩ := hc
    have he : m = n := eq_of_slug hnames hm hn hnetwork hslug
    exact absurd (congrArg SeedNode.id he) hid

/-- Once a migration has gone through, running it again changes nothing and is not refused. -/
theorem migrate_again (hs : s.WellFormed) {rows : List Planned}
    (hdone : (migrate M nodes now s false).result = .ok rows) (later : Int) (dry : Bool) :
    ∃ rows', migrate M nodes later (migrate M nodes now s false).store dry =
      ⟨(migrate M nodes now s false).store, .ok rows'⟩ := by
  have hmig : Migrates M nodes now s (migrate M nodes now s false).store := migrates hs
  have hstored : check M nodes s = .ok () ∧ ∃ rows, plan M nodes now s nodes = .ok rows ∧
      putAll (rows.filterMap Planned.created) s = ((migrate M nodes now s false).store, none) := by
    unfold migrate at hdone ⊢
    cases hc : check M nodes s with
    | error e =>
      rw [hc] at hdone
      cases hdone
    | ok u =>
      cases hp : plan M nodes now s nodes with
      | error e =>
        rw [hc, hp] at hdone
        cases hdone
      | ok rows =>
        rw [hc, hp] at hdone
        refine ⟨rfl, rows, rfl, ?_⟩
        simp only [Bool.false_eq_true, if_false] at hdone ⊢
        cases hput : putAll (rows.filterMap Planned.created) s with
        | mk s' fault =>
          cases fault with
          | none => rfl
          | some e =>
            rw [hput] at hdone
            cases hdone
  obtain ⟨hc, rows, hp, hput⟩ := hstored
  generalize (migrate M nodes now s false).store = s' at hmig hput ⊢
  obtain ⟨hcodes, hnames, hclash⟩ := check_ok_iff.1 hc
  have hcheck : check M nodes s' = .ok () := by
    refine check_ok_iff.2 ⟨hcodes, hnames, fun r hr n hn => ?_⟩
    have hrecord := (mem_listed_iff hmig.wellFormed).1 hr
    obtain hold | ⟨m, hm, codes, -, -, rfl, -⟩ := hmig.created r.id r hrecord
    · exact hclash r ((mem_listed_iff hs).2 hold) n hn
    · exact clashes_created hnames hn hm
  -- what is not stored now was not stored before
  have hbefore : ∀ n : SeedNode, n.id ∉ s'.listed.map StoreRecord.id → n.id ∉ s.listed.map StoreRecord.id := by
    intro n hn
    have hnone := record_of_notMem hmig.wellFormed hn
    apply notMem_listed hs
    cases hx : s.record n.id with
    | none => rfl
    | some x => cases hnone.symm.trans (hmig.kept n.id x hx)
  have hplanned : ∀ n ∈ nodes, ∃ p, planNode M nodes later s' n = .ok p := by
    intro n hn
    apply planNode_ok
    intro hnew
    obtain ⟨p, -, hplan⟩ := plan_mem hp n hn
    unfold planNode at hplan
    rw [if_neg (hbefore n hnew)] at hplan
    cases hcode : codesOf M n with
    | error e =>
      rw [hcode] at hplan
      cases hplan
    | ok codes => exact ⟨codes, rfl⟩
  obtain ⟨rows', hrows'⟩ := plan_ok hplanned
  have hlost : ∀ rec ∈ rows'.filterMap Planned.created,
      (normaliseSubmission rec).guard = .ok () ∧ s'.loses rec.id := by
    intro rec hrec
    obtain ⟨n, hn, hplan⟩ := mem_created hrows' hrec
    obtain ⟨hnew, codes, hcode, hne, rfl, hsigned⟩ := planNode_create hplan
    have hfirst : planNode M nodes now s n = .ok (.create (toRecord nodes now n codes)) := by
      have hs₁ : hasSignedBlock (toRecord nodes now n codes) = true := hsigned
      unfold planNode
      rw [if_neg (hbefore n hnew), hcode]
      simp only [Except.map, if_neg hne, hs₁, Bool.not_true, Bool.false_eq_true, if_false]
    obtain ⟨p, hpmem, hpn⟩ := plan_mem hp n hn
    cases hfirst.symm.trans hpn
    obtain ⟨hg, hid⟩ := (putAll_done hs hput).2 _ (List.mem_filterMap.2 ⟨_, hpmem, rfl⟩)
    have hnone := record_of_notMem hmig.wellFormed hnew
    refine ⟨hg, ?_, ?_⟩
    · exact hid.resolve_right fun h => h hnone
    · by_contra hget
      exact (record_ne_none hmig.wellFormed).2 hget hnone
  refine ⟨rows', ?_⟩
  unfold migrate
  rw [hcheck, hrows']
  dsimp only
  rw [putAll_lost hlost]
  cases dry with
  | true => rfl
  | false => rfl

/-- A migration adds to the store what may be listed, and no name twice. A dry run writes nothing, and
neither does a migration that follows one which has gone through. -/
theorem migration (M : Mapping) (nodes : List SeedNode) (now : Int) (s : Store) (hs : s.WellFormed) (dry : Bool) :
    Migrates M nodes now s (migrate M nodes now s dry).store ∧
      (dry = true → (migrate M nodes now s dry).store = s) ∧
        ∀ rows, dry = false → (migrate M nodes now s dry).result = .ok rows → ∀ later again,
          ∃ rows', migrate M nodes later (migrate M nodes now s dry).store again =
            ⟨(migrate M nodes now s dry).store, .ok rows'⟩ := by
  refine ⟨migrates hs, fun hdry => ?_, fun rows hdry hdone later again => ?_⟩
  · obtain he | ⟨hno, -⟩ := migrate_store M nodes now s dry
    · exact he
    · cases hdry.symm.trans hno
  · subst hdry
    exact migrate_again hs hdone later again

/-- A node of a PayNym, and one that has none. -/
def mappedSeed : SeedNode where
  id := "mainnet-maintainer-oak"
  network := .mainnet
  name := some "Oak"
  paynym := some "+maintainer"
  signed := some "-----BEGIN BITCOIN SIGNED MESSAGE-----\n-----BEGIN BITCOIN SIGNATURE-----"

def anchorSeed : SeedNode where
  id := "mainnet-anchor"
  network := .mainnet

def someMapping : Mapping where
  entries := [("+maintainer", [some "PM8Tmaintainer", none])]

def heldListing : StoreRecord where
  id := "mainnet-elm"
  network := .mainnet
  name := some "elm"
  paymentCodes := some ["PM8Toperator"]

/-- A store with a listing of another operator. -/
def heldStore : Store := ({} : Store).keep heldListing

/-- The node of the PayNym is created beside the listing that was there, and the other node refused. -/
theorem migration_anchor :
    Migrates someMapping [mappedSeed, anchorSeed] 5 heldStore
        (migrate someMapping [mappedSeed, anchorSeed] 5 heldStore false).store ∧
      (heldStore.record "mainnet-elm").map StoreRecord.id = some "mainnet-elm" ∧
      heldStore.record "mainnet-maintainer-oak" = none ∧
      ((migrate someMapping [mappedSeed, anchorSeed] 5 heldStore false).store.record
        "mainnet-maintainer-oak").map StoreRecord.codes = some ["PM8Tmaintainer"] ∧
      (migrate someMapping [mappedSeed, anchorSeed] 5 heldStore true).store = heldStore ∧
      ∀ later again, ∃ rows, migrate someMapping [mappedSeed, anchorSeed] later
        (migrate someMapping [mappedSeed, anchorSeed] 5 heldStore false).store again =
          ⟨(migrate someMapping [mappedSeed, anchorSeed] 5 heldStore false).store, .ok rows⟩ := by
  have hs : heldStore.WellFormed := keep_wellFormed emptyStore_wellFormed
  have hdone : ((migrate someMapping [mappedSeed, anchorSeed] 5 heldStore false).result).isOk = true := by
    decide +kernel
  have hnone : (heldStore.record "mainnet-maintainer-oak").isNone = true := by decide +kernel
  obtain ⟨hmigrates, -, hagain⟩ := migration someMapping [mappedSeed, anchorSeed] 5 heldStore hs false
  refine ⟨hmigrates, by decide +kernel, Option.isNone_iff_eq_none.1 hnone, by decide +kernel,
    (migration someMapping [mappedSeed, anchorSeed] 5 heldStore hs true).2.1 rfl, ?_⟩
  cases hresult : (migrate someMapping [mappedSeed, anchorSeed] 5 heldStore false).result with
  | error e =>
    rw [hresult] at hdone
    cases hdone
  | ok rows => exact hagain rows rfl hresult

end Runs

end Mise.Server.Migrate
