import Mise.Server.Domains
import Mise.Server.Reliability
import Mise.Server.Serve

set_option autoImplicit true

namespace Mise.Server

open Js

/-- The server, and the files of the updater. -/
structure Directory where
  pool : Pool (World Event) Answer Fault Response
  files : HistoryFiles := {}
  pending : Table PendingNode := {}

structure DirectoryRules where
  gates : Gates
  seeds : List Seed
  history : HistoryRules

/-- The pending submissions of a cycle, with their checks so far. -/
def recordPending (window : Nat) (minute : Int) (probe : String → NodeProbe)
    (prev : Table PendingNode) : List StoreRecord → Table PendingNode → Table PendingNode
  | [], t => t
  | rec :: subs, t => recordPending window minute probe prev subs (t.set rec.id {
      checks := addCheck window minute { probe rec.id with holder := rec.codes }
        (match prev.find [] rec.id with
          | .own p => p.checks
          | .inherited | .absent => []) })

namespace Directory

variable (R : DirectoryRules)

def store (d : Directory) : Store := d.pool.shared.store

def records (d : Directory) : List StoreRecord :=
  d.store.submissions.values.filterMap d.store.object

/-- The published nodes, with the payment codes of each. -/
def listing (d : Directory) : Table (List String) := ownerCodes R.seeds d.records

/-- The payment codes of whoever holds the id of a published node. -/
def holder (d : Directory) (id : String) : List String :=
  match d.store.record id with
  | some rec => rec.codes
  | none => ((d.listing R).get id).getD []

/-- What `rebuild` does to the history files. -/
def rebuild (now : Int) (d : Directory) : Directory :=
  let approved := (d.records.filter StoreRecord.published).map StoreRecord.id
  { d with files := d.files.rebuild R.history (d.listing R).keys approved d.pending now }

/-- A cycle of the updater. It begins with a rebuild, and records nothing where every node has
failed. -/
def update (rebuilt now : Int) (probe : String → NodeProbe) (d : Directory) : Directory :=
  let d := d.rebuild R rebuilt
  let nodes := (d.listing R).keys.map fun id => (id, { probe id with holder := d.holder R id })
  if !nodes.isEmpty && nodes.all fun x => !x.2.up then d
  else
    let subs := d.records.filter (·.status = .pending)
    { d with
      files := d.files.update R.history nodes now
      pending := if subs.isEmpty then d.pending
        else recordPending R.history.window (now / 60000) probe d.pending subs ⟨[], List.nodup_nil⟩ }

end Directory

/-- A request that runs by itself with these answers, a rebuild, which may be that of a request, or
a cycle. -/
inductive DirectoryStep where
  | request (q : Request) (answers : List Answer)
  | rebuild (now : Int)
  | update (rebuilt now : Int) (probe : String → NodeProbe)

/-- When the parts of a step happen. -/
def DirectoryStep.times : DirectoryStep → List Int
  | request _ answers => answers.map Answer.clock
  | rebuild now => [now]
  | update rebuilt now _ => [rebuilt, now]

namespace Directory

variable (R : DirectoryRules)

def step : DirectoryStep → Directory → Directory
  | .request q answers, d =>
    let moves := .call q :: answers.map (.resume d.pool.calls.length)
    { d with pool := Pool.run (serve R.gates) d.pool moves }
  | .rebuild now, d => d.rebuild R now
  | .update rebuilt now probe, d => d.update R rebuilt now probe

def run (d : Directory) : List DirectoryStep → Directory
  | [] => d
  | st :: steps => run (step R st d) steps

/-- A directory with these sessions and no listings. -/
def opened (sessions : Table Session) : Directory where
  pool := ⟨⟨{ sessions }, []⟩, []⟩

end Directory

/-- The bucket of the id has a row that was measured for the holders `h`. -/
def MeasuredFor (holders : ρ → List (List String)) (m : Table (Bucket ρ)) (id : String)
    (h : List String) : Prop := ∃ b r, m.get id = some b ∧ r ∈ b.rows ∧ h ∈ holders r

/-- Two owners have a payment code in common. -/
def Shares (h cs : List String) : Prop := ∃ c ∈ h, c ∈ cs

namespace Directory

variable (R : DirectoryRules)

/-- A check or a day that the history files have under the id was measured for `h`. -/
def Measured (d : Directory) (id : String) (h : List String) : Prop :=
  MeasuredFor (fun r => [r.holder]) d.files.hist id h ∨
    MeasuredFor DailyRow.holders d.files.daily id h

/-- What is published under a listed id was measured while someone held it who shares a payment code
with its present owner. -/
def HistoryOwned (d : Directory) : Prop :=
  ∀ id cs h, (d.listing R).get id = some cs → d.Measured id h → Shares h cs

/-- What is kept under the id, if only for a pending submission, was measured for `h`. -/
def Kept (d : Directory) (id : String) (h : List String) : Prop :=
  d.Measured id h ∨ ∃ p, d.pending.get id = some p ∧
    ((∃ r ∈ p.checks, r.holder = h) ∨ ∃ r ∈ p.days, h ∈ r.holders)

/-- Between the two states a submission has created the record with the id, for the owner of `cs`. -/
def Created (d d' : Directory) (id : String) (cs : List String) : Prop :=
  ∃ l i actor r, d'.pool.shared.log = l ++ d.pool.shared.log ∧ .put i actor .create id r ∈ l ∧
    (d'.store.record id).map StoreRecord.codes = some cs

/-- A record is created only under an id for which nothing is kept that was measured for owners with
other payment codes, and which no seed node of theirs has. -/
def FreshIds (d d' : Directory) : Prop :=
  ∀ id cs, Created d d' id cs → (∀ h, d.Kept id h → Shares h cs) ∧
    ∀ c, (ownerCodes R.seeds []).get id = some c → Shares cs c

/-- Every submission of a run finds its id free. -/
def FindsFreshIds (d : Directory) : List DirectoryStep → Prop
  | [] => True
  | st :: steps => d.FreshIds R (step R st d) ∧ FindsFreshIds (step R st d) steps

end Directory

section Measures

variable {m : Table (Bucket ρ)} {holders : ρ → List (List String)} {id : String} {h : List String}

theorem measured_retire (hm : MeasuredFor holders (retireUnlisted listed now grace m) id h) :
    MeasuredFor holders m id h := by
  obtain ⟨b, r, hb, hr, hh⟩ := hm
  rw [get_retireUnlisted, Option.bind_eq_some_iff] at hb
  obtain ⟨b₀, hb₀, hb⟩ := hb
  have hrows : b.rows = b₀.rows := by
    unfold Bucket.retire at hb
    split at hb
    · cases hb; rfl
    · split at hb
      · cases hb; rfl
      · split at hb
        · cases hb
        · cases hb; rfl
  exact ⟨b₀, r, hb₀, hrows ▸ hr, hh⟩

theorem seedBuckets_cases (seed : String → List ρ) (ids : List String) (m : Table (Bucket ρ))
    (hb : (seedBuckets seed ids m).get id = some b) : m.get id = some b ∨ b.rows = seed id := by
  induction ids generalizing m with
  | nil => exact .inl hb
  | cons k ids ih =>
    obtain hb | hb := ih _ hb
    · split at hb
      · exact .inl hb
      · rw [Table.get_set] at hb
        split at hb
        · next hk =>
          cases hb
          exact .inr (by rw [hk])
        · exact .inl hb
    · exact .inr hb

theorem measured_rebuild (hm : MeasuredFor holders (rebuildHistory seed ids now grace m) id h) :
    MeasuredFor holders m id h ∨ ∃ r ∈ seed id, h ∈ holders r := by
  obtain ⟨b, r, hb, hr, hh⟩ := measured_retire hm
  obtain hb | hb := seedBuckets_cases seed ids m hb
  · exact .inl ⟨b, r, hb, hr, hh⟩
  · exact .inr ⟨r, hb ▸ hr, hh⟩

theorem mem_rowsOf (hr : r ∈ rowsOf m id) : ∃ b, m.get id = some b ∧ r ∈ b.rows := by
  rw [rowsOf] at hr
  obtain ⟨b, hf, hb⟩ | ⟨hf, -⟩ | ⟨hf, -⟩ := Table.find_cases [] m id
  · rw [hf] at hr
    exact ⟨b, hb, hr⟩
  · rw [hf] at hr
    cases hr
  · rw [hf] at hr
    cases hr

theorem copyRest_cases (rest : List (String × Bucket ρ)) (t : Table (Bucket ρ))
    (hb : (copyRest rest t).get id = some b) : t.get id = some b ∨ (id, b) ∈ rest := by
  induction rest generalizing t with
  | nil => exact .inl hb
  | cons x rest ih =>
    obtain hb | hb := ih _ hb
    · split at hb
      · exact .inl hb
      · rw [Table.get_set] at hb
        split at hb
        · next hk =>
          cases hb
          exact .inr (by rw [hk]; exact List.mem_cons_self)
        · exact .inl hb
    · exact .inr (List.mem_cons_of_mem _ hb)

theorem measured_record {record : NodeProbe → List ρ → List ρ}
    (hrecord : ∀ x l r, r ∈ record x l → ∀ h ∈ holders r, h = x.holder ∨ ∃ r' ∈ l, h ∈ holders r')
    (hm : MeasuredFor holders (recordHistory record nodes now grace m) id h) :
    MeasuredFor holders m id h ∨ ∃ x, (id, x) ∈ nodes ∧ h = x.holder := by
  obtain ⟨b, r, hb, hr, hh⟩ := measured_retire hm
  obtain hb | hb := copyRest_cases _ _ hb
  · obtain ⟨-, hg⟩ | ⟨x, hx, hg⟩ := get_recordNodes record m id nodes ⟨[], List.nodup_nil⟩
    · cases (hg.symm.trans hb)
    · cases hb.symm.trans hg
      obtain hh | ⟨r', hr', hh⟩ := hrecord x _ r hr h hh
      · exact .inr ⟨x, hx, hh⟩
      · obtain ⟨b', hb', hr'⟩ := mem_rowsOf hr'
        exact .inl ⟨b', r', hb', hr', hh⟩
  · exact .inl ⟨b, r, Table.get_of_mem hb, hr, hh⟩

theorem holder_addCheck (hr : r ∈ addCheck window minute x l) : r.holder = x.holder ∨ r ∈ l := by
  obtain hr | hr := List.mem_append.1 (List.mem_of_mem_drop hr)
  · exact .inr hr
  · rw [List.mem_singleton.1 hr]
    exact .inl rfl

theorem holders_countDay (hr : r ∈ countDay today x l) (hh : h ∈ r.holders) :
    h = x.holder ∨ ∃ r' ∈ l, h ∈ r'.holders := by
  induction l with
  | nil =>
    rw [List.mem_singleton.1 hr] at hh
    exact .inl (List.mem_singleton.1 hh)
  | cons rec days ih =>
    cases days with
    | nil =>
      rw [countDay] at hr
      split at hr
      · rw [List.mem_singleton.1 hr] at hh
        exact (List.mem_cons.1 hh).imp_right fun hh => ⟨rec, List.mem_cons_self, hh⟩
      · obtain rfl | hr := List.mem_cons.1 hr
        · exact .inr ⟨_, List.mem_cons_self, hh⟩
        · rw [List.mem_singleton.1 hr] at hh
          exact .inl (List.mem_singleton.1 hh)
    | cons rec' days =>
      rw [countDay] at hr
      · obtain rfl | hr := List.mem_cons.1 hr
        · exact .inr ⟨_, List.mem_cons_self, hh⟩
        · obtain hh | ⟨r', hr', hh⟩ := ih hr
          · exact .inl hh
          · exact .inr ⟨r', List.mem_cons_of_mem _ hr', hh⟩
      · exact List.cons_ne_nil _ _

end Measures

section Owners

variable {id : String}

theorem get_foldl_set (k : β → String) (v : β → γ) (l : List β) (t : Table γ)
    (h : (l.foldl (fun t x => t.set (k x) (v x)) t).get id = some c) :
    t.get id = some c ∨ ∃ x ∈ l, k x = id ∧ v x = c := by
  induction l generalizing t with
  | nil => exact .inl h
  | cons x l ih =>
    obtain h | ⟨y, hy, hk⟩ := ih _ h
    · rw [Table.get_set] at h
      split at h
      · next hk =>
        cases h
        exact .inr ⟨x, List.mem_cons_self, hk.symm, rfl⟩
      · exact .inl h
    · exact .inr ⟨y, List.mem_cons_of_mem _ hy, hk⟩

theorem ownerCodes_cases {seeds : List Seed} {subs : List StoreRecord}
    (h : (ownerCodes seeds subs).get id = some cs) :
    (ownerCodes seeds []).get id = some cs ∨
      ∃ rec ∈ subs, rec.published = true ∧ rec.id = id ∧ rec.codes = cs := by
  obtain h | ⟨rec, hrec, hid, hcs⟩ := get_foldl_set StoreRecord.id StoreRecord.codes _ _ h
  · exact .inl h
  · obtain ⟨hrec, hp⟩ := List.mem_filter.1 hrec
    exact .inr ⟨rec, hrec, hp, hid, hcs⟩

theorem ownerCodes_ne_nil {seeds : List Seed} {subs : List StoreRecord}
    (h : (ownerCodes seeds subs).get id = some cs) : cs ≠ [] := by
  obtain h | ⟨rec, -, hp, -, rfl⟩ := ownerCodes_cases h
  · obtain h | ⟨n, hn, -, rfl⟩ := get_foldl_set Seed.id (fun n => n.paymentCode.toList) _ _ h
    · cases h
    · have hcode := (Bool.and_eq_true_iff.1 (List.mem_filter.1 hn).2).1
      cases hpc : n.paymentCode with
      | none =>
        rw [hpc] at hcode
        cases hcode
      | some c => exact List.cons_ne_nil _ _
  · simp only [StoreRecord.published, Bool.and_eq_true, decide_eq_true_eq] at hp
    exact hp.1.2

theorem Held.stored {s : Store} (hs : s.WellFormed) {l l₀ : List Event} (h : Held s i id cs q (l ++ l₀))
    (hl : Legal s (l ++ l₀)) (hold : ∀ e ∈ l₀, e.request ≠ i) :
    ∃ l₁ l₂ rec, l = l₁ ++ .saw i id q :: l₂ ∧ stored s id (l₂ ++ l₀) = some rec ∧ rec.codes = cs := by
  have hsaw : .saw i id q ∈ l := (List.mem_append.1 h.1).resolve_right fun hm => hold _ hm rfl
  obtain ⟨l₁, l₂, rfl⟩ := List.append_of_mem hsaw
  have hl₁ : Legal s ((l₁ ++ [.saw i id q]) ++ (l₂ ++ l₀)) := by simpa using hl
  have hslot : slot s id (l₂ ++ l₀) = some q := (Legal.allowed (e := .saw i id q) (m := l₁)
    (by simpa using hl)).1
  obtain ⟨rec, hrec, hid⟩ := hl₁.suffix.stored hs hslot
  have hcoded : Coded s q id rec.codes ((l₁ ++ [.saw i id q]) ++ (l₂ ++ l₀)) :=
    Coded.mono ⟨rec, hrec, hid, rfl⟩ hl₁
  have hcs : Coded s q id cs ((l₁ ++ [.saw i id q]) ++ (l₂ ++ l₀)) := by simpa using h.2
  exact ⟨l₁, l₂, rec, rfl, by rw [Server.stored, hslot]; exact hrec, hcoded.codes_eq hcs⟩

/-- A record that is stored after a request is one that was stored with the same payment codes
before, or one that the request has created. -/
theorem created_or_kept {s : Store} (hs : s.WellFormed) {l₀ : List Event} {i : Nat}
    (hold : ∀ e ∈ l₀, e.request ≠ i) {l : List Event} (h : Legal s (l ++ l₀))
    (hnew : ∀ e ∈ l, e.request = i) :
    ∀ l', l' <:+ l → ∀ id rec, stored s id (l' ++ l₀) = some rec →
      (∃ rec₀, stored s id l₀ = some rec₀ ∧ rec₀.codes = rec.codes) ∨
        ∃ actor r, .put i actor .create id r ∈ l' := by
  induction l with
  | nil =>
    intro l' hl' id rec hrec
    rw [List.suffix_nil.1 hl'] at hrec
    exact .inl ⟨rec, hrec, rfl⟩
  | cons e l ih =>
    have hlegal : Legal s (l ++ l₀) := Legal.suffix (m := [e]) h
    have ih := ih hlegal fun e' he' => hnew e' (List.mem_cons_of_mem _ he')
    intro l' hl' id rec hrec
    obtain rfl | hl' := List.suffix_cons_iff.1 hl'
    · obtain ⟨r, hr, hrec⟩ := Option.bind_eq_some_iff.1 hrec
      have hallowed : Allowed s (l ++ l₀) e := Legal.allowed (m := []) h
      have hlift (h : ∃ rec', stored s id (l ++ l₀) = some rec' ∧ rec'.codes = rec.codes) :
          (∃ rec₀, stored s id l₀ = some rec₀ ∧ rec₀.codes = rec.codes) ∨
            ∃ actor r, .put i actor .create id r ∈ e :: l := by
        obtain ⟨rec', hrec', hcodes⟩ := h
        obtain ⟨rec₀, h₀, hcodes₀⟩ | ⟨actor, r, hput⟩ := ih l List.suffix_rfl id rec' hrec'
        · exact .inl ⟨rec₀, h₀, hcodes₀.trans hcodes⟩
        · exact .inr ⟨actor, r, List.mem_cons_of_mem _ hput⟩
      by_cases hplaced : ∃ q, e.placed = some (id, q)
      · obtain ⟨q, hq⟩ := hplaced
        cases e with
        | put j actor purpose k q' =>
          cases hq
          have hslot : slot s id (.put j actor purpose id q' :: (l ++ l₀)) = some q' := by
            rw [slot]
            exact if_pos rfl
          cases hr.symm.trans hslot
          obtain ⟨-, ⟨cs, hcoded, hpurpose⟩, -⟩ := hallowed
          have hcs : rec.codes = cs :=
            Coded.codes_eq ⟨rec, hrec, rfl, rfl⟩ (hcoded.mono (m := [_]) h)
          have hj : j = i := hnew _ List.mem_cons_self
          subst hj
          obtain rfl | ⟨q, hheld, -⟩ := hpurpose
          · exact .inr ⟨actor, r, List.mem_cons_self⟩
          · -- the request has seen the record that it stores again
            obtain ⟨l₁, l₂, recq, rfl, hstored, hcq⟩ := hheld.stored hs hlegal hold
            obtain ⟨rec₀, h₀, hc₀⟩ | ⟨actor', r', hput⟩ :=
              ih l₂ ⟨l₁ ++ [.saw j id q], by simp⟩ id recq hstored
            · exact .inl ⟨rec₀, h₀, hc₀.trans (hcq.trans hcs.symm)⟩
            · exact .inr ⟨actor', r', by simp [hput]⟩
        | deleted j actor k =>
          cases hq
          rw [List.cons_append, slot] at hr
          simp only [Event.placed, if_pos] at hr
          cases hr
        | _ => cases hq
      · have hslot : slot s id (l ++ l₀) = some r :=
          (slot_cons id e (l ++ l₀) fun q hq => hplaced ⟨q, hq⟩).symm.trans hr
        obtain ⟨rec', hrec', -⟩ := hlegal.stored hs hslot
        refine hlift ⟨rec', by rw [stored, hslot]; exact hrec', ?_⟩
        obtain ⟨rec'', hrec'', -, hcodes⟩ := Legal.keeps (m := [e]) h hrec'
        cases hrec.symm.trans hrec''
        exact hcodes.symm
    · exact ih l' hl' id rec hrec

end Owners

section Steps

variable {R : DirectoryRules} {d d' : Directory} {id : String} {h cs : List String}

/-- The payment codes of a record or of a seed node with the id. -/
def Directory.Claimant (R : DirectoryRules) (d : Directory) (id : String) (cs : List String) : Prop :=
  (∃ rec, d.store.record id = some rec ∧ rec.codes = cs) ∨
    (ownerCodes R.seeds []).get id = some cs

/-- Whatever is kept under an id was measured for owners who share a payment code with a record or
a seed node that has it. -/
structure Directory.Owned (R : DirectoryRules) (s : Store) (hs : s.WellFormed) (d : Directory) :
    Prop where
  good : (serveContract s hs R.gates).Good d.pool
  rows : ∀ id cs h, d.Claimant R id cs → d.Kept id h → cs = [] ∨ Shares h cs
  seeds : ∀ id rec cs, d.store.record id = some rec →
    (ownerCodes R.seeds []).get id = some cs → Shares rec.codes cs

theorem record_eq_stored {s : Store} {w : World Event} (h : Tracks s w) (id : String) :
    w.store.record id = stored s id w.log := by
  rw [Store.record, h.slots, stored]
  cases slot s id w.log with
  | none => rfl
  | some r => exact h.objects r

theorem mem_records {s : Store} (hs : s.WellFormed) (ht : Tracks s d.pool.shared)
    (hrec : rec ∈ d.records) : d.store.record rec.id = some rec := by
  obtain ⟨r, hr, hobj⟩ := List.mem_filterMap.1 hrec
  obtain ⟨⟨k, r'⟩, hm, rfl⟩ := List.mem_map.1 hr
  have hget : d.store.submissions.get k = some r' := Table.get_of_mem hm
  obtain ⟨rec', hrec', hid⟩ := ht.legal.stored hs ((ht.slots k).symm.trans hget)
  cases hobj.symm.trans ((ht.objects r').trans hrec')
  rw [Store.record, hid, hget]
  exact hobj

theorem Directory.Owned.request {s : Store} {hs : s.WellFormed} (hd : d.Owned R s hs) (q : Request)
    (answers : List Answer) (hf : d.FreshIds R (d.step R (.request q answers))) :
    (d.step R (.request q answers)).Owned R s hs := by
  have ht := hd.good.pre.1.toTracks
  have hgood : (serveContract s hs R.gates).Good (d.step R (.request q answers)).pool :=
    hd.good.run fun _ _ => trivial
  have ht' := hgood.pre.1.toTracks
  obtain ⟨l, hl, hnew, -⟩ := hd.good.alone (c := q) trivial (ServeGuarantee.refl s R.gates)
    (fun h h' => h.trans h') answers
  have hrecord : ∀ id rec, (d.step R (.request q answers)).store.record id = some rec →
      (∃ rec₀, d.store.record id = some rec₀ ∧ rec₀.codes = rec.codes) ∨
        d.Created (d.step R (.request q answers)) id rec.codes := by
    intro id rec hrec
    have hst : stored s id (l ++ d.pool.shared.log) = some rec := by
      rw [← hl]
      exact (record_eq_stored ht' id).symm.trans hrec
    obtain ⟨rec₀, h₀, hc⟩ | ⟨actor, r, hput⟩ := created_or_kept hs hd.good.pre.2
      (hl ▸ ht'.legal) hnew l List.suffix_rfl id rec hst
    · exact .inl ⟨rec₀, (record_eq_stored ht id).trans h₀, hc⟩
    · exact .inr ⟨l, _, actor, r, hl, hput, congrArg (Option.map StoreRecord.codes) hrec⟩
  refine ⟨hgood, fun id cs h hc hk => ?_, fun id rec cs hrec hseed => ?_⟩
  · obtain ⟨rec, hrec, rfl⟩ | hseed := hc
    · obtain ⟨rec₀, h₀, hcodes⟩ | hcreated := hrecord id rec hrec
      · exact hd.rows id rec.codes h (.inl ⟨rec₀, h₀, hcodes⟩) hk
      · exact .inr ((hf id rec.codes hcreated).1 h hk)
    · exact hd.rows id cs h (.inr hseed) hk
  · obtain ⟨rec₀, h₀, hcodes⟩ | hcreated := hrecord id rec hrec
    · exact hcodes ▸ hd.seeds id rec₀ cs h₀ hseed
    · exact (hf id rec.codes hcreated).2 cs hseed

/-- What is new was measured for whoever holds the id. -/
def Directory.Holds (R : DirectoryRules) (d : Directory) (id : String) (h : List String) : Prop :=
  (∃ rec, d.store.record id = some rec ∧ rec.codes = h) ∨
    (d.store.record id = none ∧ (ownerCodes R.seeds []).get id = some h)

theorem Directory.Owned.shares {s : Store} {hs : s.WellFormed} (hd : d.Owned R s hs)
    (hh : d.Holds R id h) (hc : d.Claimant R id cs) : cs = [] ∨ Shares h cs := by
  have hself : cs = [] ∨ Shares cs cs := by
    cases cs with
    | nil => exact .inl rfl
    | cons c cs => exact .inr ⟨c, List.mem_cons_self, List.mem_cons_self⟩
  obtain ⟨rec, hrec, rfl⟩ | ⟨hnone, hseed⟩ := hh
  · obtain ⟨rec', hrec', rfl⟩ | hseed := hc
    · cases hrec.symm.trans hrec'
      exact hself
    · exact .inr (hd.seeds id rec cs hrec hseed)
  · obtain ⟨rec, hrec, -⟩ | hseed' := hc
    · cases hnone.symm.trans hrec
    · cases hseed.symm.trans hseed'
      exact hself

theorem Directory.Owned.files {s : Store} {hs : s.WellFormed} (hd : d.Owned R s hs)
    (hp : d'.pool = d.pool) (hk : ∀ id h, d'.Kept id h → d.Kept id h ∨ d.Holds R id h) :
    d'.Owned R s hs := by
  have hst : d'.store = d.store := congrArg (fun p => p.shared.store) hp
  constructor
  · rw [hp]
    exact hd.good
  · intro id cs h hc hkept
    rw [Directory.Claimant, hst] at hc
    obtain hkept | hholds := hk id h hkept
    · exact hd.rows id cs h hc hkept
    · exact hd.shares hholds hc
  · rw [hst]
    exact hd.seeds

theorem kept_rebuild (now : Int) (hk : (d.rebuild R now).Kept id h) : d.Kept id h := by
  have hseed {pending : Table PendingNode} {approved : List String} :
      (∀ r ∈ HistoryFiles.seedChecks approved pending id, ∃ p, pending.get id = some p ∧ r ∈ p.checks) ∧
      ∀ r ∈ HistoryFiles.seedDays approved pending id, ∃ p, pending.get id = some p ∧ r ∈ p.days := by
    rw [HistoryFiles.seedChecks, HistoryFiles.seedDays]
    obtain ⟨p, hf, hp⟩ | ⟨hf, -⟩ | ⟨hf, -⟩ := Table.find_cases [] pending id
    · rw [hf]
      dsimp only
      split
      · exact ⟨fun r hr => ⟨p, hp, hr⟩, fun r hr => ⟨p, hp, hr⟩⟩
      · exact ⟨fun r hr => (List.not_mem_nil hr).elim, fun r hr => (List.not_mem_nil hr).elim⟩
    · rw [hf]
      exact ⟨fun r hr => (List.not_mem_nil hr).elim, fun r hr => (List.not_mem_nil hr).elim⟩
    · rw [hf]
      exact ⟨fun r hr => (List.not_mem_nil hr).elim, fun r hr => (List.not_mem_nil hr).elim⟩
  obtain (hm | hm) | hp := hk
  · obtain hm | ⟨r, hr, hh⟩ := measured_rebuild hm
    · exact .inl (.inl hm)
    · obtain ⟨p, hp, hr⟩ := hseed.1 r hr
      exact .inr ⟨p, hp, .inl ⟨r, hr, (List.mem_singleton.1 hh).symm⟩⟩
  · obtain hm | ⟨r, hr, hh⟩ := measured_rebuild hm
    · exact .inl (.inr hm)
    · obtain ⟨p, hp, hr⟩ := hseed.2 r hr
      exact .inr ⟨p, hp, .inr ⟨r, hr, hh⟩⟩
  · exact .inr hp

theorem recordPending_cases {prev : Table PendingNode} (subs : List StoreRecord)
    (t : Table PendingNode)
    (hp : (recordPending window minute probe prev subs t).get id = some p) :
    t.get id = some p ∨ (p.days = [] ∧ ∃ rec ∈ subs, rec.id = id ∧
      ∀ r ∈ p.checks, r.holder = rec.codes ∨ ∃ p', prev.get id = some p' ∧ r ∈ p'.checks) := by
  induction subs generalizing t with
  | nil => exact .inl hp
  | cons rec subs ih =>
    obtain hp | ⟨hdays, rec', hrec', hid, hr⟩ := ih _ hp
    · rw [Table.get_set] at hp
      split at hp
      · next hk =>
        cases hp
        refine .inr ⟨rfl, rec, List.mem_cons_self, hk.symm, fun r hr => ?_⟩
        obtain hr | hr := holder_addCheck hr
        · exact .inl hr
        · obtain ⟨p', hf, hp'⟩ | ⟨hf, -⟩ | ⟨hf, -⟩ := Table.find_cases [] prev rec.id
          · rw [hf] at hr
            exact .inr ⟨p', hk ▸ hp', hr⟩
          · rw [hf] at hr
            cases hr
          · rw [hf] at hr
            cases hr
      · exact .inl hp
    · exact .inr ⟨hdays, rec', List.mem_cons_of_mem _ hrec', hid, hr⟩

theorem listed_holds {s : Store} (hs : s.WellFormed) (ht : Tracks s d.pool.shared)
    (hid : id ∈ (d.listing R).keys) : d.Holds R id (d.holder R id) := by
  rw [Directory.Holds, Directory.holder]
  cases hrec : d.store.record id with
  | some rec => exact .inl ⟨rec, rfl, rfl⟩
  | none =>
    obtain ⟨⟨k, cs⟩, hm, rfl⟩ := List.mem_map.1 hid
    have hget : (d.listing R).get k = some cs := Table.get_of_mem hm
    refine .inr ⟨rfl, ?_⟩
    rw [hget]
    obtain hseed | ⟨rec, hmem, -, hid, -⟩ := ownerCodes_cases hget
    · exact hseed
    · cases hrec.symm.trans (hid ▸ mem_records hs ht hmem)

theorem Directory.Owned.update {s : Store} {hs : s.WellFormed} (hd : d.Owned R s hs)
    (rebuilt now : Int) (probe : String → NodeProbe) : (d.update R rebuilt now probe).Owned R s hs := by
  have hr : (d.rebuild R rebuilt).Owned R s hs := hd.files rfl fun id h hk => .inl (kept_rebuild _ hk)
  have ht : Tracks s (d.rebuild R rebuilt).pool.shared := hr.good.pre.1.toTracks
  rw [Directory.update]
  generalize d.rebuild R rebuilt = d at hr ht ⊢
  dsimp only
  split
  · exact hr
  · have hnode : ∀ {id x}, (id, x) ∈ ((d.listing R).keys.map fun id =>
        (id, { probe id with holder := d.holder R id })) → d.Holds R id x.holder := by
      intro id x hx
      obtain ⟨id', hid, he⟩ := List.mem_map.1 hx
      cases he
      exact listed_holds hs ht hid
    refine hr.files rfl fun id h hk => ?_
    obtain (hm | hm) | ⟨p, hp, hk⟩ := hk
    · refine (measured_record (fun x l r hr h hh => ?_) hm).imp (fun hm => .inl (.inl hm)) ?_
      · rw [List.mem_singleton.1 hh]
        exact (holder_addCheck hr).imp_right fun hr => ⟨r, hr, List.mem_singleton_self _⟩
      · rintro ⟨x, hx, rfl⟩
        exact hnode hx
    · refine (measured_record (fun x l r hr h hh => ?_) hm).imp (fun hm => .inl (.inr hm)) ?_
      · exact holders_countDay (List.mem_of_mem_drop hr) hh
      · rintro ⟨x, hx, rfl⟩
        exact hnode hx
    · split at hp
      · exact .inl (.inr ⟨p, hp, hk⟩)
      · obtain hp | ⟨hdays, rec, hrec, hid, hchecks⟩ := recordPending_cases _ _ hp
        · cases hp
        · obtain ⟨r, hr, rfl⟩ | ⟨r, hr, -⟩ := hk
          · obtain hr | ⟨p', hp', hr⟩ := hchecks r hr
            · refine .inr (.inl ⟨rec, ?_, hr.symm⟩)
              exact hid ▸ mem_records hs ht (List.mem_filter.1 hrec).1
            · exact .inl (.inr ⟨p', hp', .inl ⟨r, hr, rfl⟩⟩)
          · rw [hdays] at hr
            cases hr

end Steps

section Runs

variable {R : DirectoryRules}

theorem noListings_wellFormed (sessions : Table Session) : ({ sessions } : Store).WellFormed where
  stored id r h := by cases h
  normal r rec h := by cases h

theorem not_kept {d : Directory} {id : String} {h : List String} (hf : d.files = {}) (hp : d.pending = {}) : ¬ d.Kept id h := by
  rw [Directory.Kept, Directory.Measured, hf, hp]
  rintro ((⟨b, r, hb, -⟩ | ⟨b, r, hb, -⟩) | ⟨p, hp, -⟩)
  · cases hb
  · cases hb
  · cases hp

theorem step_update (R : DirectoryRules) (d : Directory) (rebuilt now : Int)
    (probe : String → NodeProbe) : (d.step R (.update rebuilt now probe)).pool = d.pool := by
  rw [Directory.step, Directory.update]
  dsimp only
  split <;> rfl

theorem step_request (R : DirectoryRules) (d : Directory) (q : Request) (answers : List Answer) :
    (d.step R (.request q answers)).files = d.files ∧
      (d.step R (.request q answers)).pending = d.pending := ⟨rfl, rfl⟩

/-- Only a request creates records. -/
theorem freshIds_files {d d' : Directory} (hp : d'.pool = d.pool) : d.FreshIds R d' := by
  rintro id cs ⟨l, i, actor, r, hl, hput, -⟩
  rw [hp, List.self_eq_append_left] at hl
  rw [hl] at hput
  cases hput

theorem Directory.Owned.opened (R : DirectoryRules) (sessions : Table Session) :
    (Directory.opened sessions).Owned R { sessions } (noListings_wellFormed sessions) where
  good := Pool.Contract.Good.start _ fun _ => ⟨.start _ _, fun _ he => (List.not_mem_nil he).elim⟩
  rows id cs h hc hk := absurd hk (not_kept rfl rfl)
  seeds id rec cs hrec := by cases hrec

theorem Directory.Owned.run {d : Directory} {s : Store} {hs : s.WellFormed} (hd : d.Owned R s hs)
    (steps : List DirectoryStep) (hf : d.FindsFreshIds R steps) : (d.run R steps).Owned R s hs := by
  induction steps generalizing d with
  | nil => exact hd
  | cons st steps ih =>
    obtain ⟨hst, hf⟩ := hf
    refine ih ?_ hf
    cases st with
    | request q answers => exact hd.request q answers hst
    | rebuild now => exact hd.files rfl fun id h hk => .inl (kept_rebuild now hk)
    | update rebuilt now probe => exact hd.update rebuilt now probe

/-- As long as every submission of a new listing finds nothing kept under its id that was measured
for owners of other payment codes, reliability history belongs to its operator. -/
theorem history_owned (R : DirectoryRules) (sessions : Table Session) (steps : List DirectoryStep)
    (hf : (Directory.opened sessions).FindsFreshIds R steps) :
    ((Directory.opened sessions).run R steps).HistoryOwned R := by
  have hd := (Directory.Owned.opened R sessions).run steps hf
  intro id cs h hlisted hm
  have hc : ((Directory.opened sessions).run R steps).Claimant R id cs := by
    obtain hseed | ⟨rec, hmem, -, hid, hcs⟩ := ownerCodes_cases hlisted
    · exact .inr hseed
    · exact .inl ⟨rec, hid ▸ mem_records (noListings_wellFormed sessions) hd.good.pre.1.toTracks hmem, hcs⟩
  exact (hd.rows id cs h hc (.inl hm)).resolve_left (ownerCodes_ne_nil hlisted)

end Runs

section Instance

/-- No curated nodes, and a grace period of fourteen days. -/
def lenientDirectory : DirectoryRules where
  gates := Gates.lenient
  seeds := []
  history := { grace := 14 * 86400000, window := 144, retention := 90 }

/-- A request of the session, with every answer it waits for. -/
def fullRequest (route : Route) (sid : String) : DirectoryStep :=
  .request ⟨route, sid, some (listingBody "http://node.onion")⟩
    (List.replicate 60 { clock := 1, probe := { up := true } })

def firstListing : List DirectoryStep :=
  [fullRequest .submit "alice", fullRequest .approve "maintainer", .update 1 1 fun _ => { up := true }]

theorem history_owned_first :
    ((Directory.opened someSessions).run lenientDirectory firstListing).HistoryOwned
      lenientDirectory := by
  refine history_owned lenientDirectory someSessions firstListing ⟨?_, ?_, ?_, trivial⟩
  · exact fun id cs _ => ⟨fun h hk => absurd hk (not_kept rfl rfl), nofun⟩
  · obtain ⟨hf, hp⟩ := step_request lenientDirectory (Directory.opened someSessions) _ _
    exact fun id cs _ => ⟨fun h hk => absurd hk (not_kept hf hp), nofun⟩
  · exact freshIds_files (step_update _ _ _ _ _)

/-- The second operator takes the name after the first has deleted the listing. -/
def secondOwner : List DirectoryStep :=
  firstListing ++ [fullRequest .delete "alice", fullRequest .submit "bob",
    fullRequest .approve "maintainer", .rebuild 1]

def inherited : Directory := (Directory.opened someSessions).run lenientDirectory secondOwner

/-- The rows of the first operator are published under the listing of the second. -/
theorem history_changes_hands :
    ¬ ∀ (R : DirectoryRules) (sessions : Table Session) (steps : List DirectoryStep),
      (steps.flatMap DirectoryStep.times).Pairwise (· ≤ ·) →
      ((Directory.opened sessions).run R steps).HistoryOwned R := by
  intro h
  have htimes : ∀ t ∈ secondOwner.flatMap DirectoryStep.times, t = 1 := by decide +kernel
  have howned := h lenientDirectory someSessions secondOwner
    (List.pairwise_of_forall_mem_list fun t ht t' ht' => Int.le_of_eq ((htimes t ht).trans (htimes t' ht').symm))
  have hlisted : (inherited.listing lenientDirectory).get "mainnet-dojo" = some ["PM8Tbobby"] := by
    decide +kernel
  have hrows : (inherited.files.hist.get "mainnet-dojo").map Bucket.rows =
      some [⟨0, true, ["PM8Talice"]⟩] := by decide +kernel
  obtain ⟨b, hb, hr⟩ := Option.map_eq_some_iff.1 hrows
  obtain ⟨c, hc, hc'⟩ := howned "mainnet-dojo" _ ["PM8Talice"] hlisted
    (.inl ⟨b, _, hb, hr ▸ List.mem_singleton_self _, List.mem_singleton_self _⟩)
  rw [List.mem_singleton.1 hc] at hc'
  simp at hc'

end Instance

end Mise.Server
