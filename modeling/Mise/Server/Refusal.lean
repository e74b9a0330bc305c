import Mise.Async.Alone
import Mise.Server.FiniteMap
import Mise.Server.Serve

set_option autoImplicit true

namespace Mise.Server

open Js Async

/-- The submissions, as they are held in memory and as `persist` writes them to the file. -/
def Store.records (s : Store) : List (String × Option StoreRecord) :=
  s.submissions.entries.map fun x => (x.1, s.object x.2)

/-- An operation on another table than the submissions. -/
def Op.aside : Op → Bool
  | putSubmission _ | getSubmission _ | pruneRejected _ _ | deleteSubmission _ => false
  | _ => true

/-- The submissions in memory are what they were, and so are those in the file, whatever operations
on other tables write it. -/
def Unchanged (s s' : Store) : Prop :=
  s'.records = s.records ∧ ∀ (maxAge : Int) (ops : List Op), (∀ o ∈ ops, o.aside) →
    (ops.foldl (fun t o => (t.step maxAge o).2) s').records = s.records

/-- Whether a request was answered with an error, or threw. -/
def refused : Except Fault Response → Bool
  | .ok r => 400 ≤ r.code
  | .error _ => true

/-- The answers that a request can get: any, or those of file operations that succeed. -/
def Answers (files : Bool) (a : Answer) : Prop := files → a.ok

/-- However the request goes, it changes no submission where it is refused. -/
def Intact (g : Gates) (files : Bool) (s : Store) (i : Nat) (q : Request) : Prop :=
  ∀ as, (∀ a ∈ as, Answers files a) → ∀ r w, (q.handler g i).alone as ⟨s, []⟩ = some (r, w) →
    refused r → Unchanged s w.store

section Conditions

variable (g : Gates) (s : Store)

/-- The payment code of a session, where there is such a session. -/
def Store.holder (sid : String) : Option (Option String) :=
  if sid = "" then none
  else match s.sessions.find s.prototype sid with
    | .own sess => some sess.paymentCode
    | .inherited => some none
    | .absent => none

/-- The body names the record `rec`, which lies at `r` under `k`. -/
def Store.Names (body : Json) (k : String) (r : Nat) (rec : StoreRecord) : Prop :=
  (propertyKey =<< body.get "id") = .ok k ∧ s.submissions.get k = some r ∧ s.object r = some rec

/-- A maintainer's session. -/
def Store.Maintains (sid : String) : Prop :=
  ∃ c, s.holder sid = some (some c) ∧ c ≠ "" ∧ c ∈ g.admins

/-- `String(body[k] || "")` -/
def textIn (k : String) (body : Json) : Except Throw String := do (orEmpty (← body.get k)).text

/-- The name that a body gives. -/
def nameIn (body : Json) : Except Throw String := do
  return slice 40 (trim (← textIn "name" body))

/-- No other record has the name. -/
def Store.Free (rec : StoreRecord) (slug : String) : Prop :=
  ∀ r ∈ s.submissions.values, ∀ other, s.object r = some other →
    other.id = rec.id ∨ other.named rec.network slug = false

/-- The record passes the guards of `putSubmission`. -/
def StoreRecord.Storable (rec : StoreRecord) : Prop := rec.guard = .ok ()

/-- An edit that passes its checks comes to its end, or changes only the name, to what it is. -/
def EditSafe (files : Bool) (rec : StoreRecord) (body : Json) : Prop :=
  ∀ name, nameIn body = .ok name → slugify name ≠ "" → s.Free rec (slugify name) →
    match textIn "hardware" body with
    | .ok _ => files ∧ rec.Storable
    | .error _ => rec.name = some name

/-- The pairing details of a body pass the gates, which take them for those of a node on the network
`listed` and the block for one that was signed on `signing`. -/
def Attests (body : Json) (listed signing : Network) (pc : Option String) (block : String) : Prop :=
  ∃ payload given, body.get "payload" = .ok payload ∧
    g.validatePayload payload listed = .ok none ∧
    (cleanSigned =<< body.get "signed") = .ok (some given) ∧
    block = (g.repairSignedBlock given).getD given ∧
    g.verifySignedPayload block payload pc signing = none

/-- The record that the holder of `pc` updates by a submission under the name. -/
def Store.ownedRecordFor (network : Network) (slug : String) (pc : Option String) : Option Nat :=
  s.submissions.values.find? fun r => (s.object r).any fun rec =>
    rec.named network slug && owns rec pc

/-- A record of a submission, before it is normalised: what the guards see of it. -/
def submitted (network : Network) (codes : List String) (pc : Option String) (block : String) :
    StoreRecord where
  id := ""
  network
  signed := orNull block
  paymentCodes := some (unique (codes ++ pc.toList))

/-- The guards that the record of a submission has to pass. -/
def Accepts (network : Network) (pc : Option String) (block : String)
    (existing : Option Nat) : Prop :=
  (normaliseSubmission (submitted network ((existing.bind s.object).elim [] StoreRecord.codes) pc
    block)).Storable

/-- The texts of a submission that are read when its record is made. -/
def Reads (body : Json) : Prop :=
  (∃ t, textIn "jurisdiction" body = .ok t) ∧ ∃ t, textIn "hardware" body = .ok t

/-- The version gate lets some version of the node through. -/
def VersionPasses (payload : Json) : Prop :=
  ∃ detected declared, (do (← payload.get "pairing").elim (.ok none) (Json.get "version")) = .ok declared ∧
    g.judgeVersion detected declared = none

/-- A submission under a name that is free for it. -/
def Registers (pc : Option String) (body : Json) (network : Network)
    (slug : String) : Prop :=
  ∃ payload block, body.get "payload" = .ok payload ∧ Attests g body network network pc block ∧
    (s.ownedRecordFor network slug pc = none → VersionPasses g (payload.getD .null)) ∧ Reads body ∧
    Accepts s network pc block (s.ownedRecordFor network slug pc)

/-- A submission passes its gates, where the node answers as it should. -/
def Submits (pc : Option String) (body : Json) : Prop :=
  ∃ name, ∃ network : Network, body.get "network" = .ok (some (.str network.text)) ∧
    nameIn body = .ok name ∧ slugify name ≠ "" ∧
    (∀ r ∈ s.submissions.values, ∀ rec, s.object r = some rec →
      rec.named network (slugify name) → owns rec pc) ∧
    Registers g s pc body network (slugify name)

/-- The request cannot be refused once it has changed something. -/
def Gates.Safe (files : Bool) (q : Request) : Prop :=
  match q.route with
  | .submit => ∀ pc body, s.holder q.sid = some pc → q.body = some body → Submits g s pc body → files
  | .edit => ∀ pc body k r rec, s.holder q.sid = some pc → q.body = some body →
      s.Names body k r rec → owns rec pc → EditSafe s files rec body
  | .pairing => ∀ pc body k r rec block, s.holder q.sid = some pc → q.body = some body →
      s.Names body k r rec → owns rec pc → Attests g body rec.network .mainnet pc block →
      files ∧ { rec with signed := orNull block }.Storable
  | .delete => ∀ pc body k r rec, s.holder q.sid = some pc → q.body = some body →
      s.Names body k r rec → owns rec pc → files
  | .adminEdit => ∀ body k r rec, s.Maintains g q.sid → q.body = some body →
      s.Names body k r rec → EditSafe s files rec body
  | .approve => ∀ body k r rec, s.Maintains g q.sid → q.body = some body →
      s.Names body k r rec → files ∧ rec.Storable ∧
        ∀ v, body.get "paynym" = .ok v → truthy v → ∃ nym, v = some (.str nym)
  | .reject => ∀ body k r rec, s.Maintains g q.sid → q.body = some body →
      s.Names body k r rec → files ∧ rec.Storable
  | .remove => ∀ body k r rec, s.Maintains g q.sid → q.body = some body →
      s.Names body k r rec → files

end Conditions

section Records

variable {s s' : Store}

theorem Store.record_eq (s : Store) (k : String) : s.record k = (s.records.lookup k).bind id := by
  rw [records, Table.lookup_map, record, Table.get]
  cases s.submissions.entries.lookup k <;> rfl

theorem record_of_records (h : s'.records = s.records) (k : String) : s'.record k = s.record k := by
  rw [Store.record_eq, Store.record_eq, h]

theorem records_of_eq (ht : s'.submissions = s.submissions) (ho : s'.objects = s.objects) :
    s'.records = s.records := by
  rw [Store.records, Store.records, ht]
  simp only [Store.object, ho]

theorem step_aside (maxAge : Int) (s : Store) (o : Op) (h : o.aside) :
    (s.step maxAge o).2.submissions = s.submissions ∧ (s.step maxAge o).2.objects = s.objects := by
  cases o with
  | putSubmission rec => cases h
  | getSubmission k => cases h
  | pruneRejected days now => cases h
  | deleteSubmission k => cases h
  | takeNonce k =>
    simp only [Store.step, Store.takeNonce]
    split <;> exact ⟨rfl, rfl⟩
  | getSession k now =>
    obtain ⟨ht, ho, -⟩ := s.getSession_rest k now
    exact ⟨ht, ho⟩
  | putProduct rec =>
    simp only [Store.step, Store.putProduct]
    cases rec.guard <;> exact ⟨rfl, rfl⟩
  | putInvoice rec =>
    simp only [Store.step, Store.putInvoice]
    cases rec.guard maxAge <;> exact ⟨rfl, rfl⟩
  | _ => exact ⟨rfl, rfl⟩

theorem unchanged_iff : Unchanged s s' ↔ s'.records = s.records := by
  constructor
  · exact And.left
  · intro h
    constructor
    · exact h
    · intro maxAge ops hops
      induction ops generalizing s' with
      | nil => exact h
      | cons o ops ih =>
        obtain ⟨ho, hops⟩ := List.forall_mem_cons.1 hops
        obtain ⟨ht, hobj⟩ := step_aside maxAge s' o ho
        exact ih ((records_of_eq ht hobj).trans h) hops

end Records

/-- The submissions are those of the store `s`. -/
def Same (s : Store) (w : World Event) : Prop := w.store.records = s.records

/-- A response that is a refusal leaves the submissions of the store `s`. -/
def Mild (s : Store) (r : Response) (w : World Event) : Prop :=
  400 ≤ r.code → Same s w

section Operations

variable {files : Bool} {s : Store} {l : List Event} {i : Nat} {rec : StoreRecord}

theorem wp_awaiting {Q : β × Answer → World Event → Prop} {E : Fault → World Event → Prop}
    {p : Action Event β} {w : World Event} : Wp (Answers files) Q E (awaiting p) w ↔
      Wp (Answers files) (fun x w' => ∀ a, Answers files a → Q (x, a) w') E p w := by
  simp only [awaiting, wp_bind, wp_wait, wp_pure]

theorem Answers.failing {a : Answer} (h : Answers files a) (ha : a.ok = false) : files = false := by
  cases files with
  | false => rfl
  | true => exact absurd (h rfl) (by simp [ha])

theorem wp_persist {Q : Unit → World Event → Prop} {E : Fault → World Event → Prop}
    {w : World Event} : Wp (Answers files) Q E (persist : Action Event Unit) w ↔
      Q () w ∧ (files = false → E .io w) := by
  simp only [persist, wp_bind, wp_wait]
  constructor
  · intro h
    constructor
    · exact h { ok := true } (fun _ => rfl) { ok := true } (fun _ => rfl)
    · intro hf
      exact h { ok := false } fun hf' => absurd hf (by simp [hf'])
  · intro h a ha
    cases hok : a.ok with
    | false => exact h.2 (ha.failing hok)
    | true =>
      intro b hb
      change Wp _ _ _ (if b.ok then Pure.pure () else MonadExcept.throw Fault.io) w
      cases hok' : b.ok with
      | false => exact h.2 (hb.failing hok')
      | true => exact h.1

theorem calm_ofExcept {Q : β → World Event → Prop} {x : Except Throw β} :
    Wp (Answers files) Q (fun _ => Same s) (ofExcept x) ⟨s, l⟩ ↔ ∀ v, x = .ok v → Q v ⟨s, l⟩ := by
  cases x with
  | ok v =>
    constructor
    · intro h v' hv
      cases hv
      exact h
    · intro h
      exact h v rfl
  | error e =>
    cases e
    constructor
    · intro _ v hv
      cases hv
    · intro _
      exact rfl

theorem calm_getSession {Q : Found Session → World Event → Prop} {sid : String} (hsid : sid ≠ "")
    (hQ : ∀ w, Same s w → Q .absent w) :
    Wp (Answers files) Q (fun _ => Same s) (getSession sid) ⟨s, l⟩ ↔
      Q (s.sessions.find s.prototype sid) ⟨s, l⟩ := by
  simp only [getSession, if_neg hsid, wp_bind, wp_wait, wp_read, wp_updateGet, World.change,
    Store.getSession]
  obtain ⟨sess, hf, hg⟩ | ⟨hf, hg⟩ | ⟨hf, hg⟩ := Table.find_cases s.prototype s.sessions sid
  · simp only [hf, hg, Option.any_some, decide_eq_true_eq, List.nil_append]
    constructor
    · intro h
      have hlive := h { clock := sess.expires } fun _ => rfl
      simpa only [Int.lt_irrefl, if_false, wp_pure] using hlive
    · intro h a ha
      by_cases hexp : sess.expires < a.clock
      · simp only [hexp, if_true, wp_bind, wp_awaiting, wp_persist, wp_pure]
        exact ⟨fun _ _ => hQ _ rfl, fun _ => rfl⟩
      · simpa only [hexp, if_false, wp_pure] using h
  · simp only [hf, hg, Option.any_none, List.nil_append, wp_pure, Bool.false_eq_true, if_false]
    constructor
    · intro h
      exact h {} fun _ => rfl
    · intro h a ha
      exact h
  · simp only [hf, hg, Option.any_none, List.nil_append, wp_pure, Bool.false_eq_true, if_false]
    constructor
    · intro h
      exact h {} fun _ => rfl
    · intro h a ha
      exact h

theorem calm_sessionFrom {Q : Option (Option String) → World Event → Prop} {sid : String}
    (hQ : ∀ w, Same s w → Q none w) :
    Wp (Answers files) Q (fun _ => Same s) (sessionFrom sid) ⟨s, l⟩ ↔ ∀ pc, s.holder sid = some pc → Q (some pc) ⟨s, l⟩ := by
  unfold sessionFrom Store.holder
  by_cases hsid : sid = ""
  · simp only [hsid, if_true, wp_pure]
    constructor
    · intro _ pc hpc
      cases hpc
    · intro _
      exact hQ _ rfl
  · simp only [hsid, if_false, wp_bind, wp_awaiting]
    rw [calm_getSession hsid fun w hw a _ => hQ w hw]
    cases hf : s.sessions.find s.prototype sid with
    | own sess =>
      constructor
      · intro h pc hpc
        cases hpc
        exact h {} fun _ => rfl
      · intro h a _
        exact h _ rfl
    | inherited =>
      constructor
      · intro h pc hpc
        cases hpc
        exact h {} fun _ => rfl
      · intro h a _
        exact h _ rfl
    | absent =>
      constructor
      · intro _ pc hpc
        cases hpc
      · intro _ a _
        exact hQ _ rfl

theorem calm_operatorBody {Q : Except Response (Option String × Json) → World Event → Prop}
    {sid : String} {body : Option Json} (hQ : ∀ r w, Same s w → Q (.error r) w) :
    Wp (Answers files) Q (fun _ => Same s) (operatorBody sid body) ⟨s, l⟩ ↔
      ∀ pc b, s.holder sid = some pc → body = some b → Q (.ok (pc, b)) ⟨s, l⟩ := by
  simp only [operatorBody, wp_bind, wp_awaiting]
  rw [calm_sessionFrom fun w hw a _ => hQ _ w hw]
  constructor
  · intro h pc b hpc hb
    subst hb
    exact h pc hpc {} (fun _ => rfl) {} fun _ => rfl
  · intro h pc hpc a _ a' _
    cases body with
    | none => exact hQ _ _ rfl
    | some b => exact h pc b hpc rfl

theorem calm_adminBody {Q : Except Response Json → World Event → Prop} {g : Gates} {sid : String}
    {body : Option Json} (hQ : ∀ r w, Same s w → Q (.error r) w) :
    Wp (Answers files) Q (fun _ => Same s) (adminBody g sid body) ⟨s, l⟩ ↔
      ∀ b, s.Maintains g sid → body = some b → Q (.ok b) ⟨s, l⟩ := by
  have hnone : ∀ w, Same s w → ∀ a, Answers files a → ∀ a', Answers files a' →
      Q (.error unauthenticated) w := fun w hw _ _ _ _ => hQ _ w hw
  simp only [adminBody, adminFrom, wp_bind, wp_awaiting]
  rw [calm_sessionFrom hnone]
  constructor
  · intro h b hm hb
    subst hb
    obtain ⟨c, hc, hne, hadmin⟩ := hm
    have hif : (some c).any fun c => decide (c ≠ "" ∧ c ∈ g.admins) := by simp [hne, hadmin]
    have h := h (some c) hc {} fun _ => rfl
    simp only [hif, if_true, wp_pure] at h
    exact h {} (fun _ => rfl) {} fun _ => rfl
  · intro h pc hpc a _
    by_cases hadmin : pc.any fun c => decide (c ≠ "" ∧ c ∈ g.admins)
    · simp only [hadmin, if_true, wp_pure]
      cases pc with
      | none => cases hadmin
      | some c =>
        have hc := of_decide_eq_true hadmin
        intro a' _ a'' _
        cases body with
        | none => exact hQ _ _ rfl
        | some b => exact h b ⟨c, hpc, hc⟩ rfl
    · simp only [hadmin, Bool.false_eq_true, if_false, wp_pure]
      intro a' _
      exact hQ _ _ rfl

theorem calm_getSubmission {Q : Found Nat → World Event → Prop} {body : Json} (hs : s.Sound)
    (hinherited : ∀ w, Same s w → Q .inherited w) (habsent : ∀ w, Same s w → Q .absent w) :
    Wp (Answers files) Q (fun _ => Same s)
      (do getSubmission i (← ofExcept (body.get "id"))) ⟨s, l⟩ ↔
      ∀ k r rec, s.Names body k r rec → Q (.own r) ⟨s, .saw i k r :: l⟩ := by
  simp only [getSubmission, wp_bind, calm_ofExcept, wp_wait, wp_updateGet, World.change,
    Store.getSubmission]
  constructor
  · intro h k r rec hname
    obtain ⟨hk, hr, hrec⟩ := hname
    cases hid : body.get "id" with
    | error e => rw [hid] at hk; cases hk
    | ok v =>
      rw [hid] at hk
      have hown : s.submissions.find s.prototype k = .own r := by rw [Table.find, hr]
      have h := h v hid {} (fun _ => rfl) k hk
      simp only [hown, hs.modify hr] at h
      exact h
  · intro h v hid a _ k hk
    obtain ⟨r, hf, hr⟩ | ⟨hf, -⟩ | ⟨hf, -⟩ := Table.find_cases s.prototype s.submissions k
    · obtain ⟨rec, hrec, -⟩ := hs k r hr
      have hname : s.Names body k r rec := ⟨by rw [hid]; exact hk, hr, hrec⟩
      simp only [hf, hs.modify hr]
      exact h k r rec hname
    · simp only [hf]
      apply hinherited
      split <;> rfl
    · simp only [hf]
      exact habsent _ rfl

theorem calm_readObject {Q : StoreRecord → World Event → Prop} {w : World Event}
    (hr : w.store.object r = some rec) :
    Wp (Answers files) Q (fun _ => Same s) (readObject r) w ↔ Q rec w := by
  simp only [readObject, wp_bind, wp_read, hr, wp_pure]

theorem calm_ownedSubmission {Q : Option Nat × Answer → World Event → Prop} {body : Json}
    {pc : Option String} (hs : s.Sound) (hQ : ∀ a w, Same s w → Q (none, a) w) :
    Wp (Answers files) Q (fun _ => Same s) (ownedSubmission i pc body) ⟨s, l⟩ ↔
      ∀ k r rec, s.Names body k r rec → owns rec pc → ∀ a, Answers files a →
        Q (some r, a) ⟨s, .saw i k r :: l⟩ := by
  rw [ownedSubmission, wp_bind, wp_awaiting,
    calm_getSubmission hs (fun w hw a _ => hQ a w hw) fun w hw a _ => hQ a w hw]
  constructor
  · intro h k r rec hname howns a ha
    have h := h k r rec hname a ha
    simp only [wp_bind, calm_readObject (w := ⟨s, _⟩) hname.2.2, howns, if_true, wp_pure] at h
    exact h
  · intro h k r rec hname a ha
    simp only [wp_bind, calm_readObject (w := ⟨s, _⟩) hname.2.2, wp_pure]
    by_cases howns : owns rec pc
    · simp only [howns, if_true]
      exact h k r rec hname howns a ha
    · simp only [howns]
      exact hQ a _ rfl

theorem calm_foundSubmission {Q : Option Nat × Answer → World Event → Prop} {body : Json}
    (hs : s.Sound) (hQ : ∀ a w, Same s w → Q (none, a) w) :
    Wp (Answers files) Q (fun _ => Same s) (foundSubmission i body) ⟨s, l⟩ ↔
      ∀ k r rec, s.Names body k r rec → ∀ a, Answers files a →
        Q (some r, a) ⟨s, .saw i k r :: l⟩ := by
  rw [foundSubmission, wp_bind, wp_awaiting,
    calm_getSubmission hs (fun w hw a _ => hw) fun w hw a _ => hQ a w hw]
  simp only [wp_pure]

theorem calm_listSubmissions {Q : List Nat → World Event → Prop} (sees : Bool) :
    Wp (Answers files) Q (fun _ => Same s) (listSubmissions i sees) ⟨s, l⟩ ↔
      Q s.submissions.values
        ⟨s, (if sees then s.submissions.entries.map fun x => .saw i x.1 x.2 else []) ++ l⟩ := by
  simp only [listSubmissions, wp_bind, wp_wait, wp_updateGet, World.change, wp_pure]
  constructor
  · intro h
    exact h {} fun _ => rfl
  · intro h a _
    exact h

theorem find_none_iff {p : StoreRecord → Bool} :
    (s.submissions.values.filterMap s.object).find? p = none ↔
      ∀ r ∈ s.submissions.values, ∀ rec, s.object r = some rec → p rec = false := by
  simp only [List.find?_eq_none, List.mem_filterMap, Bool.not_eq_true]
  constructor
  · intro h r hr rec hrec
    exact h rec ⟨r, hr, hrec⟩
  · intro h rec hrec
    obtain ⟨r, hr, hrec⟩ := hrec
    exact h r hr rec hrec

theorem calm_scan {Q : Option String → World Event → Prop} {p : StoreRecord → Bool}
    {q : Seed → Bool} {why : StoreRecord → String} {reserved : String}
    (hQ : ∀ why w, Same s w → Q (some why) w) :
    Wp (Answers files) Q (fun _ => Same s) (do
      let (refs, _) ← awaiting (listSubmissions i false)
      let w ← Async.read
      match (refs.filterMap w.store.object).find? p with
      | some rec => return some (why rec)
      | none =>
        let (seeds, _) ← awaiting seedNodes
        return if seeds.any q then some reserved else none) ⟨s, l⟩ ↔
      ((∀ r ∈ s.submissions.values, ∀ rec, s.object r = some rec → p rec = false) →
        Q none ⟨s, l⟩) := by
  simp only [wp_bind, wp_awaiting, calm_listSubmissions, wp_read, Bool.false_eq_true, if_false,
    List.nil_append]
  rw [← find_none_iff]
  cases (s.submissions.values.filterMap s.object).find? p with
  | some rec =>
    constructor
    · intro _ hnone
      cases hnone
    · intro _ a _
      exact hQ _ _ rfl
  | none =>
    simp only [seedNodes, wp_bind, wp_awaiting, wp_wait, wp_pure]
    constructor
    · intro h _
      exact h {} (fun _ => rfl) {} (fun _ => rfl) {} fun _ => rfl
    · intro h a _ a' _ a'' _
      by_cases hseed : a'.seeds.any q
      · simp only [hseed, if_true]
        exact hQ _ _ rfl
      · simp only [hseed]
        exact h trivial

theorem calm_nameConflict {Q : Option String → World Event → Prop} {network : Network}
    {slug : String} {pc : Option String} (hQ : ∀ why w, Same s w → Q (some why) w) :
    Wp (Answers files) Q (fun _ => Same s) (nameConflict i network slug pc) ⟨s, l⟩ ↔
      ((∀ r ∈ s.submissions.values, ∀ rec, s.object r = some rec →
        rec.named network slug → owns rec pc) → Q none ⟨s, l⟩) := by
  unfold nameConflict
  apply (calm_scan hQ).trans
  simp only [Bool.and_eq_false_imp, Bool.not_eq_false']

theorem calm_slugTakenByOther {Q : Option String → World Event → Prop} {slug : String}
    (hQ : ∀ why w, Same s w → Q (some why) w) :
    Wp (Answers files) Q (fun _ => Same s) (slugTakenByOther i rec.network slug rec.id) ⟨s, l⟩ ↔
      (s.Free rec slug → Q none ⟨s, l⟩) := by
  unfold slugTakenByOther
  apply (calm_scan hQ).trans
  simp only [Bool.and_eq_false_imp, decide_eq_true_eq, Store.Free, Decidable.or_iff_not_imp_left]

theorem calm_ownedRecordFor {Q : Option Nat → World Event → Prop} {network : Network}
    {slug : String} {pc : Option String} :
    Wp (Answers files) Q (fun _ => Same s) (ownedRecordFor i network slug pc) ⟨s, l⟩ ↔
      Q (s.ownedRecordFor network slug pc)
        ⟨s, s.submissions.entries.map (fun x => .saw i x.1 x.2) ++ l⟩ := by
  simp only [ownedRecordFor, wp_bind, wp_awaiting, calm_listSubmissions, wp_read, if_true, wp_pure]
  constructor
  · intro h
    exact h {} fun _ => rfl
  · intro h a _
    exact h

theorem wp_ofExcept {Q : β → World Event → Prop} {E : Fault → World Event → Prop}
    {x : Except Throw β} {w : World Event} : Wp (Answers files) Q E (ofExcept x) w ↔
      match x with
      | .ok v => Q v w
      | .error _ => E .typeError w := by
  cases x with
  | ok v => rfl
  | error e => cases e; rfl

theorem wp_true {w : World Event} (p : Action Event β) :
    Wp (Answers files) (fun _ _ => True) (fun _ _ => True) p w := by
  induction p generalizing w with
  | pure a => trivial
  | throw e => trivial
  | act f k ih => exact ih w
  | await k ih => exact fun x _ => ih x

theorem wp_tryRebuild {Q : Unit × Answer → World Event → Prop} {E : Fault → World Event → Prop}
    {w : World Event} (hQ : ∀ x t, Q x t) :
    Wp (Answers files) Q E (awaiting (tryRebuild i)) w := by
  simp only [tryRebuild, wp_awaiting, wp_tryCatch, wp_bind, wp_pure]
  apply (wp_true _).mono
  · intro x t _ a _ a' _
    exact hQ _ _
  · intro e t _ a _
    exact hQ _ _

theorem calm_putSubmission {Q : Unit × Answer → World Event → Prop} {w : World Event}
    (hQ : ∀ x t rec', t.store.object r = some rec' → Q x t) (hr : w.store.object r = some rec) :
    Wp (Answers files) Q (fun _ => Same s) (awaiting (putSubmission i actor purpose r)) w ↔
      ((normaliseSubmission rec).Storable → files = false →
        Same s ((w.normalise i purpose r).putObject i actor purpose r)) ∧
      (¬ (normaliseSubmission rec).Storable → Same s (w.normalise i purpose r)) := by
  have hobj : (w.normalise i purpose r).store.object r = some (normaliseSubmission rec) := by
    simp only [World.normalise, Store.object_modify, hr, if_true, Option.map_some]
  have hput : ((w.normalise i purpose r).putObject i actor purpose r).store.object r =
      some (normaliseSubmission rec) := by
    simp only [World.putObject, Store.putObject, hobj]
    exact hobj
  simp only [putSubmission, wp_awaiting, wp_bind, wp_update, wp_read, hobj, Option.map_some,
    StoreRecord.Storable]
  cases hg : (normaliseSubmission rec).guard with
  | error e =>
    constructor
    · intro h
      exact ⟨nofun, fun _ => h⟩
    · intro h
      exact h.2 nofun
  | ok u =>
    simp only [wp_bind, wp_wait, wp_update, wp_awaiting, wp_persist]
    constructor
    · intro h
      exact ⟨fun _ => (h {} fun _ => rfl).2, fun hno => absurd trivial hno⟩
    · intro h a _
      exact ⟨fun _ _ _ _ => hQ _ _ _ hput, h.1 trivial⟩

theorem storable_iff : rec.Storable ↔
    (rec.codes.any fun c => looksLikeCode (trim c)) = true ∧ hasSignedBlock rec = true := by
  unfold StoreRecord.Storable StoreRecord.guard
  cases rec.codes.any fun c => looksLikeCode (trim c) with
  | false => simp only [Bool.not_false, if_true, reduceCtorEq, Bool.false_eq_true, false_and]
  | true =>
    cases hasSignedBlock rec with
    | false => simp only [Bool.not_true, Bool.not_false, Bool.false_eq_true, if_true, if_false,
        reduceCtorEq, and_false]
    | true => simp only [Bool.not_true, Bool.false_eq_true, if_false, and_self]

theorem storable_congr {rec' : StoreRecord} (hc : rec'.codes = rec.codes)
    (hsig : rec'.signed = rec.signed) : rec'.Storable ↔ rec.Storable := by
  rw [storable_iff, storable_iff, hc, hasSignedBlock, hasSignedBlock, hsig]

theorem storable_normalise {rec' : StoreRecord} (hc : rec'.paymentCodes = rec.paymentCodes)
    (hc' : rec'.paymentCode = rec.paymentCode) (hsig : rec'.signed = rec.signed) :
    (normaliseSubmission rec').Storable ↔ (normaliseSubmission rec).Storable := by
  apply storable_congr
  · simp only [StoreRecord.codes, normaliseSubmission, StoreRecord.allCodes, hc, hc']
  · exact hsig

/-- What a store has to hold of a record that a request is changing. -/
structure Editing (s : Store) (k : String) (r : Nat) (rec : StoreRecord) (w : World Event) : Prop where
  get : w.store.submissions.get k = some r
  object : w.store.object r = some rec
  normal : Normal rec
  changed : s.record k ≠ some rec

theorem not_same (hk : w.store.submissions.get k = some r) (hr : w.store.object r = some rec)
    (hne : s.record k ≠ some rec) : ¬ Same s w := by
  intro h
  have hrec := record_of_records h k
  rw [Store.record, hk, Option.bind_some, hr] at hrec
  exact hne hrec.symm

/-- A changed record has to come through the guards and to the disk. -/
theorem Editing.of_put {Q : Unit × Answer → World Event → Prop} {w : World Event}
    (h : Editing s k r rec w) (hQ : ∀ x t rec', t.store.object r = some rec' → Q x t)
    (hput : Wp (Answers files) Q (fun _ => Same s) (awaiting (putSubmission i actor purpose r)) w) :
    files ∧ rec.Storable := by
  rw [calm_putSubmission hQ h.object, h.normal.normalise] at hput
  have hobj : (w.normalise i purpose r).store.object r = some rec := by
    simp only [World.normalise, Store.object_modify, h.object, if_true, Option.map_some,
      h.normal.normalise]
  by_cases hst : rec.Storable
  · constructor
    · cases files with
      | true => rfl
      | false =>
        have hsame := hput.1 hst rfl
        apply absurd hsame
        apply not_same (k := k) (r := r) _ _ h.changed
        · simp only [World.putObject, Store.putObject, hobj, Table.get_set]
          split
          · rfl
          · exact h.get
        · simp only [World.putObject, Store.putObject, hobj]
          exact hobj
    · exact hst
  · exact absurd (hput.2 hst) (not_same (w := w.normalise i purpose r) h.get hobj h.changed)

theorem put_of_storable {Q : Unit × Answer → World Event → Prop} {w : World Event}
    (hQ : ∀ x t rec', t.store.object r = some rec' → Q x t) (hr : w.store.object r = some rec)
    (hn : Normal rec) (hfiles : files) (hst : rec.Storable) :
    Wp (Answers files) Q (fun _ => Same s) (awaiting (putSubmission i actor purpose r)) w := by
  rw [calm_putSubmission hQ hr, hn.normalise]
  constructor
  · intro _ hno
    rw [hno] at hfiles
    cases hfiles
  · intro hno
    exact absurd hst hno

theorem edited (hs : s.Sound) (hname : s.Names body k r rec) (hf : Keeps f)
    {w : World Event} (hw : w.store = s.modify r f) :
    w.store.object r = some (f rec) ∧ Normal (f rec) := by
  obtain ⟨-, hk, hr⟩ := hname
  obtain ⟨rec', hr', hn⟩ := hs k r hk
  cases hr.symm.trans hr'
  constructor
  · simp only [hw, Store.object_modify, hr, if_true, Option.map_some]
  · exact hf.normal hn

theorem editing (hs : s.Sound) (hname : s.Names body k r rec) (hf : Keeps f) {w : World Event}
    (hw : w.store = s.modify r f) (hne : f rec ≠ rec) : Editing s k r (f rec) w := by
  obtain ⟨hobj, hn⟩ := edited hs hname hf hw
  obtain ⟨-, hk, hr⟩ := hname
  constructor
  · rw [hw]
    exact hk
  · exact hobj
  · exact hn
  · rw [Store.record, hk, Option.bind_some, hr]
    intro h
    exact hne (Option.some.inj h).symm

end Operations

theorem Store.modify_modify (s : Store) (r : Nat) (f h : StoreRecord → StoreRecord) :
    (s.modify r f).modify r h = s.modify r (h ∘ f) := by
  simp only [modify, List.modify_modify_eq]

section Handlers

variable {g : Gates} {files : Bool} {s : Store} {l : List Event} {i : Nat} {rec : StoreRecord}

theorem Mild.of_same (h : Same s w) : Mild s r w := fun _ => h

theorem mild_ok : Mild s ⟨200, none⟩ w := fun h => absurd h (by decide)

theorem exists_clock (t : Stamp) : ∃ now, Stamp.at now ≠ t := by
  cases t with
  | «at» ms =>
    use ms + 1
    intro h
    have hms := Stamp.at.inj h
    omega
  | absent => exact ⟨0, nofun⟩
  | unusable => exact ⟨0, nofun⟩

theorem calm_republished (_ : Unit × Answer) (w : World Event) (rec : StoreRecord)
    (_ : w.store.object r = some rec) : Wp (Answers files) (fun _ => Mild s ⟨200, none⟩) (fun _ => Same s) (awaiting (tryRebuild i)) w :=
  wp_tryRebuild fun _ _ => mild_ok

/-- The record as a decision of a maintainer leaves it. -/
def StoreRecord.marked (status : Status) (now : Int) (rec : StoreRecord) : StoreRecord :=
  { rec with status, updatedAt := .at now }

theorem keeps_marked : Keeps (StoreRecord.marked status now) :=
  ⟨fun _ => rfl, fun _ => rfl, fun _ => rfl⟩

theorem marked_ne (h : Stamp.at now ≠ rec.updatedAt) : rec.marked status now ≠ rec :=
  fun he => h (congrArg StoreRecord.updatedAt he)

/-- The world after a decision of a maintainer about the record that `k` names. -/
def mark (i : Nat) (k : String) (r : Nat) (status : Status) (now : Int) (s : Store)
    (l : List Event) : World Event :=
  World.assign r (.changed i .maintainer r) (StoreRecord.marked status now) ⟨s, .saw i k r :: l⟩

theorem calm_reject (hs : s.Sound) (sid : String) (body : Option Json) :
    Wp (Answers files) (Mild s) (fun _ => Same s) (reject g i sid body) ⟨s, l⟩ ↔
      ∀ b k r rec, s.Maintains g sid → body = some b → s.Names b k r rec →
        files ∧ rec.Storable := by
  rw [reject, wp_bind, calm_adminBody fun _ _ hw => Mild.of_same hw]
  constructor
  · intro h b k r rec hm hb hname
    have h := h b hm hb
    simp only [wp_bind] at h
    rw [calm_foundSubmission hs fun _ _ hw => Mild.of_same hw] at h
    obtain ⟨now, hnow⟩ := exists_clock rec.updatedAt
    have h := h k r rec hname { clock := now } fun _ => rfl
    simp only [wp_bind, wp_update] at h
    have he := editing hs hname keeps_marked (w := mark i k r .rejected now s l) rfl (marked_ne hnow)
    obtain ⟨hfiles, hst⟩ := he.of_put calm_republished h
    exact ⟨hfiles, (storable_congr rfl rfl).1 hst⟩
  · intro h b hm hb
    simp only [wp_bind]
    rw [calm_foundSubmission hs fun _ _ hw => Mild.of_same hw]
    intro k r rec hname a _
    obtain ⟨hfiles, hst⟩ := h b k r rec hm hb hname
    simp only [wp_bind, wp_update]
    obtain ⟨hobj, hn⟩ := edited hs hname keeps_marked (w := mark i k r .rejected a.clock s l) rfl
    exact put_of_storable calm_republished hobj hn hfiles ((storable_congr rfl rfl).2 hst)

theorem get_ok {body : Json} (hk : (propertyKey =<< body.get "id") = .ok k) (k' : String) :
    ∃ v, body.get k' = .ok v := by
  cases body with
  | null => cases hk
  | obj fields => exact ⟨_, rfl⟩
  | _ => exact ⟨none, rfl⟩

/-- The world after `setPaynym`. -/
def World.setPaynym (i r : Nat) (nym : String) (w : World Event) : World Event :=
  w.assign r (.changed i .maintainer r) fun rec => { rec with paynym := some nym }

theorem World.setPaynym_store {w : World Event} (hw : w.store = s.modify r f) (nym : String) :
    (w.setPaynym i r nym).store = s.modify r fun rec => { f rec with paynym := some nym } := by
  rw [setPaynym, assign, hw, Store.modify_modify]
  rfl

theorem of_paynym {P : World Event → Prop} {E : Fault → World Event → Prop} {w : World Event}
    (h : Wp (Answers files) (fun _ => P) E (approve.paynym i r v) w)
    (hr : w.store.object r = some rec) (hE : ¬ E .typeError w) :
    (truthy v → ∃ nym, v = some (.str nym)) ∧ (P w ∨ ∃ nym, P (w.setPaynym i r nym)) := by
  unfold approve.paynym at h
  by_cases hv : truthy v
  · simp only [hv, if_true] at h
    split at h
    · next nym =>
      constructor
      · exact fun _ => ⟨nym, rfl⟩
      · exact .inr ⟨_, h⟩
    · exact absurd h hE
  · simp only [hv, Bool.false_eq_true, if_false, wp_bind, readObject, wp_read, hr, wp_pure] at h
    constructor
    · intro hv'
      exact absurd hv' hv
    · split at h
      · exact .inl (h {} fun _ => rfl)
      · exact .inl h

theorem wp_paynym {P : World Event → Prop} {E : Fault → World Event → Prop} {w : World Event}
    (hr : w.store.object r = some rec) (hv : truthy v → ∃ nym, v = some (.str nym)) (hw : P w)
    (hnym : ∀ nym, P (w.setPaynym i r nym)) :
    Wp (Answers files) (fun _ => P) E (approve.paynym i r v) w := by
  unfold approve.paynym
  by_cases htruthy : truthy v
  · obtain ⟨nym, rfl⟩ := hv htruthy
    simp only [htruthy, if_true]
    exact hnym _
  · simp only [htruthy, Bool.false_eq_true, if_false, wp_bind, readObject, wp_read, hr, wp_pure]
    split
    · intro a _
      dsimp only [Async.bind]
      cases present a.paynym with
      | none => exact hw
      | some nym => exact hnym nym
    · exact hw

theorem keeps_named : Keeps fun rec => { rec.marked status now with paynym := some nym } :=
  ⟨fun _ => rfl, fun _ => rfl, fun _ => rfl⟩

theorem calm_approve (hs : s.Sound) (sid : String) (body : Option Json) :
    Wp (Answers files) (Mild s) (fun _ => Same s) (approve g i sid body) ⟨s, l⟩ ↔
      ∀ b k r rec, s.Maintains g sid → body = some b → s.Names b k r rec →
        files ∧ rec.Storable ∧
          ∀ v, b.get "paynym" = .ok v → truthy v → ∃ nym, v = some (.str nym) := by
  rw [approve, wp_bind, calm_adminBody fun _ _ hw => Mild.of_same hw]
  constructor
  · intro h b k r rec hm hb hname
    have h := h b hm hb
    simp only [wp_bind] at h
    rw [calm_foundSubmission hs fun _ _ hw => Mild.of_same hw] at h
    obtain ⟨now, hnow⟩ := exists_clock rec.updatedAt
    have h := h k r rec hname { clock := now } fun _ => rfl
    obtain ⟨v, hv⟩ := get_ok hname.1 "paynym"
    simp only [wp_bind, wp_update, wp_ofExcept, hv] at h
    have he := editing hs hname keeps_marked (w := mark i k r .approved now s l) rfl (marked_ne hnow)
    obtain ⟨hnym, hput⟩ := of_paynym h he.object (not_same he.get he.object he.changed)
    have hst : files ∧ rec.Storable := by
      obtain hput | ⟨nym, hput⟩ := hput
      · obtain ⟨hfiles, hst⟩ := he.of_put calm_republished hput
        exact ⟨hfiles, (storable_congr rfl rfl).1 hst⟩
      · have hne : { rec.marked .approved now with paynym := some nym } ≠ rec :=
          fun he => hnow (congrArg StoreRecord.updatedAt he)
        have he' := editing hs hname keeps_named (w := (mark i k r .approved now s l).setPaynym i r nym)
          (World.setPaynym_store rfl nym) hne
        obtain ⟨hfiles, hst⟩ := he'.of_put calm_republished hput
        exact ⟨hfiles, (storable_congr rfl rfl).1 hst⟩
    exact ⟨hst.1, hst.2, fun v' hv' => by cases hv.symm.trans hv'; exact hnym⟩
  · intro h b hm hb
    simp only [wp_bind]
    rw [calm_foundSubmission hs fun _ _ hw => Mild.of_same hw]
    intro k r rec hname a _
    obtain ⟨hfiles, hst, hnym⟩ := h b k r rec hm hb hname
    obtain ⟨v, hv⟩ := get_ok hname.1 "paynym"
    simp only [wp_bind, wp_update, wp_ofExcept, hv]
    obtain ⟨hobj, hn⟩ := edited hs hname keeps_marked (w := mark i k r .approved a.clock s l) rfl
    apply wp_paynym hobj (hnym v hv)
    · exact put_of_storable calm_republished hobj hn hfiles ((storable_congr rfl rfl).2 hst)
    · intro nym
      obtain ⟨hobj', hn'⟩ := edited hs hname keeps_named
        (w := (mark i k r .approved a.clock s l).setPaynym i r nym) (World.setPaynym_store rfl nym)
      exact put_of_storable calm_republished hobj' hn' hfiles ((storable_congr rfl rfl).2 hst)

theorem bind_eq_ok {x : Except ε β} {f : β → Except ε γ} :
    (x >>= f) = .ok c ↔ ∃ b, x = .ok b ∧ f b = .ok c := by
  cases x with
  | ok b =>
    constructor
    · intro h
      exact ⟨b, rfl, h⟩
    · intro h
      obtain ⟨b', hb, hc⟩ := h
      cases hb
      exact hc
  | error e =>
    constructor
    · intro h
      cases h
    · intro h
      obtain ⟨b', hb, -⟩ := h
      cases hb

theorem textIn_eq_ok {body : Json} :
    textIn k body = .ok t ↔ ∃ v, body.get k = .ok v ∧ (orEmpty v).text = .ok t := bind_eq_ok

theorem nameIn_eq_ok {body : Json} :
    nameIn body = .ok name ↔ ∃ t, textIn "name" body = .ok t ∧ slice 40 (trim t) = name := by
  rw [nameIn, bind_eq_ok]
  simp only [Pure.pure, Except.pure, Except.ok.injEq]

theorem calm_givenName {Q : String → World Event → Prop} {body : Json} :
    Wp (Answers files) Q (fun _ => Same s) (givenName body) ⟨s, l⟩ ↔
      ∀ name, nameIn body = .ok name → Q name ⟨s, l⟩ := by
  simp only [givenName, wp_bind, calm_ofExcept, wp_pure, nameIn_eq_ok, textIn_eq_ok]
  constructor
  · intro h name hname
    obtain ⟨t, ⟨v, hv, ht⟩, rfl⟩ := hname
    exact h v hv t ht
  · intro h v hv t ht
    exact h _ ⟨t, ⟨v, hv, ht⟩, rfl⟩

/-- The record as an edit leaves it. -/
def StoreRecord.edited (name : String) (hardware : Option String) (now : Int) (rec : StoreRecord) :
    StoreRecord :=
  { rec with name := some name, hardware, updatedAt := .at now }

def StoreRecord.renamed (name : String) (rec : StoreRecord) : StoreRecord :=
  { rec with name := some name }

theorem keeps_edited : Keeps (StoreRecord.edited name hardware now) :=
  ⟨fun _ => rfl, fun _ => rfl, fun _ => rfl⟩

theorem keeps_renamed : Keeps (StoreRecord.renamed name) :=
  ⟨fun _ => rfl, fun _ => rfl, fun _ => rfl⟩

/-- The world after an edit has given the record its new name. -/
def rename (i : Nat) (actor : Actor) (r : Nat) (name : String) (s : Store) (l : List Event) :
    World Event :=
  World.assign r (.changed i actor r) (StoreRecord.renamed name) ⟨s, l⟩

/-- The world after an edit has assigned all fields. -/
def editFields (i : Nat) (actor : Actor) (r : Nat) (name : String) (hardware : Option String)
    (now : Int) (s : Store) (l : List Event) : World Event :=
  World.assign r (.changed i actor r) (fun rec => { rec with hardware, updatedAt := .at now })
    (rename i actor r name s l)

theorem editFields_store : (editFields i actor r name hardware now s l).store =
    s.modify r (StoreRecord.edited name hardware now) :=
  Store.modify_modify ..

theorem Store.modify_self (hr : s.object r = some rec) (hf : f rec = rec) : s.modify r f = s := by
  have ho : s.objects.modify r f = s.objects := by
    apply List.ext_getElem?
    intro q
    rw [List.getElem?_modify]
    split
    · next hq =>
      subst hq
      rw [show s.objects[r]? = some rec from hr]
      exact congrArg some hf
    · exact Option.map_id'
  rw [modify, ho]

theorem calm_republish {Q : Response → World Event → Prop} {w : World Event}
    (hok : ∀ t, Q ⟨200, none⟩ t) (hr : w.store.object r = some rec) :
    Wp (Answers files) Q (fun _ => Same s) (applyEdit.republish i r) w := by
  simp only [applyEdit.republish, wp_bind, readObject, wp_read, hr, wp_pure]
  split
  · rw [wp_bind]
    exact wp_tryRebuild fun _ _ => hok _
  · exact hok _

theorem calm_applyEdit {Q : Response → World Event → Prop} {body : Json} {actor : Actor}
    (hs : s.Sound) (hQ : ∀ r w, Same s w → Q r w) (hok : ∀ w, Q ⟨200, none⟩ w)
    (hname : s.Names body k r rec) :
    Wp (Answers files) Q (fun _ => Same s) (applyEdit i actor r body) ⟨s, l⟩ ↔
      EditSafe s files rec body := by
  rw [applyEdit, wp_bind, calm_givenName, EditSafe]
  apply forall_congr'
  intro name
  apply imp_congr_right
  intro _
  generalize slugify name = slug
  by_cases hslug : slug = ""
  · simp only [hslug, if_true, wp_pure, ne_eq, not_true_eq_false, false_imp_iff, iff_true]
    exact hQ _ _ rfl
  · simp only [hslug, if_false, ne_eq, not_false_eq_true, true_imp_iff, wp_bind,
      calm_readObject (w := ⟨s, l⟩) hname.2.2, wp_awaiting]
    rw [calm_slugTakenByOther fun _ w hw _ _ => hQ _ w hw]
    apply imp_congr_right
    intro _
    obtain ⟨v, hv⟩ := get_ok hname.1 "hardware"
    have htext : textIn "hardware" body = (orEmpty v).text := by
      rw [textIn, hv]
      rfl
    simp only [wp_bind, wp_update, wp_ofExcept, hv, htext]
    cases (orEmpty v).text with
    | error e =>
      constructor
      · intro h
        have h : Same s (rename i actor r name s l) := h {} fun _ => rfl
        by_contra hne
        have hne : rec.renamed name ≠ rec := fun he => hne (congrArg StoreRecord.name he).symm
        have he := editing hs hname keeps_renamed (w := rename i actor r name s l) rfl hne
        exact not_same he.get he.object he.changed h
      · intro h a _
        change Same s (rename i actor r name s l)
        have hself : rec.renamed name = rec := by
          rw [StoreRecord.renamed, ← h]
        have hstore : (rename i actor r name s l).store = s := Store.modify_self hname.2.2 hself
        rw [Same, hstore]
    | ok hardware =>
      dsimp only
      generalize orNull (slice 120 (trim hardware)) = hardware
      constructor
      · intro h
        obtain ⟨now, hnow⟩ := exists_clock rec.updatedAt
        have h := h { clock := now } fun _ => rfl
        have hne : rec.edited name hardware now ≠ rec :=
          fun he => hnow (congrArg StoreRecord.updatedAt he)
        have he := editing hs hname keeps_edited editFields_store hne
          (w := editFields i actor r name hardware now s l)
        obtain ⟨hfiles, hst⟩ := he.of_put (fun _ _ _ hr => calm_republish hok hr) h
        exact ⟨hfiles, (storable_congr rfl rfl).1 hst⟩
      · intro h a _
        obtain ⟨hfiles, hst⟩ := h
        obtain ⟨hobj, hn⟩ := edited hs hname keeps_edited
          (w := editFields i actor r name hardware a.clock s l) editFields_store
        exact put_of_storable (fun _ _ _ hr => calm_republish hok hr) hobj hn hfiles
          ((storable_congr rfl rfl).2 hst)

theorem calm_inherited {w : World Event} (body : Json) (hw : Same s w) :
    Wp (Answers files) (Mild s) (fun _ => Same s) (do
      if slugify (← givenName body) = "" then return nameRequired
      MonadExcept.throw .typeError) w := by
  simp only [givenName, wp_bind, wp_ofExcept]
  cases body.get "name" with
  | error e => exact hw
  | ok v =>
    dsimp only
    cases (orEmpty v).text with
    | error e => exact hw
    | ok t =>
      simp only [wp_pure]
      generalize slugify (slice 40 (trim t)) = slug
      by_cases hslug : slug = ""
      · simp only [hslug, if_true, wp_pure]
        exact Mild.of_same hw
      · simp only [hslug, if_false, wp_throw]
        exact hw

theorem calm_adminEdit (hs : s.Sound) (sid : String) (body : Option Json) :
    Wp (Answers files) (Mild s) (fun _ => Same s) (adminEdit g i sid body) ⟨s, l⟩ ↔
      ∀ b k r rec, s.Maintains g sid → body = some b → s.Names b k r rec →
        EditSafe s files rec b := by
  rw [adminEdit, wp_bind, calm_adminBody fun _ _ hw => Mild.of_same hw]
  constructor
  · intro h b k r rec hm hb hname
    have h := h b hm hb
    simp only [wp_bind] at h
    rw [wp_awaiting, calm_getSubmission hs (fun _ hw _ _ => calm_inherited b hw)
      fun _ hw _ _ => Mild.of_same hw] at h
    have h := h k r rec hname {} fun _ => rfl
    simp only [wp_bind, wp_awaiting] at h
    rw [calm_applyEdit hs (fun _ _ hw _ _ => Mild.of_same hw) (fun _ _ _ => mild_ok) hname] at h
    exact h
  · intro h b hm hb
    simp only [wp_bind]
    rw [wp_awaiting, calm_getSubmission hs (fun _ hw _ _ => calm_inherited b hw)
      fun _ hw _ _ => Mild.of_same hw]
    intro k r rec hname a _
    simp only [wp_bind, wp_awaiting]
    rw [calm_applyEdit hs (fun _ _ hw _ _ => Mild.of_same hw) (fun _ _ _ => mild_ok) hname]
    exact h b k r rec hm hb hname

theorem calm_edit (hs : s.Sound) (sid : String) (body : Option Json) :
    Wp (Answers files) (Mild s) (fun _ => Same s) (edit i sid body) ⟨s, l⟩ ↔
      ∀ pc b k r rec, s.holder sid = some pc → body = some b → s.Names b k r rec → owns rec pc →
        EditSafe s files rec b := by
  rw [edit, wp_bind, calm_operatorBody fun _ _ hw => Mild.of_same hw]
  constructor
  · intro h pc b k r rec hpc hb hname howns
    have h := h pc b hpc hb
    simp only [wp_bind] at h
    rw [calm_ownedSubmission hs fun _ _ hw => Mild.of_same hw] at h
    have h := h k r rec hname howns {} fun _ => rfl
    simp only [wp_bind, wp_awaiting] at h
    rw [calm_applyEdit hs (fun _ _ hw _ _ => Mild.of_same hw) (fun _ _ _ => mild_ok) hname] at h
    exact h
  · intro h pc b hpc hb
    simp only [wp_bind]
    rw [calm_ownedSubmission hs fun _ _ hw => Mild.of_same hw]
    intro k r rec hname howns a _
    simp only [wp_bind, wp_awaiting]
    rw [calm_applyEdit hs (fun _ _ hw _ _ => Mild.of_same hw) (fun _ _ _ => mild_ok) hname]
    exact h pc b k r rec hpc hb hname howns

theorem validatePayload_get {g : Gates} (h : g.validatePayload payload network = .ok none)
    (k : String) : ∃ v, (payload.getD .null).get k = .ok v := by
  cases hp : payload.getD .null with
  | null =>
    rw [Gates.validatePayload, hp] at h
    cases h
  | obj fields => exact ⟨_, rfl⟩
  | _ => exact ⟨none, rfl⟩

/-- The record as a change of its pairing details leaves it. -/
def StoreRecord.paired (payload : Payload) (block : String) (check : Probe) (now : Int)
    (rec : StoreRecord) : StoreRecord :=
  { rec with payload, signed := orNull block, lastProbe := some check, updatedAt := .at now }

theorem keeps_paired : Keeps (StoreRecord.paired payload block check now) :=
  ⟨fun _ => rfl, fun _ => rfl, fun _ => rfl⟩

/-- The world after a change of the pairing details. -/
def repair (i : Nat) (pc : Option String) (r : Nat) (payload : Payload) (block : String)
    (a : Answer) (s : Store) (l : List Event) : World Event :=
  World.assign r (.paired i (.operator pc) r)
    (StoreRecord.paired payload block a.probe a.clock) ⟨s, l⟩

theorem calm_probed {payload : Json} (hs : s.Sound) (hname : s.Names body k r rec)
    (hget : ∀ k, ∃ v, payload.get k = .ok v) :
    Wp (Answers files) (Mild s) (fun _ => Same s) (pairing.probed i pc r payload block) ⟨s, l⟩ ↔
      files ∧ { rec with signed := orNull block }.Storable := by
  obtain ⟨p, hp⟩ := hget "pairing"
  obtain ⟨e, he⟩ := hget "explorer"
  rw [pairing.probed, wp_bind, wp_wait]
  constructor
  · intro h
    obtain ⟨now, hnow⟩ := exists_clock rec.updatedAt
    have h := h { clock := now, probe := { up := true } } fun _ => rfl
    simp only [if_true, wp_bind, calm_ofExcept] at h
    have h := h p hp e he
    have hne : rec.paired ⟨p, e⟩ block { up := true } now ≠ rec :=
      fun he => hnow (congrArg StoreRecord.updatedAt he)
    have he := editing hs hname keeps_paired
      (w := repair i pc r ⟨p, e⟩ block { clock := now, probe := { up := true } } s l) rfl hne
    obtain ⟨hfiles, hst⟩ := he.of_put (fun _ _ _ hr => calm_republish (fun _ => mild_ok) hr) h
    exact ⟨hfiles, (storable_congr rfl rfl).1 hst⟩
  · intro h a _
    obtain ⟨hfiles, hst⟩ := h
    cases hup : a.probe.up with
    | false =>
      simp only [hup]
      exact Mild.of_same rfl
    | true =>
      simp only [hup, if_true, wp_bind, calm_ofExcept]
      intro p hp e he
      obtain ⟨hobj, hn⟩ := edited hs hname keeps_paired (w := repair i pc r ⟨p, e⟩ block a s l) rfl
      exact put_of_storable (fun _ _ _ hr => calm_republish (fun _ => mild_ok) hr) hobj hn hfiles
        ((storable_congr rfl rfl).2 hst)

theorem calm_verified {b : Json} (hs : s.Sound) (hname : s.Names b k r rec) :
    Wp (Answers files) (Mild s) (fun _ => Same s) (pairing.verified g i pc b r) ⟨s, l⟩ ↔
      ∀ block, Attests g b rec.network .mainnet pc block →
        files ∧ { rec with signed := orNull block }.Storable := by
  simp only [pairing.verified, wp_bind, calm_readObject (w := ⟨s, l⟩) hname.2.2, calm_ofExcept]
  constructor
  · intro h block hattests
    obtain ⟨payload, given, hp, hv, hc, rfl, hsig⟩ := hattests
    have h := h payload hp none hv
    simp only [wp_bind, calm_ofExcept] at h
    have h := h (some given) hc
    simp only [hsig] at h
    exact (calm_probed hs hname (validatePayload_get hv)).1 h
  · intro h payload hp e hv
    cases e with
    | some e => exact Mild.of_same rfl
    | none =>
      simp only [wp_bind, calm_ofExcept]
      intro given hc
      cases given with
      | none => exact Mild.of_same rfl
      | some given =>
        simp only
        cases hsig : g.verifySignedPayload ((g.repairSignedBlock given).getD given) payload pc
            .mainnet with
        | some e => exact Mild.of_same rfl
        | none =>
          have hattests : Attests g b rec.network .mainnet pc
              ((g.repairSignedBlock given).getD given) := ⟨payload, given, hp, hv, hc, rfl, hsig⟩
          exact (calm_probed hs hname (validatePayload_get hv)).2 (h _ hattests)

theorem calm_pairing (hs : s.Sound) (sid : String) (body : Option Json) :
    Wp (Answers files) (Mild s) (fun _ => Same s) (pairing g i sid body) ⟨s, l⟩ ↔
      ∀ pc b k r rec block, s.holder sid = some pc → body = some b → s.Names b k r rec →
        owns rec pc → Attests g b rec.network .mainnet pc block →
        files ∧ { rec with signed := orNull block }.Storable := by
  rw [pairing, wp_bind, calm_operatorBody fun _ _ hw => Mild.of_same hw]
  constructor
  · intro h pc b k r rec block hpc hb hname howns hattests
    have h := h pc b hpc hb
    simp only [wp_bind] at h
    rw [calm_ownedSubmission hs fun _ _ hw => Mild.of_same hw] at h
    have h := h k r rec hname howns {} fun _ => rfl
    exact (calm_verified hs hname).1 h block hattests
  · intro h pc b hpc hb
    simp only [wp_bind]
    rw [calm_ownedSubmission hs fun _ _ hw => Mild.of_same hw]
    intro k r rec hname howns a _
    exact (calm_verified hs hname).2 fun block => h pc b k r rec block hpc hb hname howns

theorem calm_persist {Q : Unit → World Event → Prop} {w : World Event} (hQ : ∀ w, Q () w) :
    Wp (Answers files) Q (fun _ => Same s) (do let _ ← awaiting persist) w ↔
      (files = false → Same s w) := by
  simp only [wp_bind, wp_awaiting, wp_persist, wp_pure]
  constructor
  · intro h
    exact h.2
  · intro h
    exact ⟨fun _ _ => hQ w, h⟩

theorem calm_deleteSubmission {Q : Unit → World Event → Prop} (hs : s.Sound) (hQ : ∀ w, Q () w)
    (id : Option Json) :
    Wp (Answers files) Q (fun _ => Same s) (deleteSubmission i actor id) ⟨s, l⟩ ↔
      ∀ k r, propertyKey id = .ok k → s.submissions.get k = some r → files := by
  simp only [deleteSubmission, wp_bind, wp_wait, calm_ofExcept, wp_updateGet, World.change]
  constructor
  · intro h k r hk hr
    have hown : s.submissions.find s.prototype k = .own r := by rw [Table.find, hr]
    have h := h {} (fun _ => rfl) k hk
    simp only [hown, Bool.false_eq_true, if_false] at h
    cases files with
    | true => rfl
    | false =>
      have hrec := record_of_records ((calm_persist hQ).1 h rfl) k
      obtain ⟨rec, hobj, -⟩ := hs k r hr
      simp only [Store.record, Store.deleteSubmission, Table.get_delete, if_true, hr, hobj,
        Option.bind_none, Option.bind_some, reduceCtorEq] at hrec
  · intro h a _ k hk
    obtain ⟨r, hf, hr⟩ | ⟨hf, hr⟩ | ⟨hf, hr⟩ := Table.find_cases s.prototype s.submissions k
    · have hfiles := h k r hk hr
      simp only [hf, Bool.false_eq_true, if_false]
      apply (calm_persist hQ).2
      intro hno
      rw [hno] at hfiles
      cases hfiles
    · simp only [hf, Bool.false_eq_true, if_false, Store.deleteSubmission, Table.delete_of_none hr]
      exact (calm_persist hQ).2 fun _ => rfl
    · simp only [hf, if_true, wp_pure]
      exact hQ _

theorem calm_delete (hs : s.Sound) (sid : String) (body : Option Json) :
    Wp (Answers files) (Mild s) (fun _ => Same s) (delete i sid body) ⟨s, l⟩ ↔
      ∀ pc b k r rec, s.holder sid = some pc → body = some b → s.Names b k r rec → owns rec pc →
        files := by
  rw [delete, wp_bind, calm_operatorBody fun _ _ hw => Mild.of_same hw]
  constructor
  · intro h pc b k r rec hpc hb hname howns
    have h := h pc b hpc hb
    simp only [wp_bind] at h
    rw [calm_ownedSubmission hs fun _ _ hw => Mild.of_same hw] at h
    have h := h k r rec hname howns {} fun _ => rfl
    obtain ⟨v, hv⟩ := get_ok hname.1 "id"
    simp only [wp_bind, wp_awaiting, wp_ofExcept, hv] at h
    rw [calm_deleteSubmission hs fun _ _ _ => mild_ok] at h
    have hk := hname.1
    rw [hv] at hk
    exact h k r hk hname.2.1
  · intro h pc b hpc hb
    simp only [wp_bind]
    rw [calm_ownedSubmission hs fun _ _ hw => Mild.of_same hw]
    intro k r rec hname howns a _
    obtain ⟨v, hv⟩ := get_ok hname.1 "id"
    simp only [wp_bind, wp_awaiting, wp_ofExcept, hv]
    rw [calm_deleteSubmission hs fun _ _ _ => mild_ok]
    exact fun _ _ _ _ => h pc b k r rec hpc hb hname howns

theorem calm_rebuilt {w : World Event} : Wp (Answers files) (Mild s) (fun _ => Same s) (do
    let _ ← awaiting (tryRebuild i)
    return ⟨200, none⟩) w := by
  rw [wp_bind]
  exact wp_tryRebuild fun _ _ => mild_ok

theorem calm_remove (hs : s.Sound) (sid : String) (body : Option Json) :
    Wp (Answers files) (Mild s) (fun _ => Same s) (remove g i sid body) ⟨s, l⟩ ↔
      ∀ b k r rec, s.Maintains g sid → body = some b → s.Names b k r rec → files := by
  rw [remove, wp_bind, calm_adminBody fun _ _ hw => Mild.of_same hw]
  constructor
  · intro h b k r rec hm hb hname
    have h := h b hm hb
    obtain ⟨v, hv⟩ := get_ok hname.1 "id"
    dsimp only at h
    rw [wp_bind, wp_awaiting, wp_bind, wp_ofExcept, hv] at h
    dsimp only at h
    rw [calm_deleteSubmission hs fun _ _ _ => calm_rebuilt] at h
    have hk := hname.1
    rw [hv] at hk
    exact h k r hk hname.2.1
  · intro h b hm hb
    dsimp only
    rw [wp_bind, wp_awaiting, wp_bind, calm_ofExcept]
    intro v hv
    rw [calm_deleteSubmission hs fun _ _ _ => calm_rebuilt]
    intro k r hk hr
    obtain ⟨rec, hrec, -⟩ := hs k r hr
    exact h b k r rec hm hb ⟨by rw [hv]; exact hk, hr, hrec⟩

theorem records_append (hs : s.Sound) {s' : Store} (ht : s'.submissions = s.submissions)
    (ho : s'.objects = s.objects ++ os) : s'.records = s.records := by
  rw [Store.records, Store.records, ht]
  apply List.map_congr_left
  intro x hx
  obtain ⟨rec, hrec, -⟩ := hs x.1 x.2 (Table.get_of_mem hx)
  have hlt : x.2 < s.objects.length := (List.getElem?_eq_some_iff.1 hrec).1
  rw [Store.object, ho, List.getElem?_append_left hlt]
  rfl

/-- The world in which a submission has made its record. -/
def World.made (s : Store) (rec : StoreRecord) (l : List Event) : World Event :=
  ⟨{ s with objects := s.objects ++ [rec] }, l⟩

theorem World.made_object : (World.made s rec l).store.object s.objects.length = some rec := by
  simp [made, Store.object]

theorem normalise_made : ((World.made s rec l).normalise i purpose s.objects.length).store =
    { s with objects := s.objects ++ [normaliseSubmission rec] } := by
  simp only [World.normalise, World.made, Store.modify, modify_append_last]

theorem putNew_of {Q : Unit × Answer → World Event → Prop} (hs : s.Sound) (hQ : ∀ x t, Q x t)
    (h : (normaliseSubmission rec).Storable → files) : Wp (Answers files) Q (fun _ => Same s)
      (awaiting (putSubmission i actor purpose s.objects.length)) (World.made s rec l) := by
  rw [calm_putSubmission (fun x t _ _ => hQ x t) World.made_object]
  constructor
  · intro hst hno
    rw [hno] at h
    cases h hst
  · intro _
    rw [Same, normalise_made]
    exact records_append hs rfl rfl

theorem of_putNew {Q : Unit × Answer → World Event → Prop} (hQ : ∀ x t, Q x t)
    (hnew : ∀ old, s.record rec.id = some old → rec.updatedAt ≠ old.updatedAt)
    (h : Wp (Answers files) Q (fun _ => Same s)
      (awaiting (putSubmission i actor purpose s.objects.length)) (World.made s rec l))
    (hst : (normaliseSubmission rec).Storable) : files := by
  rw [calm_putSubmission (fun x t _ _ => hQ x t) World.made_object] at h
  cases files with
  | true => rfl
  | false =>
    have hsame := h.1 hst rfl
    have hobj : ((World.made s rec l).normalise i purpose s.objects.length).store.object
        s.objects.length = some (normaliseSubmission rec) := by
      rw [normalise_made]
      simp [Store.object]
    have hupdated : (normaliseSubmission rec).updatedAt = rec.updatedAt := rfl
    have hne : s.record rec.id ≠ some (normaliseSubmission rec) :=
      fun he => hnew _ he hupdated.symm
    apply absurd hsame
    apply not_same (k := rec.id) (r := s.objects.length) _ _ hne
    · simp only [World.putObject, Store.putObject, hobj, normaliseSubmission_id, Table.get_set, if_true]
    · simp only [World.putObject, Store.putObject, hobj]
      exact hobj

theorem exists_clock_record (s : Store) (id : String) :
    ∃ now, ∀ old, s.record id = some old → Stamp.at now ≠ old.updatedAt := by
  cases s.record id with
  | none => exact ⟨0, fun _ h => by cases h⟩
  | some old =>
    obtain ⟨now, hnow⟩ := exists_clock old.updatedAt
    exact ⟨now, fun old' h => by cases h; exact hnow⟩

theorem store_of {id : String} {body payload : Json} (hs : s.Sound)
    (h : Reads body → Accepts s network pc block existing → files) :
    Wp (Answers files) (Mild s) (fun _ => Same s) (submit.store g i pc body network name payload block
      check now id purpose existing) ⟨s, l⟩ := by
  simp only [submit.store, wp_bind, wp_wait, wp_read, calm_ofExcept, makeObject, wp_updateGet]
  intro a _ j hj t ht v hv hw hhw p _ e _
  apply putNew_of hs (fun _ _ => mild_ok)
  intro hst
  apply h
  · exact ⟨⟨t, textIn_eq_ok.2 ⟨j, hj, ht⟩⟩, ⟨hw, textIn_eq_ok.2 ⟨v, hv, hhw⟩⟩⟩
  · unfold Accepts submitted
    apply (storable_normalise _ _ _).1 hst
    · rfl
    · rfl
    · rfl

theorem of_store {id : String} {body payload : Json} (hget : ∀ k, ∃ v, payload.get k = .ok v)
    (hnow : ∀ old, s.record id = some old → Stamp.at now ≠ old.updatedAt)
    (h : Wp (Answers files) (Mild s) (fun _ => Same s) (submit.store g i pc body network name payload
      block check now id purpose existing) ⟨s, l⟩)
    (hreads : Reads body) (haccepts : Accepts s network pc block existing) : files := by
  simp only [submit.store, wp_bind, wp_wait, wp_read, calm_ofExcept, makeObject, wp_updateGet] at h
  obtain ⟨⟨t, ht⟩, hw, hhw⟩ := hreads
  obtain ⟨j, hj, ht⟩ := textIn_eq_ok.1 ht
  obtain ⟨v, hv, hhw⟩ := textIn_eq_ok.1 hhw
  obtain ⟨p, hp⟩ := hget "pairing"
  obtain ⟨e, he⟩ := hget "explorer"
  have h := h {} (fun _ => rfl) j hj t ht v hv hw hhw p hp e he
  apply of_putNew (fun _ _ => mild_ok) _ h
  · unfold Accepts submitted at haccepts
    apply (storable_normalise _ _ _).1 haccepts
    · rfl
    · rfl
    · rfl
  · exact hnow

theorem ownedRecordFor_object (h : s.ownedRecordFor network slug pc = some r) :
    ∃ rec, s.object r = some rec := by
  have hr := List.find?_some h
  obtain ⟨rec, hrec, -⟩ := Option.any_eq_true _ _ |>.1 hr
  exact ⟨rec, hrec⟩

theorem probed_of {body payload : Json} (hs : s.Sound)
    (h : (s.ownedRecordFor network slug pc = none → VersionPasses g payload) → Reads body →
      Accepts s network pc block (s.ownedRecordFor network slug pc) → files) :
    Wp (Answers files) (Mild s) (fun _ => Same s) (submit.probed g i pc body network name slug payload
      block) ⟨s, l⟩ := by
  rw [submit.probed, wp_bind, wp_wait]
  intro a _
  cases hup : a.probe.up with
  | false =>
    simp only [hup]
    exact Mild.of_same rfl
  | true =>
    simp only [hup, if_true, wp_bind, wp_awaiting, calm_ownedRecordFor]
    intro b _
    cases hex : s.ownedRecordFor network slug pc with
    | some r =>
      obtain ⟨rec, hrec⟩ := ownedRecordFor_object hex
      rw [hex] at h
      simp only [wp_bind, calm_readObject (w := ⟨s, _⟩) hrec]
      exact store_of hs (h fun he => by cases he)
    | none =>
      rw [hex] at h
      simp only [wp_bind, calm_ofExcept]
      intro declared hdeclared
      cases hv : g.judgeVersion a.probe.detectedVersion declared with
      | some e => exact Mild.of_same rfl
      | none => exact store_of hs (h fun _ => ⟨_, declared, hdeclared, hv⟩)

theorem of_probed {body payload : Json} (hget : ∀ k, ∃ v, payload.get k = .ok v)
    (h : Wp (Answers files) (Mild s) (fun _ => Same s) (submit.probed g i pc body network name slug
      payload block) ⟨s, l⟩)
    (hversion : s.ownedRecordFor network slug pc = none → VersionPasses g payload)
    (hreads : Reads body)
    (haccepts : Accepts s network pc block (s.ownedRecordFor network slug pc)) : files := by
  rw [submit.probed, wp_bind, wp_wait] at h
  cases hex : s.ownedRecordFor network slug pc with
  | some r =>
    obtain ⟨rec, hrec⟩ := ownedRecordFor_object hex
    obtain ⟨now, hnow⟩ := exists_clock_record s rec.id
    have h := h { probe := { up := true } } fun _ => rfl
    simp only [if_true, wp_bind, wp_awaiting, calm_ownedRecordFor, hex] at h
    have h := h { clock := now } fun _ => rfl
    simp only [calm_readObject (w := ⟨s, _⟩) hrec] at h
    rw [hex] at haccepts
    exact of_store hget hnow h hreads haccepts
  | none =>
    obtain ⟨detected, declared, hdeclared, hv⟩ := hversion hex
    obtain ⟨now, hnow⟩ := exists_clock_record s (network.text ++ "-" ++ slug)
    have h := h { probe := { up := true, detectedVersion := detected } } fun _ => rfl
    simp only [if_true, wp_bind, wp_awaiting, calm_ownedRecordFor, hex] at h
    have h := h { clock := now } fun _ => rfl
    simp only [calm_ofExcept] at h
    have h := h declared hdeclared
    simp only [hv] at h
    rw [hex] at haccepts
    exact of_store hget hnow h hreads haccepts

theorem calm_signed {body : Json} (hs : s.Sound) :
    Wp (Answers files) (Mild s) (fun _ => Same s) (submit.signed g i pc body network name slug) ⟨s, l⟩ ↔
      (Registers g s pc body network slug → files) := by
  simp only [submit.signed, wp_bind, calm_ofExcept]
  constructor
  · intro h hreg
    obtain ⟨payload, block, hp, hattests, hversion, hreads, haccepts⟩ := hreg
    obtain ⟨payload', given, hp', hv, hc, rfl, hsig⟩ := hattests
    cases hp.symm.trans hp'
    have h := h payload hp none hv
    simp only [wp_bind, calm_ofExcept] at h
    have h := h (some given) hc
    simp only [hsig] at h
    exact of_probed (validatePayload_get hv) h hversion hreads haccepts
  · intro h payload hp e hv
    cases e with
    | some e => exact Mild.of_same rfl
    | none =>
      simp only [wp_bind, calm_ofExcept]
      intro given hc
      cases given with
      | none => exact Mild.of_same rfl
      | some given =>
        simp only
        cases hsig : g.verifySignedPayload ((g.repairSignedBlock given).getD given) payload pc
            network with
        | some e => exact Mild.of_same rfl
        | none =>
          apply probed_of hs
          intro hversion hreads haccepts
          exact h ⟨payload, _, hp, ⟨payload, given, hp, hv, hc, rfl, hsig⟩, hversion, hreads, haccepts⟩

theorem calm_named {body : Json} (hs : s.Sound) :
    Wp (Answers files) (Mild s) (fun _ => Same s) (submit.named g i pc body network) ⟨s, l⟩ ↔
      ∀ name, nameIn body = .ok name → slugify name ≠ "" →
        (∀ r ∈ s.submissions.values, ∀ rec, s.object r = some rec →
          rec.named network (slugify name) → owns rec pc) →
        Registers g s pc body network (slugify name) → files := by
  rw [submit.named, wp_bind, calm_givenName]
  apply forall_congr'
  intro name
  apply imp_congr_right
  intro _
  generalize slugify name = slug
  by_cases hslug : slug = ""
  · simp only [hslug, if_true, wp_pure, ne_eq, not_true_eq_false, false_imp_iff, iff_true]
    exact Mild.of_same rfl
  · simp only [hslug, if_false, ne_eq, not_false_eq_true, true_imp_iff, wp_bind, wp_awaiting]
    rw [calm_nameConflict fun _ _ hw _ _ => Mild.of_same hw]
    apply imp_congr_right
    intro _
    rw [← calm_signed (i := i) (l := l) hs]
    constructor
    · intro h
      exact h {} fun _ => rfl
    · intro h _ _
      exact h

theorem calm_submit (hs : s.Sound) (sid : String) (body : Option Json) :
    Wp (Answers files) (Mild s) (fun _ => Same s) (submit g i sid body) ⟨s, l⟩ ↔
      ∀ pc b, s.holder sid = some pc → body = some b → Submits g s pc b → files := by
  rw [submit, wp_bind, calm_operatorBody fun _ _ hw => Mild.of_same hw]
  constructor
  · intro h pc b hpc hb hsub
    obtain ⟨name, network, hnet, hname, hslug, hfree, hreg⟩ := hsub
    have h := h pc b hpc hb
    simp only [wp_bind, calm_ofExcept] at h
    have h := h _ hnet
    cases network with
    | testnet => exact (calm_named hs).1 h name hname hslug hfree hreg
    | mainnet => exact (calm_named hs).1 h name hname hslug hfree hreg
  · intro h pc b hpc hb
    have hnamed (network : Network) (hnet : b.get "network" = .ok (some (.str network.text))) :
        Wp (Answers files) (Mild s) (fun _ => Same s) (submit.named g i pc b network) ⟨s, l⟩ :=
      (calm_named hs).2 fun name hname hslug hfree hreg =>
        h pc b hpc hb ⟨name, network, hnet, hname, hslug, hfree, hreg⟩
    simp only [wp_bind, calm_ofExcept]
    intro v hv
    split
    · exact hnamed .testnet hv
    · exact hnamed .mainnet hv
    · exact Mild.of_same rfl

theorem intact_iff (g : Gates) (files : Bool) (s : Store) (i : Nat) (q : Request) :
    Intact g files s i q ↔
      Wp (Answers files) (Mild s) (fun _ => Same s) (q.handler g i) ⟨s, []⟩ := by
  rw [wp_iff_alone]
  apply forall_congr'
  intro as
  apply imp_congr_right
  intro _
  apply forall_congr'
  intro r
  apply forall_congr'
  intro w
  apply imp_congr_right
  intro _
  rw [unchanged_iff]
  cases r with
  | ok resp => simp only [refused, decide_eq_true_eq, Mild, Same]
  | error e => simp only [refused, true_imp_iff, Same]

end Handlers

/-- A request that is refused changes nothing, however its awaits are answered, exactly where it
cannot be refused once it has changed something. -/
theorem refused_changes_nothing_iff (g : Gates) (files : Bool) (s : Store) (hs : s.Sound) (i : Nat)
    (q : Request) : Intact g files s i q ↔ g.Safe s files q := by
  rw [intact_iff]
  obtain ⟨route, sid, body⟩ := q
  cases route with
  | submit => exact calm_submit hs sid body
  | edit => exact calm_edit hs sid body
  | pairing => exact calm_pairing hs sid body
  | delete => exact calm_delete hs sid body
  | adminEdit => exact calm_adminEdit hs sid body
  | approve => exact calm_approve hs sid body
  | reject => exact calm_reject hs sid body
  | remove => exact calm_remove hs sid body

theorem oneListing_names {rec : StoreRecord} (h : oneListing.Names body k r rec) : rec = someListing := by
  obtain ⟨-, -, hr⟩ := h
  cases r with
  | zero => exact (Option.some.inj hr).symm
  | succ r => cases hr

theorem oneListing_sound : oneListing.Sound := by
  intro k r hk
  obtain ⟨rec, hr, -⟩ := oneListing_wellFormed.stored k r hk
  exact ⟨rec, hr, oneListing_wellFormed.normal r rec hr⟩

theorem refused_changes_nothing_rejection :
    Intact .lenient true oneListing 0 ⟨.reject, "maintainer", some (listingBody "http://a.onion")⟩ :=
  (refused_changes_nothing_iff .lenient true oneListing oneListing_sound 0 _).2 fun _ _ _ _ _ _ h => by
    rw [oneListing_names h, storable_iff]
    decide +kernel

/-- A listing that predates signed blocks. -/
def unsignedListing : Store where
  objects := [{ someListing with signed := none }]
  submissions := { entries := [("mainnet-dojo", 0)], nodup := List.nodup_singleton "mainnet-dojo" }
  sessions := someSessions

/-- The approval of a listing without a signed block is refused after it has been marked approved,
even though every file operation succeeds. -/
theorem refused_approval_marks_listing :
    ¬ ∀ (g : Gates) (s : Store), s.Sound → ∀ i q, Intact g true s i q := by
  intro h
  have hs : unsignedListing.Sound := by
    intro k r hk
    have hk : (if k = "mainnet-dojo" then some 0 else none) = some r := by
      simpa only [unsignedListing, Table.get, Table.lookup_cons, List.lookup_nil] using hk
    split at hk
    · cases hk
      exact ⟨_, rfl, rfl, _, rfl, by decide, by decide⟩
    · cases hk
  have hcalm := (intact_iff _ _ _ _ _).1
    (h .lenient unsignedListing hs 0 ⟨.approve, "maintainer", some (listingBody "http://a.onion")⟩)
  obtain ⟨-, hst, -⟩ := (calm_approve hs _ _).1 hcalm (listingBody "http://a.onion") "mainnet-dojo" 0 _
    ⟨"PM8Tmaintainer", by decide, by decide, by decide⟩ rfl ⟨by decide, by decide, rfl⟩
  rw [storable_iff] at hst
  exact absurd hst (by decide +kernel)

end Mise.Server
