import Mise.Server.Crypto

set_option autoImplicit true

namespace Mise.Server

open Js Async Logged

/-- Both values are what `JSON.parse` can give. -/
structure Payload.Parsed (numberText : String → String) (p : Payload) : Prop where
  pairing : ∀ v, p.pairing = some v → v.Parsed numberText
  explorer : ∀ v, p.explorer = some v → v.Parsed numberText

section Attested

variable (c : Crypto)

/-- The block verifies over the payload, by a notification address of the payment code. -/
def Crypto.Signs (code : String) (d : Details) : Prop :=
  ∃ block signer, d.signed = some block ∧
    c.verifySignedPayload block (some (canonicalPairing d.payload))
      (some (c.notificationAddresses code)) .mainnet = .ok signer

/-- The signature of a record verifies for one of its own payment codes. -/
def Crypto.Attested (rec : StoreRecord) : Prop := ∃ code ∈ rec.codes, c.Signs code rec.details

/-- A record is attested where a submission makes it, and its new details are signed by whoever
gives it new details. -/
def Crypto.Vouched : Event → Prop
  | .made _ _ rec => c.Attested rec ∧ rec.payload.Parsed c.numbers.text
  | .paired _ actor _ rec => ∃ code, actor = .operator (some code) ∧ c.Signs code rec.details ∧
      rec.payload.Parsed c.numbers.text
  | _ => True

/-- No session has an empty payment code. -/
def Store.LoggedIn (s : Store) : Prop :=
  ∀ id sess, s.sessions.get id = some sess → sess.paymentCode ≠ some ""

structure Crypto.Gated (w : World Event) : Prop where
  vouched : ∀ e ∈ w.log, c.Vouched e
  sessions : w.store.LoggedIn

end Attested

section Audit

variable {c : Crypto} {rec : StoreRecord} {code signed : String}

theorem verifySignedPayload_network (text : String) (m : Option String) (a : Option (List String))
    (n : Network) : c.verifySignedPayload text m a n = c.verifySignedPayload text m a .mainnet := by
  cases n with
  | mainnet => rfl
  | testnet => simp only [Crypto.verifySignedPayload, c.samePrefix]

theorem verifySignedPayload_ok {m : Option String} {a : Option (List String)} {n : Network}
    (h : c.verifySignedPayload signed m a n = .ok r) :
    ∃ parsed, parseSignedBlock signed = some parsed ∧ r = (parsed.address, parsed.paymentCode) ∧
      (∀ t ∈ m, c.sameSignedPayload .scalars parsed.pairingText t) ∧
      c.verify parsed.message parsed.address parsed.signature (c.messagePrefix n) = .ok true ∧
      (∀ k ∈ parsed.paymentCode, parsed.address ∈ c.notificationAddresses k) ∧
      ∀ l ∈ a, parsed.address ∈ l := by
  unfold Crypto.verifySignedPayload at h
  split at h
  · cases h
  · next parsed hp =>
    split at h
    · cases h
    · next hm =>
      split at h
      · cases h
      · cases h
      · next hv =>
        split at h
        · cases h
        · split at h
          · cases h
          · next hk =>
            split at h
            · cases h
            · next ha =>
              cases h
              refine ⟨parsed, hp, rfl, fun t ht => ?_, hv, fun k hk' => ?_, fun l hl => ?_⟩
              · simpa [Option.mem_def.1 ht] using hm
              · simpa [Option.mem_def.1 hk'] using hk
              · simpa [Option.mem_def.1 hl] using ha

theorem verifySignedPayload_empty {m : Option String} {a : Option (List String)} {n : Network} :
    c.verifySignedPayload "" m a n ≠ .ok r := by
  intro h
  obtain ⟨parsed, hp, -⟩ := verifySignedPayload_ok h
  cases hp

theorem auditCodes_verified {codes : List String} {signer : String × Option String}
    (hv : c.verifySignedPayload signed (some (canonicalPairing rec.payload))
      (some (c.notificationAddresses code)) .mainnet = .ok signer)
    (hc : code ∈ codes) (tried : List String) :
    (auditCodes c rec signed codes tried).1 = .verified := by
  induction codes generalizing tried with
  | nil => cases hc
  | cons k codes ih =>
    unfold auditCodes
    obtain rfl | hc := List.mem_cons.1 hc
    · have hv := (verifySignedPayload_network _ _ _ rec.network).trans hv
      split
      · next ha =>
        obtain ⟨parsed, -, -, -, -, -, hmem⟩ := verifySignedPayload_ok hv
        rw [ha] at hmem
        exact absurd (hmem _ rfl) List.not_mem_nil
      · next a as ha =>
        rw [← ha, hv]
    · split
      · exact ih hc _
      · split
        · rfl
        · exact ih hc _

theorem Crypto.Attested.audit (h : c.Attested rec) : (c.auditRecord rec).1 = .verified := by
  obtain ⟨code, hc, block, signer, hs, hv⟩ := h
  have hne : block ≠ "" := by
    rintro rfl
    exact verifySignedPayload_empty hv
  have hp : present rec.signed = some block := by
    have hs : rec.signed = some block := hs
    simp [present, hs, hne]
  rw [Crypto.auditRecord, hp]
  dsimp only
  rw [if_neg (List.ne_nil_of_mem hc)]
  exact auditCodes_verified hv hc []

end Audit

section Routes

variable {c : Crypto} {i : Nat}

/-- A part of a request that leaves the records attested. -/
abbrev Crypto.Safe (c : Crypto) (p : Action Event β) : Prop := Steady World.log c.Gated p

theorem gated_step {w w' : World Event} {l : List Event}
    (hs : w.store.LoggedIn → w'.store.LoggedIn) (hl : w'.log = l ++ w.log)
    (hv : ∀ e ∈ l, c.Vouched e) : Extends World.log c.Gated w w' := by
  refine ⟨⟨l, hl.symm⟩, fun h => ⟨fun e he => ?_, hs h.sessions⟩⟩
  rw [hl] at he
  obtain he | he := List.mem_append.1 he
  · exact hv e he
  · exact h.vouched e he

theorem gated_quiet {w w' : World Event} (hs : w.store.LoggedIn → w'.store.LoggedIn)
    (hl : w'.log = w.log) : Extends World.log c.Gated w w' :=
  gated_step (l := []) hs hl fun _ he => absurd he List.not_mem_nil

theorem gated_note {w w' : World Event} {e : Event} (hs : w'.store.sessions = w.store.sessions)
    (hl : w'.log = e :: w.log) (hv : c.Vouched e) : Extends World.log c.Gated w w' := by
  refine gated_step (l := [e]) (fun h => ?_) hl ?_
  · unfold Store.LoggedIn
    rw [hs]
    exact h
  · intro e' he
    rw [List.mem_singleton.1 he]
    exact hv

theorem gated_change {w : World Event} {f : Store → β × Store} {note : β → List Event}
    (hs : w.store.LoggedIn → (f w.store).2.LoggedIn)
    (hv : ∀ e ∈ note (f w.store).1, c.Vouched e) :
    Extends World.log c.Gated w (w.change f note).2 := gated_step hs rfl hv

theorem safe_awaiting {p : Action Event β} (h : c.Safe p) : c.Safe (awaiting p) :=
  .seq h fun _ => .seq .wait fun _ => .pure trivial

theorem safe_ofExcept (x : Except Throw β) : c.Safe (ofExcept x : Action Event β) := by
  cases x with
  | ok v => exact .pure trivial
  | error e => cases e; exact .throw _

theorem safe_persist : c.Safe (persist : Action Event Unit) := by
  refine .seq .wait fun a => .ite (.seq .wait fun b => .ite (.pure trivial) (.throw _)) ?_
  exact .seq (.throw _) fun _ => .seq .wait fun b => .ite (.pure trivial) (.throw _)

theorem safe_emit (e : Event) (h : c.Vouched e) : c.Safe (Async.update (World.emit e)) :=
  .update fun _ => gated_note rfl rfl h

theorem safe_fileOperation : c.Safe (fileOperation : Action Event Answer) :=
  .seq .wait fun _ => .ite (.pure trivial) (.seq (.throw _) fun _ => .pure trivial)

theorem safe_getSubmission (id : Option Json) : c.Safe (getSubmission i id) := by
  refine .seq .wait fun _ => .seq (safe_ofExcept _) fun k =>
    .updateGet (fun w => gated_change (fun h => ?_) fun e he => ?_) fun _ _ => trivial
  · unfold Store.getSubmission
    split
    · exact h
    · split <;> exact h
    · exact h
  · split at he
    · rw [List.mem_singleton.1 he]
      trivial
    · cases he

theorem safe_listSubmissions (sees : Bool) : c.Safe (listSubmissions i sees) := by
  refine .seq .wait fun _ => .seq (.updateGet (fun w => gated_change (fun h => h) fun e he => ?_)
    fun _ _ => trivial) fun _ => .pure trivial
  split at he
  · obtain ⟨x, -, rfl⟩ := List.mem_map.1 he
    trivial
  · cases he

theorem safe_deleteSubmission (actor : Actor) (id : Option Json) :
    c.Safe (deleteSubmission i actor id) := by
  refine .seq .wait fun _ => .seq (safe_ofExcept _) fun k =>
    .seq (.updateGet (fun w => gated_change (fun h => h) fun e he => ?_) fun _ _ => trivial)
    fun found => .ite (.pure trivial) (.seq (safe_awaiting safe_persist) fun _ => .pure trivial)
  split at he
  · obtain rfl | he := List.mem_cons.1 he
    · trivial
    · rw [List.mem_singleton.1 he]
      trivial
  · rw [List.mem_singleton.1 he]
    trivial

theorem safe_readObject (r : Nat) : c.Safe (readObject r) :=
  .seq .read fun w => by
    cases w.store.object r with
    | some rec => exact .pure trivial
    | none => exact .throw _

theorem safe_writeAtomic : c.Safe (rebuild.writeAtomic : Action Event Unit) :=
  .seq safe_fileOperation fun _ => .seq safe_fileOperation fun _ =>
    .seq safe_fileOperation fun _ => .pure trivial

theorem safe_rebuild : c.Safe (rebuild i) :=
  .seq (safe_emit (.rebuilding i) trivial) fun _ =>
  .seq (safe_awaiting safe_fileOperation) fun _ =>
  .seq (safe_awaiting safe_fileOperation) fun _ =>
  .seq .wait fun _ =>
  .seq (safe_awaiting (safe_listSubmissions false)) fun _ =>
  .seq .read fun _ =>
  .seq (safe_awaiting safe_fileOperation) fun _ =>
  .seq (safe_awaiting safe_fileOperation) fun _ =>
  .seq (safe_awaiting .wait) fun _ =>
  .seq (safe_awaiting .wait) fun _ =>
  .seq (safe_awaiting safe_writeAtomic) fun _ =>
  .seq (safe_emit _ trivial) fun _ =>
  .seq (safe_awaiting safe_fileOperation) fun _ =>
  .seq (safe_awaiting safe_writeAtomic) fun _ =>
  .seq (safe_awaiting safe_fileOperation) fun _ =>
  .seq (safe_awaiting safe_writeAtomic) fun _ => .pure trivial

theorem safe_tryRebuild : c.Safe (tryRebuild i) :=
  .tryCatch (.seq (safe_awaiting safe_rebuild) fun _ => .pure trivial) fun _ => .pure trivial

/-- A part of a request that gives nothing but what satisfies `K`. -/
abbrev Crypto.Gives (c : Crypto) (K : β → Prop) (p : Action Event β) : Prop :=
  Yields World.log c.Gated K p

theorem gives_awaiting {K : β → Prop} {p : Action Event β} (h : c.Gives K p) :
    c.Gives (fun x => K x.1) (awaiting p) :=
  .bind h fun _ hk => .seq .wait fun _ => .pure hk

theorem loggedIn_getSession {s : Store} (h : s.LoggedIn) (id : String) (now : Int) :
    (s.getSession id now).2.LoggedIn ∧
      ∀ sess, (s.getSession id now).1 = .own sess → sess.paymentCode ≠ some "" := by
  unfold Store.getSession
  split
  · exact ⟨h, nofun⟩
  · obtain ⟨sess, hf, hs⟩ | ⟨hf, -⟩ | ⟨hf, -⟩ := s.sessions.find_cases s.prototype id
    · simp only [hf]
      split
      · refine ⟨fun k sess' hk => ?_, nofun⟩
        rw [Table.get_delete] at hk
        split at hk
        · cases hk
        · exact h k sess' hk
      · refine ⟨h, fun sess' he => ?_⟩
        cases he
        exact h id sess hs
    · simp only [hf]
      exact ⟨h, nofun⟩
    · simp only [hf]
      exact ⟨h, nofun⟩

/-- The session has a payment code that is not empty, or none. -/
def FoundLogin (found : Found Session) : Prop :=
  ∀ sess, found = .own sess → sess.paymentCode ≠ some ""

theorem gives_getSession (id : String) : c.Gives FoundLogin (getSession id) := by
  unfold getSession
  refine .ite (.pure nofun) ?_
  refine .seq .wait fun a => ?_
  refine .seq .read fun w => ?_
  refine .bind (K := FoundLogin) (.updateGet (fun w => ?_) fun w h => ?_) fun sess hk => ?_
  · exact gated_change (fun h => (loggedIn_getSession h id a.clock).1)
      fun _ he => absurd he List.not_mem_nil
  · exact (loggedIn_getSession h.sessions id a.clock).2
  · exact .ite (.seq (safe_awaiting safe_persist) fun _ => .pure hk) (.pure hk)

theorem gives_sessionFrom (sid : String) : c.Gives (· ≠ some (some "")) (sessionFrom sid) := by
  refine .ite (.pure nofun) (.bind (gives_awaiting (gives_getSession sid)) fun x hk => ?_)
  obtain ⟨found, a⟩ := x
  cases found with
  | own sess => exact .pure fun he => hk sess rfl (Option.some.inj he)
  | inherited => exact .pure nofun
  | absent => exact .pure nofun

theorem gives_operatorBody (sid : String) (body : Option Json) :
    c.Gives (fun x => ∀ pc v, x = .ok (pc, v) → pc ≠ some "" ∧ body = some v)
      (operatorBody sid body) := by
  refine .bind (gives_awaiting (gives_sessionFrom sid)) fun x hk => ?_
  obtain ⟨s, a⟩ := x
  cases s with
  | none => exact .pure nofun
  | some pc =>
    refine .seq .wait fun _ => ?_
    cases body with
    | none => exact .pure nofun
    | some body =>
      refine .pure fun pc' v he => ?_
      cases he
      exact ⟨fun h => hk (congrArg some h), rfl⟩

theorem safe_adminBody (g : Gates) (sid : String) (body : Option Json) :
    c.Safe (adminBody g sid body) := by
  have hadmin : c.Safe (adminFrom g sid) := by
    refine .seq (gives_awaiting (gives_sessionFrom sid)).steady fun x => ?_
    obtain ⟨s, a⟩ := x
    cases s with
    | none => exact .pure trivial
    | some pc => exact .ite (.pure trivial) (.pure trivial)
  refine .seq (safe_awaiting hadmin) fun x => ?_
  obtain ⟨refusal, a⟩ := x
  cases refusal with
  | some r => exact .pure trivial
  | none =>
    refine .seq .wait fun _ => ?_
    cases body <;> exact .pure trivial

theorem safe_seedNodes : c.Safe (seedNodes : Action Event (List Seed)) :=
  .seq .wait fun _ => .pure trivial

theorem safe_scan (rec : StoreRecord → Bool) (seed : Seed → Bool) (why : StoreRecord → String)
    (reserved : String) : c.Safe (do
      let (refs, _) ← awaiting (listSubmissions i false)
      let w ← Async.read
      match (refs.filterMap w.store.object).find? rec with
      | some rec => return some (why rec)
      | none =>
        let (seeds, _) ← awaiting seedNodes
        return if seeds.any seed then some reserved else none) := by
  refine .seq (safe_awaiting (safe_listSubmissions false)) fun x => .seq .read fun w => ?_
  split
  · exact .pure trivial
  · exact .seq (safe_awaiting safe_seedNodes) fun _ => .pure trivial

theorem safe_ownedRecordFor (network : Network) (slug : String) (pc : Option String) :
    c.Safe (ownedRecordFor i network slug pc) :=
  .seq (safe_awaiting (safe_listSubmissions true)) fun _ => .seq .read fun _ => .pure trivial

theorem safe_givenName (body : Json) : c.Safe (givenName body) :=
  .seq (safe_ofExcept _) fun _ => .seq (safe_ofExcept _) fun _ => .pure trivial

theorem safe_found (body : Json) : c.Safe (do getSubmission i (← ofExcept (body.get "id"))) :=
  .seq (safe_ofExcept _) fun _ => safe_getSubmission _

theorem safe_ownedSubmission (pc : Option String) (body : Json) :
    c.Safe (ownedSubmission i pc body) := by
  refine .seq (safe_awaiting (safe_found body)) fun x => ?_
  obtain ⟨found, a⟩ := x
  cases found with
  | own r => exact .seq (safe_readObject r) fun _ => .pure trivial
  | inherited => exact .pure trivial
  | absent => exact .pure trivial

theorem safe_foundSubmission (body : Json) : c.Safe (foundSubmission i body) := by
  refine .seq (safe_awaiting (safe_found body)) fun x => ?_
  obtain ⟨found, a⟩ := x
  cases found with
  | own r => exact .pure trivial
  | inherited => exact .throw _
  | absent => exact .pure trivial

theorem gives_ofExcept (x : Except Throw β) :
    c.Gives (fun v => x = .ok v) (ofExcept x : Action Event β) := by
  cases x with
  | ok v => exact .pure rfl
  | error e => cases e; exact .throw _

theorem safe_assign (r : Nat) (note : StoreRecord → Event) (f : StoreRecord → StoreRecord)
    (h : ∀ old, c.Vouched (note (f old))) : c.Safe (Async.update (World.assign r note f)) := by
  refine .update fun w => ?_
  cases hr : w.store.object r with
  | none => exact gated_quiet (fun h => h) (by simp only [World.assign, hr])
  | some old => exact gated_note rfl (by simp only [World.assign, hr]) (h old)

theorem safe_change (actor : Actor) (r : Nat) (f : StoreRecord → StoreRecord) :
    c.Safe (Async.update (World.assign r (.changed i actor r) f)) :=
  safe_assign r _ f fun _ => trivial

/-- What `putSubmission` does with a record that it has normalised. -/
theorem safe_checked (actor : Actor) (purpose : Purpose) (r : Nat) : c.Safe (do
    let w ← Async.read
    match (w.store.object r).map StoreRecord.guard with
    | some (.ok ()) =>
      let _ ← Async.wait
      Async.update (World.putObject i actor purpose r)
      let _ ← awaiting persist
    | some (.error e) => MonadExcept.throw e
    | none => MonadExcept.throw .typeError : Action Event Unit) := by
  refine .seq .read fun w => ?_
  split
  · refine .seq .wait fun _ => .seq (.update fun w => ?_) fun _ =>
      .seq (safe_awaiting safe_persist) fun _ => .pure trivial
    have hs : (w.putObject i actor purpose r).store.sessions = w.store.sessions := by
      simp only [World.putObject, Store.putObject]
      split <;> rfl
    cases hr : w.store.object r with
    | none =>
      refine gated_quiet (fun h => ?_) (by simp only [World.putObject, hr])
      unfold Store.LoggedIn
      rw [hs]
      exact h
    | some rec =>
      have hl : (w.putObject i actor purpose r).log = .put i actor purpose rec.id r :: w.log := by
        simp only [World.putObject, hr]
      exact gated_note hs hl trivial
  · exact .throw _
  · exact .throw _

theorem safe_putSubmission {purpose : Purpose} (hp : purpose.submits = false) (actor : Actor)
    (r : Nat) : c.Safe (putSubmission i actor purpose r) := by
  refine .seq (.update fun w => ?_) fun _ => safe_checked actor purpose r
  refine gated_quiet (fun h => h) ?_
  simp only [World.normalise, hp]
  split
  · next heq => cases heq
  · rfl

theorem safe_create {purpose : Purpose} (hp : purpose.submits = true) (actor : Actor)
    {rec : StoreRecord} (h : c.Vouched (.made i 0 (normaliseSubmission rec))) (x : Response) :
    c.Safe (do
      let r ← makeObject rec
      let _ ← awaiting (putSubmission i actor purpose r)
      return x) := by
  intro w₀ w hw
  have hrest := Yields.seq (safe_awaiting (safe_checked (c := c) (i := i) actor purpose
    w.store.objects.length)) fun _ => Yields.pure (K := fun _ : Response => True) (a := x) trivial
  have hlast : ({ w.store with objects := w.store.objects ++ [rec] } : Store).object
      w.store.objects.length = some rec := by simp [Store.object]
  have hmade : Extends World.log c.Gated w (World.normalise i purpose w.store.objects.length
      { w with store.objects := w.store.objects ++ [rec] }) := by
    refine gated_note (e := .made i w.store.objects.length (normaliseSubmission rec)) rfl ?_ h
    simp only [World.normalise, hlast, hp]
  have hk := hrest _ _ (hw.step hmade (.const _) fun _ => trivial)
  simp only [awaiting, putSubmission, makeObject, sat_bind, sat_updateGet, sat_update] at hk ⊢
  exact hk

theorem safe_republish (r : Nat) : c.Safe (applyEdit.republish i r) :=
  .seq (safe_readObject r) fun _ =>
    .ite (.seq (safe_awaiting safe_tryRebuild) fun _ => .pure trivial) (.pure trivial)

theorem safe_slugTakenByOther (network : Network) (slug excludeId : String) :
    c.Safe (slugTakenByOther i network slug excludeId) := safe_scan _ _ _ _

theorem safe_nameConflict (network : Network) (slug : String) (pc : Option String) :
    c.Safe (nameConflict i network slug pc) := safe_scan _ _ _ _

theorem safe_applyEdit (actor : Actor) (r : Nat) (body : Json) :
    c.Safe (applyEdit i actor r body) := by
  refine .seq (safe_givenName body) fun name => ?_
  generalize slugify name = slug
  refine .ite (.pure trivial) ?_
  refine .seq (safe_readObject r) fun old => .seq (safe_awaiting (safe_slugTakenByOther _ _ _)) fun x => ?_
  obtain ⟨taken, a⟩ := x
  cases taken with
  | some why => exact .pure trivial
  | none =>
    exact .seq (safe_change _ r _) fun _ =>
      .seq (safe_ofExcept _) fun _ => .seq (safe_ofExcept _) fun _ =>
      .seq (safe_change _ r _) fun _ =>
      .seq (safe_awaiting (safe_putSubmission rfl actor r)) fun _ => safe_republish r

theorem safe_edit (sid : String) (body : Option Json) : c.Safe (edit i sid body) := by
  refine .seq (gives_operatorBody sid body).steady fun x => ?_
  cases x with
  | error r => exact .pure trivial
  | ok x =>
    obtain ⟨pc, body⟩ := x
    refine .seq (safe_ownedSubmission pc body) fun x => ?_
    obtain ⟨target, a⟩ := x
    cases target with
    | none => exact .pure trivial
    | some r => exact .seq (safe_awaiting (safe_applyEdit _ r body)) fun _ => .pure trivial

theorem safe_delete (sid : String) (body : Option Json) : c.Safe (delete i sid body) := by
  refine .seq (gives_operatorBody sid body).steady fun x => ?_
  cases x with
  | error r => exact .pure trivial
  | ok x =>
    obtain ⟨pc, body⟩ := x
    refine .seq (safe_ownedSubmission pc body) fun x => ?_
    obtain ⟨target, a⟩ := x
    cases target with
    | none => exact .pure trivial
    | some r => exact .seq (safe_awaiting (.seq (safe_ofExcept _) fun _ =>
        safe_deleteSubmission _ _)) fun _ => .pure trivial

theorem safe_adminEdit (g : Gates) (sid : String) (body : Option Json) :
    c.Safe (adminEdit g i sid body) := by
  refine .seq (safe_adminBody g sid body) fun x => ?_
  cases x with
  | error r => exact .pure trivial
  | ok body =>
    refine .seq (safe_awaiting (safe_found body)) fun x => ?_
    obtain ⟨found, a⟩ := x
    cases found with
    | absent => exact .pure trivial
    | inherited =>
      refine .seq (safe_givenName body) fun name => ?_
      generalize slugify name = slug
      exact .ite (.pure trivial) (.throw _)
    | own r => exact .seq (safe_awaiting (safe_applyEdit _ r body)) fun _ => .pure trivial

theorem safe_setPaynym (r : Nat) (nym : String) : c.Safe (approve.setPaynym i r nym) :=
  safe_change _ r _

theorem safe_paynym (r : Nat) (given : Option Json) : c.Safe (approve.paynym i r given) := by
  unfold approve.paynym
  refine .ite ?_ (.seq (safe_readObject r) fun old => .ite (.seq .wait fun a => ?_) (.pure trivial))
  · split
    · exact safe_setPaynym r _
    · exact .throw _
  · split
    · exact safe_setPaynym r _
    · exact .pure trivial

theorem safe_approve (g : Gates) (sid : String) (body : Option Json) :
    c.Safe (approve g i sid body) := by
  refine .seq (safe_adminBody g sid body) fun x => ?_
  cases x with
  | error r => exact .pure trivial
  | ok body =>
    refine .seq (safe_foundSubmission body) fun x => ?_
    obtain ⟨found, a⟩ := x
    cases found with
    | none => exact .pure trivial
    | some r =>
      refine .seq (safe_change _ r _) fun _ => .seq (safe_ofExcept _) fun nym => ?_
      exact .seq (safe_paynym r _) fun _ => .seq (safe_awaiting (safe_putSubmission rfl _ r)) fun _ =>
        .seq (safe_awaiting safe_tryRebuild) fun _ => .pure trivial

theorem safe_reject (g : Gates) (sid : String) (body : Option Json) :
    c.Safe (reject g i sid body) := by
  refine .seq (safe_adminBody g sid body) fun x => ?_
  cases x with
  | error r => exact .pure trivial
  | ok body =>
    refine .seq (safe_foundSubmission body) fun x => ?_
    obtain ⟨found, a⟩ := x
    cases found with
    | none => exact .pure trivial
    | some r =>
      exact .seq (safe_change _ r _) fun _ =>
        .seq (safe_awaiting (safe_putSubmission rfl _ r)) fun _ =>
        .seq (safe_awaiting safe_tryRebuild) fun _ => .pure trivial

theorem safe_remove (g : Gates) (sid : String) (body : Option Json) :
    c.Safe (remove g i sid body) := by
  refine .seq (safe_adminBody g sid body) fun x => ?_
  cases x with
  | error r => exact .pure trivial
  | ok body => exact .seq (safe_awaiting (.seq (safe_ofExcept _) fun _ =>
      safe_deleteSubmission _ _)) fun _ => .seq (safe_awaiting safe_tryRebuild) fun _ => .pure trivial

/-- A block that the gate lets through is signed by the session's payment code. -/
theorem gate_signs {g : Gates} {block : String} {payload : Option Json} {pc : Option String}
    {network : Network} (h : (c.gates g).verifySignedPayload block payload pc network = none) :
    ∃ code, pc = some code ∧ c.Signs code ⟨.given payload, orNull block⟩ := by
  simp only [Crypto.gates] at h
  split at h
  · next r hv =>
    cases pc with
    | none =>
      obtain ⟨parsed, -, -, -, -, -, ha⟩ := verifySignedPayload_ok hv
      exact absurd (ha [] rfl) List.not_mem_nil
    | some code =>
      have hne : block ≠ "" := by
        rintro rfl
        exact verifySignedPayload_empty hv
      exact ⟨code, rfl, block, r, by simp [orNull, hne],
        (verifySignedPayload_network _ _ _ network).symm.trans hv⟩
  · cases h

theorem given_eq {payload : Option Json}
    (hp : (payload.getD .null).get "pairing" = .ok x) (he : (payload.getD .null).get "explorer" = .ok y) :
    Payload.given payload = ⟨x, y⟩ := by
  cases payload with
  | none => cases hp
  | some v =>
    cases v with
    | null => cases hp
    | obj fields =>
      cases hp
      cases he
      rfl
    | _ =>
      cases hp
      cases he
      rfl

theorem parsed_get {numberText : String → String} {v w : Json} {k : String}
    (h : v.Parsed numberText) (hg : v.get k = .ok (some w)) : w.Parsed numberText := by
  cases v with
  | obj fields =>
    have hl : fields.lookup k = some w := Except.ok.inj hg
    exact parsedFields_iff.1 h.2 _ (Table.mem_of_lookup hl)
  | null => cases hg
  | _ => cases Except.ok.inj hg

theorem parsed_payload {numberText : String → String} {body : Json} {payload : Option Json}
    (h : body.Parsed numberText) (hb : body.get "payload" = .ok payload)
    (hp : (payload.getD .null).get "pairing" = .ok x)
    (he : (payload.getD .null).get "explorer" = .ok y) : Payload.Parsed numberText ⟨x, y⟩ := by
  cases payload with
  | none => cases hp
  | some v =>
    have hv := parsed_get h hb
    constructor
    · rintro w rfl
      exact parsed_get hv hp
    · rintro w rfl
      exact parsed_get hv he

theorem vouched_made {code block : String} {payload : Payload} {rec : StoreRecord} {l : List String}
    (hne : code ≠ "") (hs : c.Signs code ⟨payload, orNull block⟩)
    (hp : payload.Parsed c.numbers.text) (hcodes : rec.paymentCodes = some (unique (l ++ [code])))
    (hpayload : rec.payload = payload) (hsigned : rec.signed = orNull block) (r : Nat) :
    c.Vouched (.made i r (normaliseSubmission rec)) := by
  subst hpayload
  refine ⟨⟨code, ?_, ?_⟩, hp⟩
  · simp [StoreRecord.codes, normaliseSubmission, StoreRecord.allCodes, hcodes, hne]
  · simpa only [StoreRecord.details, normaliseSubmission_payload, normaliseSubmission_signed, hsigned]
      using hs

theorem safe_store {g : Gates} {body payload : Json} {purpose : Purpose} {code block id : String}
    (hp : purpose.submits = true) (hne : code ≠ "")
    (hv : ∀ x y, payload.get "pairing" = .ok x → payload.get "explorer" = .ok y →
      c.Signs code ⟨⟨x, y⟩, orNull block⟩ ∧ Payload.Parsed c.numbers.text ⟨x, y⟩) :
    c.Safe (submit.store g i (some code) body network name payload block check now id purpose
      existing) := by
  unfold submit.store
  refine .seq .wait fun a => .seq .read fun w => ?_
  refine .seq (safe_ofExcept _) fun _ => .seq (safe_ofExcept _) fun _ =>
    .seq (safe_ofExcept _) fun _ => .seq (safe_ofExcept _) fun _ =>
    .bind (gives_ofExcept _) fun x hx => .bind (gives_ofExcept _) fun y hy => ?_
  obtain ⟨hs, hparsed⟩ := hv x y hx hy
  exact safe_create hp _ (vouched_made hne hs hparsed rfl rfl rfl 0) _

theorem safe_submitProbed {g : Gates} {body payload : Json} {code block : String} (hne : code ≠ "")
    (hv : ∀ x y, payload.get "pairing" = .ok x → payload.get "explorer" = .ok y →
      c.Signs code ⟨⟨x, y⟩, orNull block⟩ ∧ Payload.Parsed c.numbers.text ⟨x, y⟩) :
    c.Safe (submit.probed g i (some code) body network name slug payload block) := by
  unfold submit.probed
  refine .seq .wait fun a => .ite ?_ (.pure trivial)
  refine .seq (safe_awaiting (safe_ownedRecordFor network slug _)) fun x => ?_
  obtain ⟨existing, b⟩ := x
  cases existing with
  | some r => exact .seq (safe_readObject r) fun old => safe_store rfl hne hv
  | none =>
    refine .seq (safe_ofExcept _) fun declared => ?_
    dsimp only
    split
    · exact .pure trivial
    · exact safe_store rfl hne hv

theorem gate_vouches {g : Gates} {body : Json} {payload : Option Json} {pc : Option String}
    {block : String} {network : Network} (hbody : body.Parsed c.numbers.text)
    (hpayload : body.get "payload" = .ok payload)
    (h : (c.gates g).verifySignedPayload block payload pc network = none) :
    ∃ code, pc = some code ∧ ∀ x y, (payload.getD .null).get "pairing" = .ok x →
      (payload.getD .null).get "explorer" = .ok y →
      c.Signs code ⟨⟨x, y⟩, orNull block⟩ ∧ Payload.Parsed c.numbers.text ⟨x, y⟩ := by
  obtain ⟨code, rfl, hs⟩ := gate_signs h
  refine ⟨code, rfl, fun x y hx hy => ⟨?_, parsed_payload hbody hpayload hx hy⟩⟩
  rw [← given_eq hx hy]
  exact hs

theorem safe_submit (g : Gates) (sid : String) (body : Option Json)
    (hbody : ∀ v, body = some v → v.Parsed c.numbers.text) :
    c.Safe (submit (c.gates g) i sid body) := by
  refine .bind (gives_operatorBody sid body) fun x hx => ?_
  cases x with
  | error r => exact .pure trivial
  | ok x =>
    obtain ⟨pc, body⟩ := x
    obtain ⟨hpc, hb⟩ := hx pc body rfl
    have hnamed (network : Network) : c.Safe (submit.named (c.gates g) i pc body network) := by
      unfold submit.named
      refine .seq (safe_givenName body) fun name => ?_
      generalize slugify name = slug
      refine .ite (.pure trivial) ?_
      refine .seq (safe_awaiting (safe_nameConflict network slug pc)) fun x => ?_
      obtain ⟨conflict, a⟩ := x
      cases conflict with
      | some why => exact .pure trivial
      | none =>
        unfold submit.signed
        refine .bind (gives_ofExcept _) fun payload hpayload => .seq (safe_ofExcept _) fun err => ?_
        cases err with
        | some e => exact .pure trivial
        | none =>
          refine .seq (safe_ofExcept _) fun given => ?_
          cases given with
          | none => exact .pure trivial
          | some block =>
            dsimp only
            split
            · exact .pure trivial
            · next hgate =>
              obtain ⟨code, rfl, hv⟩ := gate_vouches (hbody body hb) hpayload hgate
              exact safe_submitProbed (fun h => hpc (congrArg some h)) hv
    refine .seq (safe_ofExcept _) fun network => ?_
    split
    · exact hnamed .testnet
    · exact hnamed .mainnet
    · exact .pure trivial

theorem safe_pairing (g : Gates) (sid : String) (body : Option Json)
    (hbody : ∀ v, body = some v → v.Parsed c.numbers.text) :
    c.Safe (pairing (c.gates g) i sid body) := by
  refine .bind (gives_operatorBody sid body) fun x hx => ?_
  cases x with
  | error r => exact .pure trivial
  | ok x =>
    obtain ⟨pc, body⟩ := x
    obtain ⟨-, hb⟩ := hx pc body rfl
    refine .seq (safe_ownedSubmission pc body) fun x => ?_
    obtain ⟨target, a⟩ := x
    cases target with
    | none => exact .pure trivial
    | some r =>
      dsimp only
      unfold pairing.verified
      refine .seq (safe_readObject r) fun old => .bind (gives_ofExcept _) fun payload hpayload =>
        .seq (safe_ofExcept _) fun err => ?_
      cases err with
      | some e => exact .pure trivial
      | none =>
        refine .seq (safe_ofExcept _) fun given => ?_
        cases given with
        | none => exact .pure trivial
        | some block =>
          dsimp only
          split
          · exact .pure trivial
          · next hgate =>
            obtain ⟨code, rfl, hv⟩ := gate_vouches (hbody body hb) hpayload hgate
            unfold pairing.probed
            refine .seq .wait fun b => .ite ?_ (.pure trivial)
            refine .bind (gives_ofExcept _) fun x hx => .bind (gives_ofExcept _) fun y hy => ?_
            have hvouched := hv x y hx hy
            exact .seq (safe_assign r _ _ fun old => ⟨code, rfl, hvouched⟩) fun _ =>
              .seq (safe_awaiting (safe_putSubmission rfl _ r)) fun _ => safe_republish r

theorem safe_serve (g : Gates) (q : Request) (hbody : ∀ v, q.body = some v → v.Parsed c.numbers.text) :
    c.Safe (serve (c.gates g) i q) := by
  have hq : c.Safe (q.handler (c.gates g) i) := by
    unfold Request.handler
    cases q.route with
    | submit => exact safe_submit g q.sid q.body hbody
    | edit => exact safe_edit q.sid q.body
    | pairing => exact safe_pairing g q.sid q.body hbody
    | delete => exact safe_delete q.sid q.body
    | adminEdit => exact safe_adminEdit (c.gates g) q.sid q.body
    | approve => exact safe_approve (c.gates g) q.sid q.body
    | reject => exact safe_reject (c.gates g) q.sid q.body
    | remove => exact safe_remove (c.gates g) q.sid q.body
  exact .seq (safe_emit (.began i) trivial) fun _ =>
    .seq (safe_emit (.asked i q) trivial) fun _ =>
    .seq (.tryCatch hq fun _ => .pure trivial) fun r =>
    .seq (safe_emit (.answered i r.code) trivial) fun _ => .pure trivial

end Routes

end Mise.Server
