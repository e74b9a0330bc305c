import Mise.Server.Gated
import Mise.Server.Serve
import Mise.Server.StoreFile

set_option autoImplicit true

namespace Mise.Server

open Js Async Logged

/-- A session as a login leaves it, with the payment code that `auth47.verify` has returned. -/
structure LoginSession where
  paymentCode : String
  expires : Int
  present : paymentCode ≠ ""

/-- A request as it arrives, with its session cookie and the text of its body. -/
structure Arrival where
  route : Route
  sid : String
  body : String

/-- A stretch of the server's life: a login, requests in any order and interleaving, or a restart
that reads the file of the last `persist`. -/
inductive Phase where
  | login (id : String) (sess : LoginSession)
  | requests (moves : List (Move Arrival Answer))
  | restart

section Lifetime

variable (c : Crypto)

def Arrival.request (a : Arrival) : Request := ⟨a.route, a.sid, c.parse a.body⟩

/-- Both values after they have been written to a file and read again. -/
def Payload.reread (p : Payload) : Payload where
  pairing := p.pairing.bind fun v => c.parse v.stringify
  explorer := p.explorer.bind fun v => c.parse v.stringify

def StoreRecord.reread (rec : StoreRecord) : StoreRecord :=
  { rec with payload := rec.payload.reread c }

/-- The contents of the file as `JSON.parse` gives them. -/
def StoreShape.reread (f : StoreShape) : StoreShape :=
  { f with submissions := f.submissions.filterMap fun rec => some (rec.reread c) }

def Phase.run (g : Gates) (s : Store) : Phase → Store
  | login id sess => s.putSession id ⟨some sess.paymentCode, sess.expires⟩
  | requests moves => (Pool.run (serve (c.gates g)) ⟨⟨s, []⟩, []⟩
      (moves.map (.map (Arrival.request c)))).shared.store
  | restart => StoreShape.load (some (s.shape.reread c))

/-- The store after these phases, which began with none. -/
def lifetime (g : Gates) (phases : List Phase) : Store := phases.foldl (Phase.run c g) {}

/-- What holds of the store whenever no request is in the middle of a step. -/
structure Crypto.Vetted (s : Store) : Prop where
  wellFormed : s.WellFormed
  sessions : s.LoggedIn
  attested : ∀ r rec, s.object r = some rec → c.Attested rec
  parsed : ∀ r rec, s.object r = some rec → rec.payload.Parsed c.numbers.text

end Lifetime

variable {c : Crypto} {g : Gates} {s : Store} {rec : StoreRecord}

theorem Legal.attested (h : Legal s l) (hs : c.Vetted s) (hv : ∀ e ∈ l, c.Vouched e)
    (hr : content s r l = some rec) : c.Attested rec ∧ rec.payload.Parsed c.numbers.text := by
  induction h generalizing rec with
  | nil => exact ⟨hs.attested r rec hr, hs.parsed r rec hr⟩
  | @cons l e h he ih =>
    have ih {old : StoreRecord} (ho : content s r l = some old) :=
      ih (fun e he => hv e (List.mem_cons_of_mem _ he)) ho
    have hve := hv e List.mem_cons_self
    rw [content] at hr
    split at hr
    · next q new hw =>
      split at hr
      · next hq =>
        subst hq
        cases hr
        cases e with
        | made i r' new =>
          cases hw
          exact hve
        | changed i actor r' new =>
          cases hw
          obtain ⟨old, ho, -, -, -, hcodes, hdetails⟩ := he
          obtain ⟨⟨code, hc, hsign⟩, hp⟩ := ih ho
          have hpayload : rec.payload = old.payload := congrArg Details.payload hdetails
          exact ⟨⟨code, hcodes ▸ hc, hdetails ▸ hsign⟩, hpayload ▸ hp⟩
        | paired i actor r' new =>
          cases hw
          obtain ⟨⟨old, -, hmay, -, -, hcodes⟩, -⟩ := he
          obtain ⟨code, rfl, hsign, hp⟩ := hve
          obtain ⟨code', hc, he⟩ := hmay
          cases he
          exact ⟨⟨code, hcodes ▸ hc, hsign⟩, hp⟩
        | _ => cases hw
      · exact ih hr
    · exact ih hr

theorem vetted_serve (h : c.Vetted s) (moves : List (Move Arrival Answer)) :
    c.Vetted (Phase.run c g s (.requests moves)) := by
  let w := (Pool.run (serve (c.gates g)) ⟨⟨s, []⟩, []⟩
    (moves.map (.map (Arrival.request c)))).shared
  have ht : Tracks s w := tracks_run s h.wellFormed (c.gates g) _
  have hparsed : ∀ q, Move.call q ∈ moves.map (.map (Arrival.request c)) →
      ∀ v, q.body = some v → v.Parsed c.numbers.text := by
    intro q hq v hv
    obtain ⟨m, -, hm⟩ := List.mem_map.1 hq
    cases m with
    | call a =>
      cases hm
      exact parse_parsed hv
    | resume i x => cases hm
  have hw : c.Gated w := inv_run World.log
    (fun i q w (hq : ∀ v, q.body = some v → v.Parsed c.numbers.text) hk => safe_serve g q hq w w hk)
    ⟨fun _ he => absurd he List.not_mem_nil, h.sessions⟩ _ hparsed
  have hobject {r : Nat} {rec : StoreRecord} (hr : w.store.object r = some rec) :=
    ht.legal.attested h hw.vouched ((ht.objects r).symm.trans hr)
  constructor
  · constructor
    · intro id r hr
      obtain ⟨rec, ho, hid⟩ := ht.legal.stored h.wellFormed ((ht.slots id).symm.trans hr)
      exact ⟨rec, (ht.objects r).trans ho, hid⟩
    · intro r rec hr
      exact ht.legal.normal h.wellFormed ((ht.objects r).symm.trans hr)
  · exact hw.sessions
  · exact fun r rec hr => (hobject hr).1
  · exact fun r rec hr => (hobject hr).2

theorem reread_values {v : Json} (h : v.Parsed c.numbers.text) :
    ∃ v', c.parse v.stringify = some v' ∧ v'.Parsed c.numbers.text ∧ v'.chars .scalars = v.chars .scalars :=
  ⟨v.reparsed, parse_stringify h, Json.Parsed.reparsed v h, chars_reparsed v⟩

theorem canonicalPairing_congr {p q : Payload}
    (hp : p.pairing.map (Json.chars .scalars) = q.pairing.map (Json.chars .scalars))
    (he : p.explorer.map (Json.chars .scalars) = q.explorer.map (Json.chars .scalars)) :
    canonicalPairing p = canonicalPairing q := by
  obtain ⟨p₁, p₂⟩ := p
  obtain ⟨q₁, q₂⟩ := q
  cases p₁ <;> cases q₁ <;> cases p₂ <;> cases q₂ <;>
    simp_all [canonicalPairing, Json.stringify, Json.chars, Json.moreMembers]

theorem Payload.Parsed.reread {p : Payload} (h : p.Parsed c.numbers.text) :
    (p.reread c).Parsed c.numbers.text ∧ canonicalPairing (p.reread c) = canonicalPairing p := by
  have hvalue (v : Option Json) (hv : ∀ x, v = some x → x.Parsed c.numbers.text) :
      (∀ y, (v.bind fun x => c.parse x.stringify) = some y → y.Parsed c.numbers.text) ∧
        (v.bind fun x => c.parse x.stringify).map (Json.chars .scalars) = v.map (Json.chars .scalars) := by
    cases v with
    | none => exact ⟨nofun, rfl⟩
    | some x =>
      obtain ⟨y, hy, hyp, hyc⟩ := reread_values (hv x rfl)
      rw [Option.bind_some, hy]
      exact ⟨fun z hz => Option.some.inj hz ▸ hyp, congrArg some hyc⟩
  obtain ⟨hp, hpc⟩ := hvalue p.pairing h.pairing
  obtain ⟨he, hec⟩ := hvalue p.explorer h.explorer
  exact ⟨⟨hp, he⟩, canonicalPairing_congr hpc hec⟩

theorem attested_reread (h : c.Attested rec) (hp : rec.payload.Parsed c.numbers.text) :
    c.Attested (rec.reread c) := by
  obtain ⟨code, hc, block, signer, hs, hv⟩ := h
  refine ⟨code, hc, block, signer, hs, ?_⟩
  change c.verifySignedPayload block (some (canonicalPairing (rec.payload.reread c))) _ _ = _
  rw [hp.reread.2]
  exact hv

theorem vetted_restart (h : c.Vetted s) : c.Vetted (Phase.run c g s .restart) := by
  let f := s.shape.reread c
  have hf : ∀ k rec, f.submissions.get k = some rec →
      ∃ r old, s.object r = some old ∧ old.id = k ∧ rec = old.reread c := by
    intro k rec hk
    change ((s.submissions.filterMap s.object).filterMap fun rec => some (rec.reread c)).get k =
      some rec at hk
    rw [Table.get_filterMap, Table.get_filterMap] at hk
    obtain ⟨old, ho, he⟩ := Option.bind_eq_some_iff.1 hk
    obtain ⟨r, hr, ho⟩ := Option.bind_eq_some_iff.1 ho
    obtain ⟨rec', hrec, hid⟩ := h.wellFormed.stored k r hr
    cases ho.symm.trans hrec
    exact ⟨r, old, ho, hid, (Option.some.inj he).symm⟩
  have hnormal {r : Nat} {old : StoreRecord} (ho : s.object r = some old) :
      normaliseSubmission (old.reread c) = old.reread c :=
    Normal.normalise (h.wellFormed.normal r old ho)
  have hobject : ∀ r rec, (StoreShape.load (some f)).object r = some rec →
      ∃ q old, s.object q = some old ∧ rec = old.reread c := by
    intro r rec hr
    have hm : rec ∈ f.submissions.values.map normaliseSubmission := List.mem_of_getElem? hr
    obtain ⟨rec', hm', rfl⟩ := List.mem_map.1 hm
    obtain ⟨x, hx, rfl⟩ := List.mem_map.1 hm'
    obtain ⟨q, old, ho, -, he⟩ := hf x.1 x.2 (Table.get_of_mem hx)
    exact ⟨q, old, ho, by rw [he, hnormal ho]⟩
  constructor
  · constructor
    · intro k r hr
      obtain ⟨⟨x, i⟩, hx, he⟩ := List.mem_map.1 (Table.mem_of_lookup hr)
      cases he
      have hx : f.submissions.entries[i]? = some x := List.mem_zipIdx_iff_getElem?.1 hx
      obtain ⟨q, old, ho, hid, he⟩ := hf x.1 x.2 (Table.get_of_mem (List.mem_of_getElem? hx))
      refine ⟨normaliseSubmission x.2, ?_, ?_⟩
      · change (f.submissions.values.map normaliseSubmission)[i]? = _
        simp [Table.values, hx]
      · rw [he]
        exact hid
    · intro r rec hr
      obtain ⟨q, old, ho, rfl⟩ := hobject r rec hr
      exact h.wellFormed.normal q old ho
  · exact h.sessions
  · intro r rec hr
    obtain ⟨q, old, ho, rfl⟩ := hobject r rec hr
    exact attested_reread (h.attested q old ho) (h.parsed q old ho)
  · intro r rec hr
    obtain ⟨q, old, ho, rfl⟩ := hobject r rec hr
    exact (h.parsed q old ho).reread.1

theorem vetted_login (h : c.Vetted s) (id : String) (sess : LoginSession) :
    c.Vetted (Phase.run c g s (.login id sess)) where
  wellFormed := ⟨h.wellFormed.stored, h.wellFormed.normal⟩
  sessions k sess' hk := by
    change (s.sessions.set id ⟨some sess.paymentCode, sess.expires⟩).get k = some sess' at hk
    rw [Table.get_set] at hk
    split at hk
    · cases hk
      exact fun he => sess.present (Option.some.inj he)
    · exact h.sessions k sess' hk
  attested := h.attested
  parsed := h.parsed

theorem vetted_lifetime (c : Crypto) (g : Gates) (phases : List Phase) :
    c.Vetted (lifetime c g phases) := by
  have hrun : ∀ s, c.Vetted s → c.Vetted (phases.foldl (Phase.run c g) s) := by
    induction phases with
    | nil => exact fun _ h => h
    | cons p phases ih =>
      intro s h
      refine ih _ ?_
      cases p with
      | login id sess => exact vetted_login h id sess
      | requests moves => exact vetted_serve h moves
      | restart => exact vetted_restart h
  refine hrun {} ⟨⟨fun _ _ h => ?_, fun r rec h => ?_⟩, fun _ _ h => ?_, fun r rec h => ?_,
    fun r rec h => ?_⟩
  all_goals simp [Store.object] at h

/-- The signed block of the record passes the gate for one of its own payment codes. -/
def Crypto.passes (c : Crypto) (rec : StoreRecord) : Bool :=
  rec.codes.any fun code => rec.signed.any fun block =>
    c.verifySignedPayload block (some (canonicalPairing rec.payload))
      (some (c.notificationAddresses code)) rec.network matches .ok _

theorem Crypto.Attested.passes (h : c.Attested rec) : c.passes rec := by
  obtain ⟨code, hc, block, signer, hs, hv⟩ := h
  have hv : c.verifySignedPayload block (some (canonicalPairing rec.payload))
      (some (c.notificationAddresses code)) rec.network = .ok signer :=
    (verifySignedPayload_network _ _ _ _).trans hv
  have hs : rec.signed = some block := hs
  refine List.any_eq_true.2 ⟨code, hc, ?_⟩
  rw [hs, Option.any_some, hv]

/-- Whatever the order and the interleaving of requests and restarts, the block of every record
passes the gate for one of the record's own payment codes, and the audit finds it verified. -/
theorem records_attested (c : Crypto) (g : Gates) (phases : List Phase) (id : String) :
    ((lifetime c g phases).record id).all fun rec =>
      c.passes rec && (c.auditRecord rec).1 = .verified := by
  rw [Option.all_eq_true]
  intro rec hrec
  obtain ⟨r, -, hr⟩ := Option.bind_eq_some_iff.1 hrec
  have ha := (vetted_lifetime c g phases).attested r rec hr
  rw [Bool.and_eq_true, decide_eq_true_eq]
  exact ⟨ha.passes, ha.audit⟩

end Mise.Server
