import Mise.Server.Domains

set_option autoImplicit true

namespace Mise.Server

open Js Async Logged

/-- The payment code whose claim changes, and the claim it gets. -/
def DomainEvent.placed (grace : Int) : DomainEvent → Option (String × Option DomainClaim)
  | stored _ w => some ((w.claim grace).paymentCode, some (w.claim grace))
  | removed _ pc => some (pc, none)
  | _ => none

/-- What is stored comes from a check of the claim itself. The sweep leaves revoked claims alone. -/
def ClaimWrite.Checked (R : DomainRules) : ClaimWrite → Prop
  | submitted c txt r => R.verification c txt = .ok r ∧ c.verified = r.ok ∧ c.revoked = false
  | rechecked old txt r _ => R.verification old txt = .ok r
  | swept old txt result _ => result = R.sweepResult old txt ∧ old.revoked = false
  | revoked _ _ => True

section Replay

variable (R : DomainRules) (s : Store)

/-- The claim that a history over the store `s` leaves to a payment code. -/
def claimAt (pc : String) : List DomainEvent → Option DomainClaim
  | [] => s.domains.get pc
  | e :: l => match e.placed R.grace with
    | some (k, c) => if k = pc then c else claimAt pc l
    | none => claimAt pc l

/-- The claim is the one of the payment code that the body names, or what an inherited function is
as a claim. -/
def Named (body : Option Json) (c : DomainClaim) : Prop :=
  ∃ b code, body = some b ∧ (orEmpty (postDomain.field "paymentCode" b)).text = .ok code ∧
    (c.paymentCode = code ∨ c = .ofFunction ∧ code ∈ objectPrototype ++ s.prototype)

/-- What the answer 200 says that request `i` has done: a revocation has stored the claim that it
names as revoked. -/
def DomainRequest.Done (i : Nat) (l : List DomainEvent) : DomainRequest → Prop
  | .revoke none body => ∃ c now, Named s body c ∧ .stored i (.revoked c now) ∈ l
  | _ => True

/-- What may happen to the domain claims after the history `l`. -/
def DomainAllowed (l : List DomainEvent) : DomainEvent → Prop
  | .saw _ c => claimAt R s c.paymentCode l = some c
  | .stored i w => w.Checked R ∧ ∀ old, w.old = some old → old = .ofFunction ∨ .saw i old ∈ l
  | .mapped _ ds => ∀ x ∈ ds, ∃ c, claimAt R s x.1 l = some c ∧ c.verified ∧ c.domain = x.2
  | .published i bs => ∀ b ∈ bs, b.code ∈ b.codes ∧ ∃ ds, .mapped i ds ∈ l ∧ (b.code, b.domain) ∈ ds
  | .removed _ _ => True
  | .answered i q code => code = 200 → q.Done s i l

abbrev DomainLegal : List DomainEvent → Prop := Throughout (DomainAllowed R s)

/-- The history of a world is legal, and says what its domain claims are. -/
structure Traced (w : World DomainEvent) : Prop where
  legal : DomainLegal R s w.log
  claims : ∀ pc, w.store.domains.get pc = claimAt R s pc w.log
  keyed : ∀ pc c, w.store.domains.get pc = some c → c.paymentCode = pc
  prototype : w.store.prototype = s.prototype

end Replay

section Histories

variable {R : DomainRules} {s : Store} {l : List DomainEvent}

theorem claimAt_note (pc : String) (l : List DomainEvent) (h : e.placed R.grace = none) :
    claimAt R s pc (e :: l) = claimAt R s pc l := by
  rw [claimAt, h]

theorem claimAt_stored (pc : String) (i : Nat) (w : ClaimWrite) (l : List DomainEvent) :
    claimAt R s pc (.stored i w :: l) =
      if (w.claim R.grace).paymentCode = pc then some (w.claim R.grace) else claimAt R s pc l := rfl

theorem claimAt_removed (pc : String) (i : Nat) (k : String) (l : List DomainEvent) :
    claimAt R s pc (.removed i k :: l) = if k = pc then none else claimAt R s pc l := rfl

theorem ClaimWrite.same_claim {w : ClaimWrite} {c : DomainClaim} (g : Int) (h : w.old = some c) :
    (w.claim g).paymentCode = c.paymentCode ∧ (w.claim g).domain = c.domain ∧
      (w.claim g).signed = c.signed := by
  cases w with
  | submitted c txt r => cases h
  | rechecked old txt r now => cases h; exact ⟨rfl, rfl, rfl⟩
  | swept old txt result now =>
    cases h
    simp only [ClaimWrite.claim, DomainClaim.applyRecheck]
    split
    · exact ⟨rfl, rfl, rfl⟩
    · split <;> exact ⟨rfl, rfl, rfl⟩
  | revoked old now => cases h; exact ⟨rfl, rfl, rfl⟩

end Histories

section Steps

variable {R : DomainRules} {s : Store} {w w' : World DomainEvent}

/-- Every claim is stored under its own payment code. -/
def Store.Keyed (s : Store) : Prop := ∀ pc c, s.domains.get pc = some c → c.paymentCode = pc

theorem Traced.start (hs : s.Keyed) : Traced R s ⟨s, []⟩ := ⟨.nil, fun _ => rfl, hs, rfl⟩

theorem Traced.aside {u : World DomainEvent} (h : Traced R s w) (hl : u.log = w.log)
    (hs : u.store.domains = w.store.domains) (hp : u.store.prototype = w.store.prototype) :
    Traced R s u where
  legal := hl ▸ h.legal
  claims pc := by rw [hl, hs, h.claims]
  keyed := hs ▸ h.keyed
  prototype := hp.trans h.prototype

theorem Traced.note (h : Traced R s w) (he : DomainAllowed R s w.log e)
    (hp : e.placed R.grace = none) : Traced R s ⟨w.store, e :: w.log⟩ where
  legal := .cons h.legal he
  claims pc := by rw [claimAt_note pc _ hp]; exact h.claims pc
  keyed := h.keyed
  prototype := h.prototype

theorem Traced.stored (h : Traced R s w) (he : DomainAllowed R s w.log (.stored i v)) :
    Traced R s ⟨w.store.putDomain (v.claim R.grace), .stored i v :: w.log⟩ where
  legal := .cons h.legal he
  claims pc := by
    simp only [Store.putDomain, Table.get_set, claimAt_stored, eq_comm (a := pc), h.claims]
  keyed pc c hc := by
    simp only [Store.putDomain, Table.get_set] at hc
    split at hc
    · next hpc => cases hc; exact hpc.symm
    · exact h.keyed pc c hc
  prototype := h.prototype

theorem Traced.removed (h : Traced R s w) :
    Traced R s ⟨w.store.deleteDomain k, .removed i k :: w.log⟩ where
  legal := .cons h.legal trivial
  claims pc := by
    simp only [Store.deleteDomain, Table.get_delete, claimAt_removed, eq_comm (a := pc), h.claims]
  keyed pc c hc := by
    simp only [Store.deleteDomain, Table.get_delete] at hc
    split at hc
    · cases hc
    · exact h.keyed pc c hc
  prototype := h.prototype

theorem Traced.sight (h : Traced R s w) (hc : w.store.domains.get pc = some c) :
    DomainAllowed R s w.log (.saw i c) := by
  have hpc := h.keyed pc c hc
  subst hpc
  exact (h.claims _).symm.trans hc

theorem Traced.sights (h : Traced R s w) (cs : List DomainClaim)
    (hcs : ∀ c ∈ cs, ∃ pc, w.store.domains.get pc = some c) :
    Traced R s ⟨w.store, cs.map (.saw i) ++ w.log⟩ := by
  induction cs with
  | nil => exact h
  | cons c cs ih =>
    have ht := ih fun c' hc' => hcs c' (List.mem_cons_of_mem _ hc')
    obtain ⟨pc, hc⟩ := hcs c List.mem_cons_self
    exact ht.note (ht.sight hc) rfl

end Steps

section Operations

variable {R : DomainRules} {s : Store} {i : Nat} {P : List DomainEvent → Prop}
  {w₀ w : World DomainEvent}

/-- A part of a request that keeps the domain claims traced, and ends with `Q` where it does not
throw. -/
abbrev Tracing (R : DomainRules) (s : Store) (Q : β → World DomainEvent → World DomainEvent → Prop)
    (p : Action DomainEvent β) (w₀ w : World DomainEvent) : Prop :=
  Keeps World.log (Traced R s) Q p w₀ w

/-- What a request knows of the history of the domain claims. -/
abbrev Known (R : DomainRules) (s : Store) (P : List DomainEvent → Prop)
    (w₀ w : World DomainEvent) : Prop := Knows World.log (Traced R s) P w₀ w

theorem known_note {e : DomainEvent} (h : Known R s P w₀ w) (he : DomainAllowed R s w.log e)
    (hp : e.placed R.grace = none) :
    Known R s (fun l => P l ∧ e ∈ l) w₀ ⟨w.store, e :: w.log⟩ := by
  have ht : Traced R s ⟨w.store, e :: w.log⟩ := h.inv.note he hp
  refine ⟨h.steps.trans ⟨List.suffix_cons e w.log, fun _ => ht⟩, ht, h.persistent.and (.mem e), ?_⟩
  exact ⟨h.persistent _ _ (List.suffix_cons e w.log) h.known, List.mem_cons_self⟩

theorem known_ofExcept (h : Known R s P w₀ w) (x : Except Throw β) :
    Tracing R s (fun y => Known R s fun l => P l ∧ x = .ok y) (ofExcept x) w₀ w := by
  cases x with
  | ok y => exact h.mono (h.persistent.and (.const _)) fun hp => ⟨hp, rfl⟩
  | error e => cases e; exact h.ends _

theorem known_fileOperation (h : Known R s P w₀ w) :
    Tracing R s (fun _ => Known R s P) fileOperation w₀ w := by
  unfold fileOperation
  refine h.wait.seq fun a t₀ t ht => ?_
  cases ha : a.ok with
  | false => exact ht.ends _
  | true => exact ht

theorem known_writeAtomic (h : Known R s P w₀ w) :
    Tracing R s (fun _ => Known R s P) rebuild.writeAtomic w₀ w := by
  unfold rebuild.writeAtomic
  refine (known_fileOperation h).seq fun _ _ _ h => ?_
  refine (known_fileOperation h).seq fun _ _ _ h => ?_
  exact (known_fileOperation h).seq fun _ _ _ h => h

theorem known_listDomains (h : Known R s P w₀ w) :
    Tracing R s (fun _ => Known R s P) listDomains w₀ w := by
  unfold listDomains
  exact h.wait.seq fun a t₀ t ht => ht

theorem known_getDomain (h : Known R s P w₀ w) (pc : String) (sees : Bool) :
    Tracing R s (fun found => Known R s fun l => P l ∧ ∀ c, found = some c → sees = true →
      (c = .ofFunction ∧ pc ∈ objectPrototype ++ s.prototype) ∨ (c.paymentCode = pc ∧ .saw i c ∈ l))
      (getDomain i pc sees) w₀ w := by
  have hP (found : Option DomainClaim) : Persistent fun l : List DomainEvent =>
      ∀ c, found = some c → sees = true →
        (c = .ofFunction ∧ pc ∈ objectPrototype ++ s.prototype) ∨ (c.paymentCode = pc ∧ .saw i c ∈ l) :=
    .all fun c => .imp _ (.imp _ (.or (.const _) (.and (.const _) (.mem _))))
  unfold getDomain
  refine h.wait.seq fun a t₀ t ht => ?_
  simp only [sat_bind, sat_updateGet, World.change, Store.getDomain]
  obtain ⟨c, hf, hc⟩ | ⟨hf, -⟩ | ⟨hf, -⟩ := Table.find_cases t.store.prototype t.store.domains pc
  · rw [hf]
    cases sees with
    | false => exact ht.mono (ht.persistent.and (hP _)) fun hp => ⟨hp, fun c _ hs => by cases hs⟩
    | true =>
      refine (known_note ht (ht.inv.sight hc) rfl).mono (ht.persistent.and (hP _)) fun hp => ?_
      refine ⟨hp.1, fun c' hc' _ => ?_⟩
      cases hc'
      exact .inr ⟨ht.inv.keyed pc c hc, hp.2⟩
  · rw [hf]
    refine ht.mono (ht.persistent.and (hP _)) fun hp => ⟨hp, fun c' hc' _ => ?_⟩
    cases hc'
    exact .inl ⟨rfl, ht.inv.prototype ▸ Table.inherited_key hf⟩
  · rw [hf]
    exact ht.mono (ht.persistent.and (hP _)) fun hp => ⟨hp, fun c' hc' => by cases hc'⟩

theorem known_putDomain (h : Known R s P w₀ w) (v : ClaimWrite) (hv : v.Checked R)
    (hP : ∀ l, P l → ∀ old, v.old = some old → old = .ofFunction ∨ .saw i old ∈ l) :
    Tracing R s (fun _ => Known R s fun l => P l ∧ .stored i v ∈ l) (putDomain R i v) w₀ w := by
  refine keeps_write h fun t₀ t ht => ?_
  have ht' := ht.inv.stored ⟨hv, hP t.log ht.known⟩
  have hsteps : Extends World.log (Traced R s) t
      ⟨t.store.putDomain (v.claim R.grace), .stored i v :: t.log⟩ :=
    ⟨List.suffix_cons _ _, fun _ => ht'⟩
  exact ht.step hsteps (ht.persistent.and (.mem _)) fun hp => ⟨hp, List.mem_cons_self⟩

theorem known_deleteDomain (h : Known R s P w₀ w) (pc : String) :
    Tracing R s (fun _ => Known R s P) (deleteDomain i pc) w₀ w := by
  unfold deleteDomain
  refine (keeps_write h fun t₀ t ht => ?_).seq fun _ _ _ ht => ht
  simp only [World.change, Store.getDomain]
  obtain ⟨c, hf, hc⟩ | ⟨hf, hn⟩ | ⟨hf, hn⟩ := Table.find_cases t.store.prototype t.store.domains pc
  · rw [hf]
    have ht' := ht.inv.removed (i := i) (k := pc)
    exact ht.step ⟨List.suffix_cons _ _, fun _ => ht'⟩ ht.persistent fun hp => hp
  · rw [hf]
    have ht' := ht.inv.aside (u := ⟨t.store.deleteDomain pc, t.log⟩) rfl (Table.delete_of_none hn) rfl
    exact ht.step ⟨List.suffix_rfl, fun _ => ht'⟩ ht.persistent fun hp => hp
  · rw [hf]
    have ht' := ht.inv.aside (u := ⟨t.store.deleteDomain pc, t.log⟩) rfl (Table.delete_of_none hn) rfl
    exact ht.step ⟨List.suffix_rfl, fun _ => ht'⟩ ht.persistent fun hp => hp

theorem Traced.verifiedDomains (h : Traced R s w) :
    DomainAllowed R s w.log (.mapped i (verifiedDomains w.store.domains.values)) := by
  intro x hx
  obtain ⟨c, hc, rfl⟩ := List.mem_map.1 hx
  obtain ⟨hc, hv⟩ := List.mem_filter.1 hc
  obtain ⟨⟨pc, c'⟩, hm, rfl⟩ := List.mem_map.1 hc
  have hget := Table.get_of_mem hm
  have hpc : c'.paymentCode = pc := h.keyed pc c' hget
  refine ⟨c', ?_, (Bool.and_eq_true_iff.1 hv).1, rfl⟩
  rw [hpc]
  exact (h.claims pc).symm.trans hget

theorem known_verifiedDomainMap (h : Known R s P w₀ w) :
    Tracing R s (fun ds => Known R s fun l => P l ∧ .mapped i ds ∈ l) (verifiedDomainMap i) w₀ w := by
  unfold verifiedDomainMap listDomains
  simp only [sat_bind, sat_read, sat_pure, sat_update]
  refine h.wait.seq fun a t₀ t ht => ?_
  exact known_note ht ht.inv.verifiedDomains rfl

theorem mem_badges {owners : Table (List String)} {ds : List (String × String)}
    (h : b ∈ badges owners ds) : b.code ∈ b.codes ∧ (b.code, b.domain) ∈ ds := by
  obtain ⟨⟨id, codes⟩, -, hb⟩ := List.mem_filterMap.1 h
  simp only [Option.bind_eq_some_iff, Option.map_eq_some_iff] at hb
  obtain ⟨c, hc, d, hd, rfl⟩ := hb
  exact ⟨List.mem_of_find?_eq_some hc, Table.mem_of_lookup hd⟩

theorem known_publishDomains (h : Known R s P w₀ w) :
    Tracing R s (fun _ => Known R s P) (publishDomains i) w₀ w := by
  have hP := h.persistent
  unfold publishDomains
  refine (keeps_awaiting (known_fileOperation h)).seq fun a _ _ h => ?_
  refine (keeps_awaiting (known_fileOperation h)).seq fun _ _ _ h => ?_
  refine h.wait.seq fun _ _ _ h => ?_
  refine h.wait.seq fun _ _ _ h => ?_
  rw [sat_bind, sat_read]
  refine (keeps_awaiting (known_fileOperation h)).seq fun _ _ _ h => ?_
  refine (keeps_awaiting (known_fileOperation h)).seq fun _ _ _ h => ?_
  refine (keeps_awaiting (known_verifiedDomainMap h)).seq fun ds _ _ h => ?_
  refine (keeps_awaiting (known_listDomains h)).seq fun _ _ _ h => ?_
  refine (keeps_awaiting (known_writeAtomic h)).seq fun _ t₀ t h => ?_
  rw [sat_bind, sat_update]
  have he : ∀ owners, DomainAllowed R s t.log (.published i (badges owners ds.1)) :=
    fun owners b hb => ⟨(mem_badges hb).1, ds.1, h.known.2, (mem_badges hb).2⟩
  refine (keeps_awaiting (known_fileOperation
    ((known_note h (he _) rfl).mono hP fun hl => hl.1.1))).seq fun _ _ _ h => ?_
  refine (keeps_awaiting (known_writeAtomic h)).seq fun _ _ _ h => ?_
  refine (keeps_awaiting (known_fileOperation h)).seq fun _ _ _ h => ?_
  refine (keeps_awaiting (known_writeAtomic h)).seq fun _ _ _ h => ?_
  exact h

theorem known_tryPublish (h : Known R s P w₀ w) :
    Tracing R s (fun _ => Known R s P) (tryPublish i) w₀ w := by
  have hpublish : Tracing R s (fun _ => Known R s fun _ => True) (tryPublish i) w w := by
    unfold tryPublish
    refine (sat_tryCatch _ _ _ _).2 ?_
    refine Sat.mono (Q := Ends World.log (Traced R s)) ?_ (fun _ _ _ h => h) fun _ _ _ h => h
    exact (keeps_awaiting (known_publishDomains h.here)).seq fun _ _ _ h => h.ends ()
  exact (h.framed hpublish).mono (fun _ _ _ hx => hx.mono h.persistent And.right) fun _ _ _ he => he

theorem known_verifyClaim (h : Known R s P w₀ w) (c : DomainClaim) :
    Tracing R s (fun x => Known R s fun l => P l ∧ R.verification c x.1 = .ok x.2)
      (verifyClaim R c) w₀ w := by
  unfold verifyClaim
  refine h.wait.seq fun a t₀ t ht => ?_
  dsimp only
  cases hr : R.verification c a.txt with
  | error e => exact ht.ends _
  | ok r => exact ht.mono (ht.persistent.and (.const _)) fun hp => ⟨hp, hr⟩

end Operations

section Routes

variable {R : DomainRules} {s : Store} {i : Nat} {P : List DomainEvent → Prop}
  {w₀ w : World DomainEvent}

theorem known_postDomain (h : Known R s P w₀ w) (session : Option PaymentCode) (body : Option Json) :
    Tracing R s (Ends World.log (Traced R s)) (postDomain R i session body) w₀ w := by
  unfold postDomain
  refine h.wait.seq fun _ _ _ h => ?_
  cases session with
  | none => exact h.ends _
  | some pc =>
    refine h.wait.seq fun _ _ _ h => ?_
    cases body with
    | none => exact h.ends _
    | some body =>
      dsimp only
      cases R.normaliseDomain (postDomain.field "domain" body) with
      | error e => exact h.ends _
      | ok domain =>
        refine (known_ofExcept h _).seq fun signed _ _ h => ?_
        split
        · exact h.ends _
        · refine (keeps_awaiting (known_listDomains h)).seq fun claims _ _ h => ?_
          refine (keeps_awaiting (known_verifyClaim h _)).seq fun x _ _ h => ?_
          obtain ⟨⟨txt, r⟩, a⟩ := x
          refine (keeps_awaiting (known_getDomain h pc.text false)).seq fun prev _ _ h => ?_
          dsimp only
          split
          · exact h.ends _
          · refine (keeps_awaiting (known_putDomain h _ ?_ ?_)).seq fun _ _ _ h => ?_
            · exact ⟨h.known.1.2, rfl, rfl⟩
            · intro l hl old hold
              cases hold
            · refine (keeps_awaiting (known_tryPublish h)).seq fun _ _ _ h => ?_
              exact h.ends _

theorem known_recheckDomain (h : Known R s P w₀ w) (session : Option PaymentCode) :
    Tracing R s (Ends World.log (Traced R s)) (recheckDomain R i session) w₀ w := by
  unfold recheckDomain
  refine h.wait.seq fun _ _ _ h => ?_
  cases session with
  | none => exact h.ends _
  | some pc =>
    refine (keeps_awaiting (known_getDomain h pc.text true)).seq fun x _ _ h => ?_
    obtain ⟨found, a⟩ := x
    cases found with
    | none => exact h.ends _
    | some claim =>
      refine (keeps_awaiting (known_verifyClaim h claim)).seq fun x _ _ h => ?_
      obtain ⟨⟨txt, r⟩, b⟩ := x
      refine (keeps_awaiting (known_putDomain h (.rechecked claim txt r b.clock) h.known.2 ?_)).seq
        fun _ _ _ h => ?_
      · intro l hl old hold
        cases hold
        exact (hl.1.2 claim rfl rfl).imp And.left And.right
      · refine (keeps_awaiting (known_tryPublish h)).seq fun _ _ _ h => ?_
        exact h.ends _

theorem known_dropDomain (h : Known R s P w₀ w) (session : Option PaymentCode) :
    Tracing R s (Ends World.log (Traced R s)) (dropDomain i session) w₀ w := by
  unfold dropDomain
  refine h.wait.seq fun _ _ _ h => ?_
  cases session with
  | none => exact h.ends _
  | some pc =>
    refine (keeps_awaiting (known_deleteDomain h pc.text)).seq fun _ _ _ h => ?_
    refine (keeps_awaiting (known_tryPublish h)).seq fun _ _ _ h => ?_
    exact h.ends _

theorem DomainRequest.done_persistent (q : DomainRequest) : Persistent (q.Done s i) := by
  intro l l' hl h
  match q with
  | .revoke none body =>
    obtain ⟨c, now, hn, hc⟩ := h
    exact ⟨c, now, hn, hl.subset hc⟩
  | .revoke (some _) _ | .submit .. | .recheck _ | .delete _ | .sweep | .relist .. => trivial

/-- A request that ends with an answer that says it is done has done it. -/
abbrev Finishing (R : DomainRules) (s : Store) (i : Nat) (q : DomainRequest)
    (p : Action DomainEvent Response) (w₀ w : World DomainEvent) : Prop :=
  Tracing R s (fun r => Known R s fun l => r.code = 200 → q.Done s i l) p w₀ w

theorem known_revokeDomain (h : Known R s P w₀ w) (refusal : Option Response) (body : Option Json) :
    Finishing R s i (.revoke refusal body) (revokeDomain R i refusal body) w₀ w := by
  have hP (r : Response) : Persistent fun l =>
      r.code = 200 → (DomainRequest.revoke refusal body).Done s i l :=
    .imp _ (DomainRequest.done_persistent _)
  unfold revokeDomain
  refine h.wait.seq fun _ _ _ h => ?_
  cases refusal with
  | some r => exact h.mono (hP r) fun _ _ => trivial
  | none =>
    refine h.wait.seq fun _ _ _ h => ?_
    cases body with
    | none => exact h.mono (hP _) fun _ hr => by cases hr
    | some body =>
      refine (known_ofExcept h _).seq fun code _ _ h => ?_
      refine (keeps_awaiting (known_getDomain h code true)).seq fun x _ _ h => ?_
      obtain ⟨found, a⟩ := x
      cases found with
      | none => exact h.mono (hP _) fun _ hr => by cases hr
      | some claim =>
        refine (keeps_awaiting (known_putDomain h (.revoked claim a.clock) trivial ?_)).seq
          fun _ _ _ h => ?_
        · intro l hl old hold
          cases hold
          exact (hl.2 claim rfl rfl).imp And.left And.right
        · refine (keeps_awaiting (known_tryPublish h)).seq fun _ _ _ h => ?_
          refine h.mono (hP _) fun hl _ => ⟨claim, a.clock, ⟨body, code, rfl, hl.1.1.2, ?_⟩, hl.2⟩
          exact (hl.1.2 claim rfl rfl).symm.imp And.left id

theorem known_sweepLoop (claims : List DomainClaim) (now : Int) (changed : Bool)
    (h : Known R s (fun l => ∀ c ∈ claims, .saw i c ∈ l) w₀ w) :
    Tracing R s (fun _ => Known R s fun _ => True) (sweepDomains.loop R i claims now changed) w₀ w := by
  induction claims generalizing now changed w₀ w with
  | nil => exact h.ends ()
  | cons claim claims ih =>
    have hP : Persistent fun l : List DomainEvent => ∀ c ∈ claims, .saw i c ∈ l :=
      .all fun c => .imp _ (.mem _)
    have hrest {w₀ w : World DomainEvent}
        (h : Known R s (fun l => ∀ c ∈ claim :: claims, .saw i c ∈ l) w₀ w) :
        Known R s (fun l => ∀ c ∈ claims, .saw i c ∈ l) w₀ w :=
      h.mono hP fun hl c hc => hl c (List.mem_cons_of_mem _ hc)
    rw [sweepDomains.loop]
    split
    · exact ih now changed (hrest h)
    · next hskip =>
      have hkept : claim.revoked = false := by
        cases hr : claim.revoked with
        | false => rfl
        | true => simp [hr] at hskip
      refine h.wait.seq fun a t₀ t h => ?_
      dsimp only
      split
      · exact ih a.clock changed (hrest h)
      · refine (keeps_awaiting (known_putDomain h (.swept claim a.txt (R.sweepResult claim a.txt) a.clock)
          ⟨rfl, hkept⟩ ?_)).seq fun x _ _ h => ?_
        · intro l hl old hold
          cases hold
          exact .inr (hl claim List.mem_cons_self)
        · exact ih x.2.clock _ (h.mono hP fun hl c hc => hl.1 c (List.mem_cons_of_mem _ hc))

theorem known_sweepDomains (h : Known R s P w₀ w) :
    Tracing R s (Ends World.log (Traced R s)) (sweepDomains R i) w₀ w := by
  unfold sweepDomains
  refine h.wait.seq fun _ t₀ t h => ?_
  rw [sat_bind, sat_updateGet]
  have hs : Traced R s ⟨t.store, t.store.domains.values.map (.saw i) ++ t.log⟩ := by
    refine h.inv.sights _ fun c hc => ?_
    obtain ⟨⟨pc, c⟩, hm, rfl⟩ := List.mem_map.1 hc
    exact ⟨pc, Table.get_of_mem hm⟩
  have hsaw : Known R s (fun l => ∀ c ∈ t.store.domains.values, .saw i c ∈ l) t₀
      ⟨t.store, t.store.domains.values.map (.saw i) ++ t.log⟩ := by
    refine ⟨h.steps.trans ⟨List.suffix_append _ _, fun _ => hs⟩, hs, .all fun c => .imp _ (.mem _), ?_⟩
    exact fun c hc => List.mem_append_left _ (List.mem_map_of_mem hc)
  refine hsaw.wait.seq fun a _ _ h => ?_
  refine (known_sweepLoop _ a.clock false h).seq fun changed _ _ h => ?_
  cases changed with
  | false => exact h.ends _
  | true =>
    refine (keeps_awaiting (known_tryPublish h)).seq fun _ _ _ h => ?_
    exact h.ends _

theorem known_relist (h : Known R s P w₀ w) (submissions : Table Nat) (objects : List StoreRecord) :
    Tracing R s (Ends World.log (Traced R s))
      ((DomainRequest.relist submissions objects).handler R i) w₀ w := by
  have ht := h.inv.aside (u := ⟨{ w.store with submissions, objects }, w.log⟩) rfl rfl rfl
  have h' : Known R s P w₀ ⟨{ w.store with submissions, objects }, w.log⟩ :=
    h.step ⟨List.suffix_rfl, fun _ => ht⟩ h.persistent fun hp => hp
  exact (keeps_awaiting (known_tryPublish h')).seq fun _ _ _ h => h.ends _

theorem Finishing.of_ends {q : DomainRequest} {p : Action DomainEvent Response}
    (hq : ∀ l, q.Done s i l) (h : Tracing R s (Ends World.log (Traced R s)) p w₀ w) :
    Finishing R s i q p w₀ w :=
  h.mono (fun _ _ _ h => h.mono (.imp _ q.done_persistent) fun _ _ => hq _) fun _ _ _ h => h

theorem known_handler (i : Nat) (q : DomainRequest) (h : Known R s P w₀ w) :
    Finishing R s i q (q.handler R i) w₀ w := by
  cases q with
  | submit session body => exact .of_ends (fun _ => trivial) (known_postDomain h session body)
  | recheck session => exact .of_ends (fun _ => trivial) (known_recheckDomain h session)
  | delete session => exact .of_ends (fun _ => trivial) (known_dropDomain h session)
  | revoke refusal body => exact known_revokeDomain h refusal body
  | sweep => exact .of_ends (fun _ => trivial) (known_sweepDomains h)
  | relist submissions objects => exact .of_ends (fun _ => trivial) (known_relist h submissions objects)

theorem known_serveDomains (i : Nat) (q : DomainRequest) (w : World DomainEvent)
    (h : Known R s P w w) :
    Tracing R s (Ends World.log (Traced R s)) (serveDomains R i q) w w := by
  unfold serveDomains handled
  refine (sat_bind _ _ _ _).2 ((sat_tryCatch _ _ _ _).2 ?_)
  refine (known_handler i q h).mono (fun r _ t h => ?_) fun _ _ t h => ?_
  · exact (known_note (e := .answered i q r.code) h h.known rfl).ends r
  · have he : DomainAllowed R s t.log (.answered i q 500) := fun hcode => by cases hcode
    exact (known_note h he rfl).ends (⟨500, some "server error"⟩ : Response)

end Routes

theorem traced_run (R : DomainRules) {s : Store} (hs : s.Keyed) (moves : List (Move DomainRequest Answer)) :
    Traced R s (Pool.run (serveDomains R) ⟨⟨s, []⟩, []⟩ moves).shared :=
  inv_run World.log (fun i q w (_ : True) h => known_serveDomains i q w h) (Traced.start hs) moves
    fun _ _ => trivial

end Mise.Server
