import Mise.Server.StaleLookup

set_option autoImplicit true

namespace Mise.Server

open Js Async Logged

/-- A verified claim of the payment code to the domain. -/
def DomainClaim.Badged (pc d : String) (c : DomainClaim) : Prop :=
  c.paymentCode = pc ∧ c.domain = d ∧ c.verified = true

namespace DomainRules

variable (R : DomainRules)

/-- As many resolvers answer as have to agree. -/
def Reaches : Except String TxtLookup → Prop
  | .ok l => R.agreement ≤ l.byResolver.length
  | .error _ => False

/-- As many resolvers as have to agree show a TXT record that matches the claim. -/
def Sees (c : DomainClaim) : Except String TxtLookup → Prop
  | .ok l => R.agreement ≤ (l.byResolver.filter (·.any (R.txtMatches · c.paymentCode))).length
  | .error _ => False

end DomainRules

namespace ClaimWrite

/-- The claim that is submitted, checked or revoked. -/
def subject : ClaimWrite → DomainClaim
  | submitted c _ _ | rechecked c _ _ _ | swept c _ _ _ | revoked c _ => c

/-- The resolvers show the TXT record, and the signature, where it is checked, is good. -/
def Seen (R : DomainRules) : ClaimWrite → Prop
  | submitted c txt _ | rechecked c txt _ _ => R.signatureError c = none ∧ R.Sees c txt
  | swept c txt _ _ => R.Sees c txt
  | revoked _ _ => False

/-- The sweep reaches too few resolvers, or the claim has failed for less than the grace period. -/
def Spared (R : DomainRules) : ClaimWrite → Prop
  | swept c txt _ now => ¬ R.Reaches txt ∨
      (c.failSince.or (.at now)).parse.any (R.grace ≤ now - ·) = false
  | _ => False

theorem same_subject (g : Int) (w : ClaimWrite) :
    (w.claim g).paymentCode = w.subject.paymentCode ∧ (w.claim g).domain = w.subject.domain := by
  cases w with
  | submitted c txt r => exact ⟨rfl, rfl⟩
  | rechecked c txt r now => exact ⟨rfl, rfl⟩
  | swept c txt result now =>
    obtain ⟨hpc, hd, -⟩ := same_claim (w := swept c txt result now) g rfl
    exact ⟨hpc, hd⟩
  | revoked c now => exact ⟨rfl, rfl⟩

end ClaimWrite

section Answers

variable {R : DomainRules} {c : DomainClaim} {txt : Except String TxtLookup}

theorem agreed_outcome (l : TxtLookup) :
    (R.agreed c.domain c.paymentCode l).outcome =
      if R.agreement ≤ l.byResolver.length then
        if R.agreement ≤ (l.byResolver.filter (·.any (R.txtMatches · c.paymentCode))).length then
          .success else .failure
      else .inconclusive := by
  unfold DomainRules.agreed txtRecordAgreed TxtAgreement.outcome
  dsimp only
  split
  · next h => rw [if_neg (Nat.not_le.2 h)]; rfl
  · next h =>
    rw [if_pos (Nat.not_lt.1 h)]
    split <;> rfl

theorem sees_of_agreed {l : TxtLookup} (h : (R.agreed c.domain c.paymentCode l).ok = true) :
    R.Sees c (.ok l) := by
  unfold DomainRules.agreed txtRecordAgreed at h
  dsimp only at h
  split at h
  · cases h
  · split at h
    · assumption
    · cases h

/-- Full verification succeeds only where the signature is good and the record is there. -/
theorem seen_of_verification (h : R.verification c txt = .ok r) (hr : r.ok = true) :
    R.signatureError c = none ∧ R.Sees c txt := by
  rw [DomainRules.verification] at h
  cases he : R.signatureError c with
  | some e =>
    rw [he] at h
    cases h
    cases hr
  | none =>
    rw [he] at h
    cases txt with
    | error e => cases h
    | ok l =>
      cases h
      refine ⟨rfl, sees_of_agreed ?_⟩
      unfold DomainRules.verifyDns at hr
      dsimp only at hr
      split at hr
      · assumption
      · cases hr

theorem sweep_outcome (txt : Except String TxtLookup) :
    ((R.sweepResult c txt).outcome = .success → R.Sees c txt) ∧
      ((R.sweepResult c txt).outcome = .inconclusive → ¬ R.Reaches txt) := by
  cases txt with
  | error e => exact ⟨fun h => (by cases h), fun _ h => h⟩
  | ok l =>
    rw [DomainRules.sweepResult, agreed_outcome]
    constructor
    · intro h
      split at h
      · split at h
        · assumption
        · cases h
      · cases h
    · intro h
      split at h
      · split at h <;> cases h
      · assumption

/-- Only a look-up that finds the record gives a claim a badge that it has not had. -/
theorem ClaimWrite.verified_claim {w : ClaimWrite} (h : w.Checked R)
    (hv : (w.claim R.grace).verified = true) :
    w.Seen R ∨ (w.Spared R ∧ w.old = some w.subject ∧ w.subject.verified = true) := by
  cases w with
  | submitted c txt r => exact .inl (seen_of_verification h.1 (h.2.1.symm.trans hv))
  | rechecked c txt r now => exact .inl (seen_of_verification h hv)
  | swept c txt result now =>
    obtain ⟨rfl, -⟩ := h
    obtain ⟨hsees, hreaches⟩ := sweep_outcome (R := R) (c := c) txt
    rw [claim, sweep_verified] at hv
    cases ho : (R.sweepResult c txt).outcome with
    | success => exact .inl (hsees ho)
    | inconclusive =>
      rw [ho] at hv
      exact .inr ⟨.inl (hreaches ho), rfl, hv⟩
    | failure =>
      rw [ho] at hv
      obtain ⟨hv, hg⟩ := Bool.and_eq_true_iff.1 hv
      exact .inr ⟨.inr (by simpa using hg), rfl, hv⟩
  | revoked c now => cases hv

end Answers

/-- No look-up for the payment code and the domain finds the record, and the sweep does not spare a
badge that it has read before the history `before` was over. -/
def Withheld (R : DomainRules) (pc d : String) (before : List DomainEvent) (e : DomainEvent) : Prop :=
  ∀ i w, e = .stored i w → w.subject.paymentCode = pc → w.subject.domain = d →
    ¬ w.Seen R ∧ (.saw i w.subject ∈ before → w.subject.verified = true → ¬ w.Spared R)

/-- What keeps the domain of a revoked claim away from the payment codes `K` of its operator. -/
structure Undisturbed (R : DomainRules) (s : Store) (K : List String) (c : DomainClaim)
    (before since after : List DomainEvent) : Prop where
  own : c.paymentCode ∈ K
  nodes : ∀ i bs, .published i bs ∈ after → ∀ b ∈ bs, c.paymentCode ∈ b.codes → ∀ k ∈ b.codes, k ∈ K
  others : ∀ k ∈ K, k ≠ c.paymentCode → ∀ c', claimAt R s k before = some c' → ¬ c'.Badged k c.domain
  withheld : ∀ k ∈ K, ∀ e ∈ after ++ since, Withheld R k c.domain before e
  unread : ∀ k ∈ K, ∀ i ds bs, .mapped i ds ∈ before → (k, c.domain) ∈ ds → .published i bs ∉ after

/-- The claim of the payment code to the domain is not stored as verified, and no rebuild publishes
the domain on a node that lists the payment code. -/
structure Revoked (R : DomainRules) (pc d : String) (after : List DomainEvent)
    (w : World DomainEvent) : Prop where
  stored : ∀ i v, .stored i v ∈ after → ¬ (v.claim R.grace).Badged pc d
  held : ∀ c, w.store.domains.get pc = some c → ¬ c.Badged pc d
  published : ∀ i bs, .published i bs ∈ after → ∀ b ∈ bs, pc ∈ b.codes → b.domain ≠ d

section Histories

variable {R : DomainRules} {s : Store} {l before since : List DomainEvent} {c : DomainClaim}

theorem claimAt_keyed (hs : s.Keyed) (l : List DomainEvent) (h : claimAt R s pc l = some c) :
    c.paymentCode = pc := by
  induction l with
  | nil => exact hs pc c h
  | cons e l ih =>
    cases e with
    | stored i w =>
      rw [claimAt_stored] at h
      split at h
      · next hk => cases h; exact hk
      · exact ih h
    | removed i k =>
      rw [claimAt_removed] at h
      split at h
      · cases h
      · exact ih h
    | saw | mapped | published | answered => exact ih h

/-- No claim that a history after `base` leaves to the payment code has the badge. -/
theorem unbadged_since (h : DomainLegal R s (since ++ base))
    (hbase : ∀ c, claimAt R s k base = some c → ¬ c.Badged k d)
    (hw : ∀ e ∈ since, Withheld R k d base e) :
    ∀ l, l <:+ since → ∀ c, claimAt R s k (l ++ base) = some c → ¬ c.Badged k d := by
  induction since with
  | nil =>
    intro l hl c hc
    rw [List.suffix_nil.1 hl, List.nil_append] at hc
    exact hbase c hc
  | cons e since ih =>
    cases h with
    | cons h he =>
      have ih := ih h fun e' he' => hw e' (List.mem_cons_of_mem _ he')
      intro l hl c hc hb
      obtain rfl | hl := List.suffix_cons_iff.1 hl
      · cases e with
        | saw | mapped | published | answered => exact ih since List.suffix_rfl c hc hb
        | removed i k' =>
          rw [List.cons_append, claimAt_removed] at hc
          split at hc
          · cases hc
          · exact ih since List.suffix_rfl c hc hb
        | stored i w =>
          rw [List.cons_append, claimAt_stored] at hc
          split at hc
          · cases hc
            obtain ⟨hr, hsaw⟩ := he
            obtain ⟨hspc, hsd⟩ := w.same_subject R.grace
            have hpc : w.subject.paymentCode = k := hspc.symm.trans hb.1
            have hd : w.subject.domain = d := hsd.symm.trans hb.2.1
            obtain ⟨hno, hold⟩ := hw _ List.mem_cons_self i w rfl hpc hd
            obtain hseen | ⟨hspared, hwold, hwv⟩ := ClaimWrite.verified_claim hr hb.2.2
            · exact hno hseen
            · obtain hf | hm := hsaw w.subject hwold
              · rw [hf] at hwv
                cases hwv
              · -- the sweep has read the badge before `base` was over, or after it, when it was gone
                obtain hm | hm := List.mem_append.1 hm
                · obtain ⟨l₁, l₂, rfl⟩ := List.append_of_mem hm
                  have h : DomainLegal R s (l₁ ++ .saw i w.subject :: (l₂ ++ base)) := by simpa using h
                  have hat : claimAt R s w.subject.paymentCode _ = some w.subject := h.before
                  rw [hpc] at hat
                  have hl₂ : l₂ <:+ l₁ ++ .saw i w.subject :: l₂ := ⟨l₁ ++ [.saw i w.subject], by simp⟩
                  exact ih l₂ hl₂ w.subject hat ⟨hpc, hd, hwv⟩
                · exact hold hm hwv hspared
          · exact ih since List.suffix_rfl c hc hb
      · exact ih l hl c hc hb

/-- The revocation itself leaves none of the payment codes of the operator the badge. -/
theorem Undisturbed.unbadged (h : Undisturbed R s K c before since after) (hk : k ∈ K) :
    ∀ c', claimAt R s k (.stored j (.revoked c now) :: before) = some c' → ¬ c'.Badged k c.domain := by
  intro c' hc' hb
  rw [claimAt_stored] at hc'
  split at hc'
  · cases hc'
    cases hb.2.2
  · next hne =>
    have hne : k ≠ c.paymentCode := fun e => hne e.symm
    exact h.others k hk hne c' hc' hb

theorem Undisturbed.withheld_since (h : Undisturbed R s K c before since after) (hk : k ∈ K)
    (he : e ∈ after ++ .answered i q code :: since) :
    Withheld R k c.domain (.stored j (.revoked c now) :: before) e := by
  intro i' v hv hpc hd
  have hmem : e ∈ after ++ since := by
    subst hv
    simpa using he
  obtain ⟨hno, hold⟩ := h.withheld k hk e hmem i' v hv hpc hd
  refine ⟨hno, fun hm => hold ?_⟩
  obtain hm | hm := List.mem_cons.1 hm
  · cases hm
  · exact hm

end Histories

/-- A revocation that is answered 200 has stored the claim that it names as revoked. From then on the
claim stays without its badge, and the domain away from the nodes of its operator, as long as no
look-up for one of the operator's codes finds the record, no sweep spares a badge that it has read
before the revocation, and no rebuild publishes what it has read before the revocation. -/
theorem revocation_final (R : DomainRules) (s : Store) (hs : s.Keyed)
    (moves : List (Move DomainRequest Answer)) (after l : List DomainEvent) (j : Nat)
    (body : Option Json) :
    let w := (Pool.run (serveDomains R) ⟨⟨s, []⟩, []⟩ moves).shared
    w.log = after ++ .answered j (.revoke none body) 200 :: l →
    (∃ c now, Named s body c ∧ .stored j (.revoked c now) ∈ l) ∧
    ∀ since before c now K, l = since ++ .stored j (.revoked c now) :: before →
      Undisturbed R s K c before since after → Revoked R c.paymentCode c.domain after w := by
  intro w hlog
  have ht : Traced R s w := traced_run R hs moves
  refine ⟨(hlog ▸ ht.legal).before rfl, fun since before c now K hl hu => ?_⟩
  subst hl
  -- everything that has happened since the revocation was stored
  obtain ⟨recent, hrecent⟩ : ∃ r, r = after ++ .answered j (.revoke none body) 200 :: since := ⟨_, rfl⟩
  have hlog : w.log = recent ++ .stored j (.revoked c now) :: before := by simp [hlog, hrecent]
  have hlegal := hlog ▸ ht.legal
  have hun {k : String} (hk : k ∈ K) := unbadged_since hlegal (hu.unbadged hk) fun e he =>
    hu.withheld_since hk (hrecent ▸ he)
  constructor
  · intro i v hv hb
    obtain ⟨l₁, l₂, ha⟩ := List.append_of_mem hv
    refine hun hu.own (.stored i v :: l₂ ++ .answered j (.revoke none body) 200 :: since)
      ⟨l₁, by simp [hrecent, ha]⟩ (v.claim R.grace) ?_ hb
    rw [List.cons_append, List.cons_append, claimAt_stored, if_pos hb.1]
  · intro c' hc' hb
    exact hun hu.own recent List.suffix_rfl c' (by rw [← hlog, ← ht.claims]; exact hc') hb
  · intro i bs hp b hb hpc hd
    have hrec : .published i bs ∈ recent := hrecent ▸ List.mem_append_left _ hp
    obtain ⟨l₁, l₂, hr⟩ := List.append_of_mem hrec
    have hpub : DomainLegal R s (l₁ ++ .published i bs :: (l₂ ++ .stored j (.revoked c now) :: before)) := by
      simpa [hr] using hlegal
    obtain ⟨hcode, ds, hds, hin⟩ := hpub.before b hb
    have hk : b.code ∈ K := hu.nodes i bs hp b hb hpc b.code hcode
    rw [hd] at hin
    -- the rebuild has read the domain after the revocation, when it was gone, or before it
    obtain hds | hds := List.mem_append.1 hds
    · obtain ⟨m₁, m₂, hm⟩ := List.append_of_mem hds
      have hmapped : DomainLegal R s ((l₁ ++ .published i bs :: m₁) ++ .mapped i ds ::
          (m₂ ++ .stored j (.revoked c now) :: before)) := by simpa [hm] using hpub
      obtain ⟨c', hc', hv, hd'⟩ := hmapped.before _ hin
      refine hun hk m₂ ⟨l₁ ++ .published i bs :: m₁ ++ [.mapped i ds], by simp [hr, hm]⟩ c' hc' ?_
      exact ⟨claimAt_keyed hs _ hc', hd', hv⟩
    · obtain hds | hds := List.mem_cons.1 hds
      · cases hds
      · exact hu.unread b.code hk i ds bs hds hin hp

/-- A maintainer's revocation of the badge. -/
def revokeBadge : DomainRequest :=
  .revoke none (some (.obj [("paymentCode", .str badge.paymentCode)]))

/-- Two nodes are listed: one of the operator with two payment codes, and one of another operator,
who has a badge too. -/
def twoOperators : Store where
  domains := { entries := [(badge.paymentCode, badge),
    ("PM8Tother", { badge with paymentCode := "PM8Tother", domain := "other.org" })] }
  submissions := { entries := [("n1", 0), ("n2", 1)] }
  objects := [listed "n1" [badge.paymentCode, "PM8Tsecond"], listed "n2" ["PM8Tother"]]
where
  listed (id : String) (codes : List String) : StoreRecord :=
    { id, network := .mainnet, status := .approved, paymentCodes := some codes
      signed := some "-----BEGIN BITCOIN SIGNED MESSAGE-----\n-----BEGIN BITCOIN SIGNATURE-----" }

/-- After the revocation a re-check reaches no resolver. -/
def recheckedInVain : List (Move DomainRequest Answer) :=
  .call revokeBadge :: domainAnswers 0 41 ++ .call (.recheck (some badgeCode)) :: domainAnswers 1 31

def otherBadge : NodeBadge := ⟨"n2", ["PM8Tother"], "PM8Tother", "other.org"⟩

theorem twoOperators_keyed : twoOperators.Keyed := by
  intro pc c hc
  have hm := Table.mem_of_lookup hc
  simp only [twoOperators, List.mem_cons, Prod.mk.injEq, List.not_mem_nil, or_false] at hm
  obtain ⟨rfl, rfl⟩ | ⟨rfl, rfl⟩ := hm <;> rfl

/-- What the re-check in vain does. -/
def recheckEvents : List DomainEvent :=
  [.published 1 [otherBadge], .mapped 1 [("PM8Tother", "other.org")],
    .stored 1 (.rechecked (badge.revoke 0) (.ok {})
      (twoResolvers.verifyDns badge.domain badge.paymentCode {}) 0), .saw 1 (badge.revoke 0)]

/-- What the revocation does after it has stored the claim. -/
def revocationEvents : List DomainEvent :=
  [.published 0 [otherBadge], .mapped 0 [("PM8Tother", "other.org")]]

theorem undisturbed_rechecked :
    Undisturbed twoResolvers twoOperators [badge.paymentCode, "PM8Tsecond"] badge [.saw 0 badge]
      revocationEvents recheckEvents where
  own := List.mem_cons_self
  nodes i bs hp b hb hpc := by
    have hbs : bs = [otherBadge] := by
      simp only [recheckEvents, List.mem_cons, DomainEvent.published.injEq, reduceCtorEq, or_false,
        List.not_mem_nil] at hp
      exact hp.2
    subst hbs
    cases List.mem_singleton.1 hb
    simp [otherBadge, badge] at hpc
  others k hk hne c' hc' := by
    obtain rfl | hk := List.mem_cons.1 hk
    · exact absurd rfl hne
    · cases List.mem_singleton.1 hk
      cases hc'
  withheld k _ e he i w hw _ _ := by
    subst hw
    simp only [recheckEvents, revocationEvents, List.cons_append, List.nil_append, List.mem_cons,
      DomainEvent.stored.injEq, reduceCtorEq, or_false, false_or, List.not_mem_nil] at he
    obtain ⟨rfl, rfl⟩ := he
    have hnone : ¬ twoResolvers.Sees (badge.revoke 0) (.ok {}) := Nat.not_succ_le_zero 1
    refine ⟨fun h => hnone h.2, fun hm => ?_⟩
    simp [ClaimWrite.subject, badge, DomainClaim.revoke] at hm
  unread k _ i ds bs hm := by simp at hm

set_option maxRecDepth 4000 in
theorem revocation_final_rechecked :
    Revoked twoResolvers badge.paymentCode badge.domain recheckEvents
      (Pool.run (serveDomains twoResolvers) ⟨⟨twoOperators, []⟩, []⟩ recheckedInVain).shared := by
  obtain ⟨-, h⟩ := revocation_final twoResolvers twoOperators twoOperators_keyed recheckedInVain
    recheckEvents (revocationEvents ++ [.stored 0 (.revoked badge 0), .saw 0 badge]) 0
    (some (.obj [("paymentCode", .str badge.paymentCode)])) rfl
  exact h revocationEvents [.saw 0 badge] badge 0 _ rfl undisturbed_rechecked

/-- After the revocation a re-check finds the record at every resolver. -/
def recheckedAgain : List (Move DomainRequest Answer) :=
  .call revokeBadge :: domainAnswers 0 41 ++ .call (.recheck (some badgeCode)) ::
    List.replicate 7 (.resume 1 { txt := .ok {
      byResolver := [["mise-domain-v1 pm=PM8Towner"], ["mise-domain-v1 pm=PM8Towner"]] } })

set_option maxRecDepth 2000 in
/-- One re-check on demand gives the operator the badge back. -/
theorem recheck_undoes_revocation :
    ¬ ∀ (R : DomainRules) (s : Store) (moves : List (Move DomainRequest Answer)), s.Keyed →
      let w := (Pool.run (serveDomains R) ⟨⟨s, []⟩, []⟩ moves).shared
      ∀ after l j body, w.log = after ++ .answered j (.revoke none body) 200 :: l →
        ∀ since before c now, l = since ++ .stored j (.revoked c now) :: before →
          Revoked R c.paymentCode c.domain after w := by
  intro h
  have hr := h twoResolvers badgeStore recheckedAgain badgeStore_keyed
    [.stored 1 (.rechecked (badge.revoke 0)
      (.ok { byResolver := [["mise-domain-v1 pm=PM8Towner"], ["mise-domain-v1 pm=PM8Towner"]] })
      { ok := true } 0), .saw 1 (badge.revoke 0)]
    [.published 0 [], .mapped 0 [], .stored 0 (.revoked badge 0), .saw 0 badge] 0 _ rfl
    [.published 0 [], .mapped 0 []] [.saw 0 badge] badge 0 rfl
  exact hr.stored 1 _ List.mem_cons_self ⟨rfl, rfl, rfl⟩

end Mise.Server
