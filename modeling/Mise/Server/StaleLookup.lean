import Mathlib.Logic.Relation
import Mise.Server.Badge
import Mise.Server.DomainHistory

set_option autoImplicit true

namespace Mise.Server

open Js Async Logged

/-- The payment code for which a submission makes a claim, or a deletion takes it away. -/
def DomainEvent.renewed : DomainEvent → Option (String × Option DomainClaim)
  | stored _ (.submitted c _ _) => some (c.paymentCode, some c)
  | removed _ pc => some (pc, none)
  | _ => none

/-- What the last submission or deletion has left to the payment code. -/
def claimedAt (s : Store) (pc : String) : List DomainEvent → Option DomainClaim
  | [] => s.domains.get pc
  | e :: l => match e.renewed with
    | some (k, c) => if k = pc then c else claimedAt s pc l
    | none => claimedAt s pc l

/-- A check of the claim `c`, or its revocation, makes `c'` of it. -/
def Folds (R : DomainRules) (c c' : DomainClaim) : Prop :=
  ∃ w : ClaimWrite, w.old = some c ∧ w.Checked R ∧ w.claim R.grace = c'

def Descends (R : DomainRules) : DomainClaim → DomainClaim → Prop := Relation.ReflTransGen (Folds R)

/-- What is stored for the payment code is what the last submission or deletion has left, but for
checks and revocations of just that claim. -/
structure UpToDate (R : DomainRules) (s : Store) (pc : String) (w : World DomainEvent) : Prop where
  kept : ∀ c, claimedAt s pc w.log = some c → ∃ c', w.store.domains.get pc = some c' ∧
    Descends R c c' ∧ c'.domain = c.domain ∧ c'.signed = c.signed
  gone : claimedAt s pc w.log = none → w.store.domains.get pc = none

/-- A claim of the payment code that is written back was read after the last submission or deletion. -/
def InTime (pc : String) (l : List DomainEvent) (e : DomainEvent) : Prop :=
  ∀ i w c, e = .stored i w → w.old = some c → c.paymentCode = pc →
    ∃ between base, l = between ++ .saw i c :: base ∧ ∀ e ∈ between, ∀ x, e.renewed ≠ some (pc, x)

section Histories

variable {R : DomainRules} {s : Store} {pc : String} {l : List DomainEvent}

theorem Descends.same_claim (h : Descends R c c') : c'.domain = c.domain ∧ c'.signed = c.signed := by
  induction h with
  | refl => exact ⟨rfl, rfl⟩
  | tail _ hf ih =>
    obtain ⟨w, hw, -, rfl⟩ := hf
    obtain ⟨-, hd, hs⟩ := w.same_claim R.grace hw
    exact ⟨hd.trans ih.1, hs.trans ih.2⟩

theorem claimedAt_note (l : List DomainEvent) (h : ∀ x, e.renewed ≠ some (pc, x)) :
    claimedAt s pc (e :: l) = claimedAt s pc l := by
  rw [claimedAt]
  cases he : e.renewed with
  | none => rfl
  | some x =>
    obtain ⟨k, c⟩ := x
    have hk : k ≠ pc := fun hk => h c (hk ▸ he)
    exact if_neg hk

theorem claimedAt_append (h : ∀ e ∈ between, ∀ x, e.renewed ≠ some (pc, x)) :
    claimedAt s pc (between ++ l) = claimedAt s pc l := by
  induction between with
  | nil => rfl
  | cons e between ih =>
    rw [List.cons_append, claimedAt_note _ (h e List.mem_cons_self)]
    exact ih fun e' he' => h e' (List.mem_cons_of_mem _ he')

/-- What a history leaves to a payment code is what the last submission or deletion has left,
checked. -/
def Current (R : DomainRules) (s : Store) (pc : String) (l : List DomainEvent) : Prop :=
  match claimedAt s pc l with
  | some c => ∃ c', claimAt R s pc l = some c' ∧ Descends R c c'
  | none => claimAt R s pc l = none

theorem Current.congr (h : Current R s pc l) (hc : claimedAt s pc l' = claimedAt s pc l)
    (ha : claimAt R s pc l' = claimAt R s pc l) : Current R s pc l' := by
  rw [Current, hc, ha]
  exact h

theorem Current.refl (h : claimAt R s pc l = claimedAt s pc l) : Current R s pc l := by
  rw [Current, h]
  cases claimedAt s pc l with
  | none => rfl
  | some c => exact ⟨c, rfl, .refl⟩

theorem Current.claimed (h : Current R s pc l) (ha : claimAt R s pc l = some c) :
    ∃ c₀, claimedAt s pc l = some c₀ ∧ Descends R c₀ c := by
  rw [Current] at h
  cases hc : claimedAt s pc l with
  | none =>
    rw [hc] at h
    cases h.symm.trans ha
  | some c₀ =>
    rw [hc] at h
    obtain ⟨c', hc', hd⟩ := h
    cases hc'.symm.trans ha
    exact ⟨c₀, rfl, hd⟩

/-- What was written back in time leaves the payment code a claim that is current. -/
theorem current_written {w : ClaimWrite} (hw : w.old = some c) (hr : w.Checked R)
    (hpc : c.paymentCode = pc) (hl : l = between ++ .saw i c :: base)
    (hb : ∀ e ∈ between, ∀ x, e.renewed ≠ some (pc, x)) (hsaw : claimAt R s c.paymentCode base = some c)
    (hbase : Current R s pc base) : Current R s pc (.stored i w :: l) := by
  subst hpc
  have hnone : (DomainEvent.stored i w).renewed = none := by
    cases w with
    | submitted c txt r => cases hw
    | rechecked | swept | revoked => rfl
  obtain ⟨c₀, hc₀, hd⟩ := hbase.claimed hsaw
  have hcl : claimedAt s c.paymentCode (.stored i w :: l) = some c₀ := by
    rw [claimedAt_note l (by simp [hnone]), hl, claimedAt_append hb, ← hc₀]
    exact claimedAt_note base (by simp [DomainEvent.renewed])
  rw [Current, hcl]
  exact ⟨w.claim R.grace, by rw [claimAt_stored, if_pos (w.same_claim R.grace hw).1],
    hd.tail ⟨w, hw, hr, rfl⟩⟩

theorem current_suffixes (h : DomainLegal R s l) (hl : Throughout (InTime pc) l) :
    ∀ base, base <:+ l → Current R s pc base := by
  induction h with
  | nil =>
    intro base hbase
    rw [List.suffix_nil.1 hbase]
    exact .refl rfl
  | @cons l e h he ih =>
    cases hl with
    | cons hl hin =>
      have ih := ih hl
      intro base hbase
      obtain rfl | hbase := List.suffix_cons_iff.1 hbase
      · cases e with
        | saw | mapped | published | answered => exact (ih l List.suffix_rfl).congr rfl rfl
        | removed i k =>
          by_cases hk : k = pc
          · refine .refl ?_
            rw [claimAt_removed, if_pos hk, claimedAt]
            exact (if_pos hk).symm
          · exact (ih l List.suffix_rfl).congr (if_neg hk) (if_neg hk)
        | stored i w =>
          obtain ⟨hr, hsaw⟩ := he
          cases hw : w.old with
          | none =>
            cases w with
            | submitted c txt r =>
              by_cases hk : c.paymentCode = pc
              · refine .refl ?_
                rw [claimAt_stored, claimedAt]
                exact (if_pos hk).trans (if_pos hk).symm
              · exact (ih l List.suffix_rfl).congr (if_neg hk) (if_neg hk)
            | rechecked | swept | revoked => cases hw
          | some c =>
            by_cases hk : c.paymentCode = pc
            · obtain ⟨between, base, hb, hno⟩ := hin i w c rfl hw hk
              have hbase : base <:+ l := ⟨between ++ [.saw i c], by simp [hb]⟩
              have hc : DomainAllowed R s base (.saw i c) := (hb ▸ h).before
              exact current_written hw hr hk hb hno hc (ih base hbase)
            · have hnone : (DomainEvent.stored i w).renewed = none := by
                cases w with
                | submitted c txt r => cases hw
                | rechecked | swept | revoked => rfl
              refine (ih l List.suffix_rfl).congr (claimedAt_note l (by simp [hnone])) ?_
              rw [claimAt_stored, (w.same_claim R.grace hw).1, if_neg hk]
      · exact ih base hbase

/-- While every claim that is written back was read after the last submission or deletion of its
payment code, no look-up overwrites a newer claim or brings a deleted one back. -/
theorem newer_claim_kept (R : DomainRules) (s : Store) (hs : s.Keyed) (pc : String)
    (moves : List (Move DomainRequest Answer)) :
    let w := (Pool.run (serveDomains R) ⟨⟨s, []⟩, []⟩ moves).shared
    Throughout (InTime pc) w.log → UpToDate R s pc w := by
  intro w hin
  have ht : Traced R s w := traced_run R hs moves
  have hc : Current R s pc w.log := current_suffixes ht.legal hin w.log List.suffix_rfl
  rw [Current, ← ht.claims] at hc
  constructor
  · intro c hcl
    rw [hcl] at hc
    obtain ⟨c', hc', hd⟩ := hc
    exact ⟨c', hc', hd, hd.same_claim⟩
  · intro hcl
    rw [hcl] at hc
    exact hc

end Histories

/-- The store of an operator whose badge was checked. -/
def badgeStore : Store where
  domains := { entries := [(badge.paymentCode, badge)] }

theorem badgeStore_keyed : badgeStore.Keyed := by
  intro pc c hc
  have hm := Table.mem_of_lookup hc
  cases List.mem_singleton.1 hm
  rfl

def badgeCode : PaymentCode := ⟨badge.paymentCode, by decide⟩

/-- The next `n` answers of request `i`. -/
def domainAnswers (i n : Nat) : List (Move DomainRequest Answer) := List.replicate n (.resume i {})

/-- A re-check, up to where it has stored what it has found. -/
def recheckOnce : List (Move DomainRequest Answer) := .call (.recheck (some badgeCode)) :: domainAnswers 0 7

theorem newer_claim_kept_rechecked :
    UpToDate twoResolvers badgeStore badge.paymentCode
      (Pool.run (serveDomains twoResolvers) ⟨⟨badgeStore, []⟩, []⟩ recheckOnce).shared := by
  refine newer_claim_kept twoResolvers badgeStore badgeStore_keyed badge.paymentCode recheckOnce ?_
  have hlog : (Pool.run (serveDomains twoResolvers) ⟨⟨badgeStore, []⟩, []⟩ recheckOnce).shared.log =
      [.stored 0 (.rechecked badge (.ok {}) (twoResolvers.verifyDns badge.domain badge.paymentCode {}) 0),
        .saw 0 badge] := rfl
  rw [hlog]
  refine .cons (.cons .nil fun i w c he => by cases he) fun i w c he hw hpc => ?_
  cases he
  cases hw
  exact ⟨[], [], rfl, by simp⟩

/-- A re-check waits for its look-up while the claim is deleted. -/
def deletedMeanwhile : List (Move DomainRequest Answer) :=
  .call (.recheck (some badgeCode)) :: domainAnswers 0 3 ++
    .call (.delete (some badgeCode)) :: domainAnswers 1 40 ++ domainAnswers 0 40

def recheckedLate : Pool (World DomainEvent) Answer Fault Response :=
  Pool.run (serveDomains twoResolvers) ⟨⟨badgeStore, []⟩, []⟩ deletedMeanwhile

/-- The re-check brings the claim back, although both requests have been answered. -/
theorem late_recheck_restores_deleted_claim :
    ¬ ∀ (R : DomainRules) (s : Store) (pc : String) (moves : List (Move DomainRequest Answer)),
      s.Keyed →
      let p := Pool.run (serveDomains R) ⟨⟨s, []⟩, []⟩ moves
      p.Finished → UpToDate R s pc p.shared := by
  intro h
  have hfin : recheckedLate.Finished := by decide +kernel
  have hnone : claimedAt badgeStore badge.paymentCode recheckedLate.shared.log = none := by
    decide +kernel
  have hback : recheckedLate.shared.store.domains.get badge.paymentCode ≠ none := by decide +kernel
  have hup : UpToDate twoResolvers badgeStore badge.paymentCode recheckedLate.shared :=
    h twoResolvers badgeStore badge.paymentCode deletedMeanwhile badgeStore_keyed hfin
  exact hback (hup.gone hnone)

end Mise.Server
