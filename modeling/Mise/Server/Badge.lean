import Mise.Server.Domains

set_option autoImplicit true

namespace Mise.Server

/-- A check of a claim at a time: by the sweep, or by a re-check on demand. -/
structure Check where
  onDemand : Bool
  txt : Except String TxtLookup
  now : Int

inductive Outcome where
  | success
  | inconclusive
  | failure
  deriving DecidableEq

def TxtAgreement.outcome (r : TxtAgreement) : Outcome :=
  if r.inconclusive then .inconclusive else if r.ok then .success else .failure

def ClaimVerification.outcome (r : ClaimVerification) : Outcome :=
  if r.ok then .success else if r.inconclusive then .inconclusive else .failure

namespace Check

variable (R : DomainRules)

/-- What a check makes of a claim. A re-check whose look-up throws leaves it as it is. -/
def apply (k : Check) (claim : DomainClaim) : DomainClaim :=
  if k.onDemand then
    match R.verification claim k.txt with
    | .ok r => claim.rechecked r k.now
    | .error _ => claim
  else claim.applyRecheck R.grace (R.sweepResult claim k.txt) k.now

def outcome (k : Check) (claim : DomainClaim) : Outcome :=
  if k.onDemand then
    match R.verification claim k.txt with
    | .ok r => r.outcome
    | .error _ => .inconclusive
  else (R.sweepResult claim k.txt).outcome

end Check

section Runs

variable (R : DomainRules) (claim : DomainClaim)

/-- The claim after these checks, newest first. -/
def afterChecks : List Check → DomainClaim
  | [] => claim
  | k :: ks => k.apply R (afterChecks ks)

/-- The time of the first failure since the last success. -/
def failingSince : List Check → Option Int
  | [] => none
  | k :: ks => match k.outcome R (afterChecks R claim ks) with
    | .success => none
    | .inconclusive => failingSince ks
    | .failure => some ((failingSince ks).getD k.now)

/-- The last check is a failure after a full grace period. -/
def Overdue (k : Check) (ks : List Check) : Prop :=
  k.outcome R (afterChecks R claim ks) = .failure ∧
    ∃ t, failingSince R claim (k :: ks) = some t ∧ R.grace ≤ k.now - t

/-- The badge is lost only after a full grace period, an inconclusive check does not change it, and
a success ends the failure period. -/
structure GraceKept (ks : List Check) : Prop where
  lost : ∀ later k earlier, ks = later ++ k :: earlier → (afterChecks R claim earlier).verified →
    (afterChecks R claim (k :: earlier)).verified = false → Overdue R claim k earlier
  inconclusive : ∀ later k earlier, ks = later ++ k :: earlier →
    k.outcome R (afterChecks R claim earlier) = .inconclusive →
    (afterChecks R claim (k :: earlier)).verified = (afterChecks R claim earlier).verified
  success : ∀ later k earlier, ks = later ++ k :: earlier →
    k.outcome R (afterChecks R claim earlier) = .success →
    (afterChecks R claim (k :: earlier)).failSince = .absent

/-- Every re-check on demand that finds the badge in place and comes to a result is a success, or a
failure after a full grace period. -/
def ChecksPatiently (ks : List Check) : Prop :=
  ∀ later k earlier r, ks = later ++ k :: earlier → k.onDemand = true →
    (afterChecks R claim earlier).verified →
    R.verification (afterChecks R claim earlier) k.txt = .ok r →
    r.outcome = .success ∨ Overdue R claim k earlier

variable {R claim}

theorem sweep_verified (result : TxtAgreement) (now : Int) :
    (claim.applyRecheck R.grace result now).verified = match result.outcome with
      | .success => true
      | .inconclusive => claim.verified
      | .failure => claim.verified && !(claim.failSince.or (.at now)).parse.any (R.grace ≤ now - ·) := by
  unfold DomainClaim.applyRecheck TxtAgreement.outcome
  cases result.inconclusive with
  | true => rfl
  | false => cases result.ok <;> rfl

theorem sweep_failSince (result : TxtAgreement) (now : Int) :
    (claim.applyRecheck R.grace result now).failSince = match result.outcome with
      | .success => .absent
      | .inconclusive => claim.failSince
      | .failure => claim.failSince.or (.at now) := by
  unfold DomainClaim.applyRecheck TxtAgreement.outcome
  cases result.inconclusive with
  | true => rfl
  | false => cases result.ok <;> rfl

theorem ClaimVerification.success_iff (r : ClaimVerification) : r.outcome = .success ↔ r.ok = true := by
  unfold outcome
  cases r.ok with
  | true => simp
  | false => cases r.inconclusive <;> simp

/-- A time as a time stamp. -/
def stampOf : Option Int → Stamp
  | some t => .at t
  | none => .absent

theorem ChecksPatiently.tail (h : ChecksPatiently R claim (k :: ks)) : ChecksPatiently R claim ks :=
  fun later k' earlier r hl => h (k :: later) k' earlier r (congrArg (k :: ·) hl)

/-- While the badge is in place, the claim knows when its failures began. -/
theorem ChecksPatiently.failSince (h : ChecksPatiently R claim ks) (hf : claim.failSince = .absent)
    (hv : (afterChecks R claim ks).verified) :
    (afterChecks R claim ks).failSince = stampOf (failingSince R claim ks) := by
  induction ks with
  | nil => exact hf
  | cons k ks ih =>
    have ih := ih h.tail
    have hk := h [] k ks
    rw [failingSince]
    simp only [afterChecks, Check.apply, Check.outcome] at hv ⊢
    generalize afterChecks R claim ks = s at ih hk hv ⊢
    cases ho : k.onDemand with
    | false =>
      simp only [ho, Bool.false_eq_true, if_false, sweep_verified, sweep_failSince] at hv ⊢
      cases hout : (R.sweepResult s k.txt).outcome with
      | success => rfl
      | inconclusive =>
        rw [hout] at hv
        exact ih hv
      | failure =>
        rw [hout] at hv
        rw [ih (Bool.and_eq_true_iff.1 hv).1]
        cases failingSince R claim ks <;> rfl
    | true =>
      simp only [ho, if_true] at hv ⊢
      cases hr : R.verification s k.txt with
      | error e =>
        rw [hr] at hv
        exact ih hv
      | ok r =>
        rw [hr] at hv
        have hok : r.ok = true := hv
        simp only [r.success_iff.2 hok, DomainClaim.rechecked, hok, if_true]
        rfl

theorem failingSince_failure (k : Check) (ks : List Check)
    (h : k.outcome R (afterChecks R claim ks) = .failure) :
    failingSince R claim (k :: ks) = some ((failingSince R claim ks).getD k.now) := by
  rw [failingSince, h]

/-- The sweep takes the badge away after a full grace period only. -/
theorem ChecksPatiently.sweep_lost (h : ChecksPatiently R claim ks) (hf : claim.failSince = .absent)
    (hk : k.onDemand = false) (hv : (afterChecks R claim ks).verified)
    (hl : (afterChecks R claim (k :: ks)).verified = false) : Overdue R claim k ks := by
  have hout : k.outcome R (afterChecks R claim ks) = (R.sweepResult (afterChecks R claim ks) k.txt).outcome := by
    rw [Check.outcome, if_neg (by simp [hk])]
  rw [afterChecks, Check.apply, if_neg (by simp [hk]), sweep_verified, ← hout] at hl
  cases ho : k.outcome R (afterChecks R claim ks) with
  | success => rw [ho] at hl; cases hl
  | inconclusive => rw [ho] at hl; cases hl.symm.trans hv
  | failure =>
    refine ⟨ho, _, failingSince_failure k ks ho, ?_⟩
    rw [ho, hv, h.failSince hf hv] at hl
    cases hs : failingSince R claim ks with
    | none => simpa [hs, stampOf, Stamp.or, Stamp.parse] using hl
    | some t => simpa [hs, stampOf, Stamp.or, Stamp.parse] using hl

theorem onDemand_apply {k : Check} (hk : k.onDemand = true) (hr : R.verification claim k.txt = .ok r) :
    k.apply R claim = claim.rechecked r k.now ∧ k.outcome R claim = r.outcome := by
  simp only [Check.apply, Check.outcome, hk, hr, if_true, and_self]

theorem onDemand_throws {k : Check} (hk : k.onDemand = true) (hr : R.verification claim k.txt = .error e) :
    k.apply R claim = claim ∧ k.outcome R claim = Outcome.inconclusive := by
  simp only [Check.apply, Check.outcome, hk, hr, if_true, and_self]

/-- A badge is lost only after a full grace period exactly as long as no re-check on demand finds it
in place and fails before that, or is inconclusive. -/
theorem grace_kept_iff (R : DomainRules) (claim : DomainClaim) (ks : List Check)
    (hf : claim.failSince = .absent) : GraceKept R claim ks ↔ ChecksPatiently R claim ks := by
  constructor
  · intro h later k earlier r hl hk hv hr
    obtain ⟨ha, -⟩ := onDemand_apply hk hr
    cases hok : r.ok with
    | true => exact .inl (r.success_iff.2 hok)
    | false => exact .inr (h.lost later k earlier hl hv (by rw [afterChecks, ha]; exact hok))
  · intro h
    have hsuffix : ∀ later earlier, ks = later ++ earlier → ChecksPatiently R claim earlier :=
      fun later earlier hl l k e r he => h (later ++ l) k e r (by rw [hl, he, List.append_assoc])
    constructor
    · intro later k earlier hl hv hlost
      cases hk : k.onDemand with
      | false => exact (hsuffix (later ++ [k]) earlier (by simp [hl])).sweep_lost hf hk hv hlost
      | true =>
        cases hr : R.verification (afterChecks R claim earlier) k.txt with
        | error e =>
          rw [afterChecks, (onDemand_throws hk hr).1] at hlost
          cases hlost.symm.trans hv
        | ok r =>
          rw [afterChecks, (onDemand_apply hk hr).1] at hlost
          refine (h later k earlier r hl hk hv hr).resolve_left fun hs => ?_
          cases (r.success_iff.1 hs).symm.trans hlost
    · intro later k earlier hl hout
      cases hk : k.onDemand with
      | false =>
        rw [Check.outcome, if_neg (by simp [hk])] at hout
        rw [afterChecks, Check.apply, if_neg (by simp [hk]), sweep_verified, hout]
      | true =>
        cases hr : R.verification (afterChecks R claim earlier) k.txt with
        | error e => rw [afterChecks, (onDemand_throws hk hr).1]
        | ok r =>
          obtain ⟨ha, ho⟩ := onDemand_apply hk hr
          rw [ho] at hout
          have hno : r.ok = false := Bool.eq_false_iff.2 fun hok => by
            cases hout.symm.trans (r.success_iff.2 hok)
          have hv : (afterChecks R claim earlier).verified = false := by
            refine Bool.eq_false_iff.2 fun hv => ?_
            obtain hs | ⟨hfail, -⟩ := h later k earlier r hl hk hv hr
            · cases hout.symm.trans hs
            · cases (ho.trans hout).symm.trans hfail
          rw [afterChecks, ha, hv]
          exact hno
    · intro later k earlier hl hout
      cases hk : k.onDemand with
      | false =>
        rw [Check.outcome, if_neg (by simp [hk])] at hout
        rw [afterChecks, Check.apply, if_neg (by simp [hk]), sweep_failSince, hout]
      | true =>
        cases hr : R.verification (afterChecks R claim earlier) k.txt with
        | error e => cases (onDemand_throws hk hr).2.symm.trans hout
        | ok r =>
          obtain ⟨ha, ho⟩ := onDemand_apply hk hr
          have hok : r.ok = true := r.success_iff.1 (ho.symm.trans hout)
          rw [afterChecks, ha, DomainClaim.rechecked, hok]
          rfl

end Runs

/-- Two resolvers have to agree, and the grace period is seven days. -/
def twoResolvers : DomainRules where
  normaliseDomain _ := .ok "example.com"
  repairSignedBlock _ := none
  verifySignedUrlClaim _ _ _ := none
  txtMatches record code := record = "mise-domain-v1 pm=" ++ code
  agreement := 2
  grace := 7 * 86400 * 1000
  recheckEvery := 24 * 3600 * 1000
  pendingRecheckEvery := 5 * 60 * 1000

/-- A badge that was checked at the time 0. -/
def badge : DomainClaim where
  paymentCode := "PM8Towner"
  domain := "example.com"
  signed := "(signed)"
  verified := true
  verifiedAt := .at 0
  lastCheck := .at 0
  lastResult := some "ok"
  createdAt := .at 0

/-- No resolver has the record, on two days, eight days apart. -/
theorem grace_kept_swept :
    GraceKept twoResolvers badge
      [⟨false, .ok { byResolver := [[], []] }, 9 * 86400 * 1000⟩,
        ⟨false, .ok { byResolver := [[], []] }, 86400 * 1000⟩] := by
  refine (grace_kept_iff twoResolvers badge _ rfl).2 fun later k earlier r hl hk _ _ => ?_
  have hm : k ∈ later ++ k :: earlier := by simp
  rw [← hl] at hm
  simp only [List.mem_cons, List.not_mem_nil, or_false] at hm
  obtain rfl | rfl := hm
  · cases hk
  · cases hk

/-- One re-check on demand while no resolver can be reached takes the badge away. -/
theorem unreachable_resolvers_strip_badge :
    ¬ ∀ (R : DomainRules) (claim : DomainClaim) (ks : List Check), claim.verified = true →
      claim.revoked = false → claim.failSince = .absent →
      (ks.map Check.now).Pairwise (fun later earlier => earlier ≤ later) → GraceKept R claim ks := by
  intro h
  have hg := h twoResolvers badge [⟨true, .ok {}, 3600 * 1000⟩] rfl rfl rfl (by simp)
  have hlost := hg.inconclusive [] _ [] rfl rfl
  cases hlost

end Mise.Server
