import Mise.Async.Owned
import Mise.Server.Updates

set_option autoImplicit true

namespace Mise.Server.Updates

open Async Owned

/-- An event after which the cache has something else. -/
def Event.settles : Event → Bool
  | .signedIn _ | .checked _ _ _ => true
  | _ => false

/-- A forced request goes out. -/
def Event.forces : Event → Bool
  | .sent _ _ forced _ => forced
  | _ => false

def Event.owner : Event → Option Nat
  | .signedIn i | .refused i _ | .served i _ _ _ _ | .sent i _ _ _ | .checked i _ _ | .failed i _ => some i

/-- The last check that has succeeded found `c`, and nobody has signed in since. -/
def Settled (c : Cached) (l : List Event) : Prop :=
  ∃ m k l', l = m ++ .checked k c.time c.result :: l' ∧ ∀ e ∈ m, e.settles = false

/-- There is something that the cache may answer with at the time `now`. -/
def Fresh (now : Int) (l : List Event) : Prop := ∃ c, Settled c l ∧ now - c.time < ttlMs

/-- How the requests go out to GitHub in a history, and what the others are answered with. -/
structure Paced (l : List Event) : Prop where
  /-- What the cache answers with was found by the last check, less than six hours ago and after the
  last sign-in. -/
  served : ∀ l' i now forced waitS result, .served i now forced waitS result :: l' <:+ l →
    (∃ time, Settled ⟨time, result⟩ l' ∧ now - time < ttlMs) ∧ (waitS ≠ 0 → forced = true)
  found : ∀ l' i time result, .checked i time result :: l' <:+ l →
    ∃ now forced forcedAt, .sent i now forced forcedAt ∈ l'
  /-- A request that is not forced goes out only where the cache has nothing to answer with. -/
  unforced : ∀ l' i now forcedAt, .sent i now false forcedAt :: l' <:+ l → ¬ Fresh now l'
  /-- Two forced requests in a row go out a minute apart, where the cache could have answered. -/
  spaced : ∀ l' m i now forcedAt i' now' forcedAt',
    .sent i now true forcedAt :: (m ++ .sent i' now' true forcedAt' :: l') <:+ l →
      (∀ e ∈ m, e.forces = false) → forcedAt' ≠ 0 →
        Fresh now (m ++ .sent i' now' true forcedAt' :: l') → forcedAt' + forcedUpdateFloor ≤ now
  /-- Who has waited as long as the answer says is not told to wait for the same check again. -/
  waited : ∀ l' m i now waitS result i' now' waitS' result',
    .served i now true waitS result :: (m ++ .served i' now' true waitS' result' :: l') <:+ l →
      (∀ e ∈ m, e.forces = false) → now < now' + 1000 * waitS'

/-- What the history says that the cache has. -/
def latest : List Event → Option Cached
  | [] => none
  | .signedIn _ :: _ => none
  | .checked _ time result :: _ => some ⟨time, result⟩
  | _ :: l => latest l

/-- When a forced request last went out, as the history has it. -/
def lastForced : List Event → Int
  | [] => 0
  | .sent _ _ true forcedAt :: _ => forcedAt
  | _ :: l => lastForced l

section History

variable {l m : List Event} {e : Event} {c : Cached}

theorem latest_cons (he : e.settles = false) : latest (e :: l) = latest l := by
  cases e with
  | signedIn i => cases he
  | checked i time result => cases he
  | refused i r => rfl
  | served i now forced waitS result => rfl
  | sent i now forced forcedAt => rfl
  | failed i error => rfl

theorem latest_checked {i : Nat} : latest (.checked i c.time c.result :: l) = some c := rfl

theorem lastForced_cons (he : e.forces = false) : lastForced (e :: l) = lastForced l := by
  cases e with
  | sent i now forced forcedAt =>
    cases forced with
    | true => cases he
    | false => rfl
  | signedIn i => rfl
  | checked i time result => rfl
  | refused i r => rfl
  | served i now forced waitS result => rfl
  | failed i error => rfl

theorem lastForced_append (hm : ∀ e ∈ m, e.forces = false) : lastForced (m ++ l) = lastForced l := by
  induction m with
  | nil => rfl
  | cons e m ih =>
    obtain ⟨he, hm⟩ := List.forall_mem_cons.1 hm
    exact (lastForced_cons he).trans (ih hm)

theorem settled_cons (he : e.settles = false) : Settled c (e :: l) ↔ Settled c l := by
  constructor
  · rintro ⟨m, k, l', hl, hm⟩
    cases m with
    | nil =>
      cases hl
      cases he
    | cons e' m =>
      cases hl
      exact ⟨m, k, l', rfl, (List.forall_mem_cons.1 hm).2⟩
  · rintro ⟨m, k, l', rfl, hm⟩
    exact ⟨e :: m, k, l', rfl, List.forall_mem_cons.2 ⟨he, hm⟩⟩

theorem latest_eq_some_iff : latest l = some c ↔ Settled c l := by
  induction l with
  | nil =>
    constructor
    · intro h
      cases h
    · rintro ⟨m, k, l', hl, -⟩
      cases m with
      | nil => cases hl
      | cons e m => cases hl
  | cons e l ih =>
    cases he : e.settles with
    | false => rw [latest_cons he, settled_cons he, ih]
    | true =>
      cases e with
      | signedIn i =>
        constructor
        · intro h
          cases h
        · rintro ⟨m, k, l', hl, hm⟩
          cases m with
          | nil => cases hl
          | cons e' m =>
            cases hl
            cases hm _ List.mem_cons_self
      | checked i time result =>
        constructor
        · intro h
          cases h
          exact ⟨[], i, l, rfl, fun e he => absurd he List.not_mem_nil⟩
        · rintro ⟨m, k, l', hl, hm⟩
          cases m with
          | nil =>
            cases hl
            exact latest_checked
          | cons e' m =>
            cases hl
            cases hm _ List.mem_cons_self
      | refused i r => cases he
      | served i now forced waitS result => cases he
      | sent i now forced forcedAt => cases he
      | failed i error => cases he

end History

section Decision

variable {cachedAt : Option Int} {now forcedAt ttl floor : Int} {forced : Bool}

/-- The cache answers where it is fresh, and a forced request does not go out so soon. -/
theorem serveCached_iff : (updateCacheDecision cachedAt now forced forcedAt ttl floor).serveCached = true ↔
    (∃ t, cachedAt = some t ∧ now - t < ttl) ∧
      (forced = true → forcedAt ≠ 0 ∧ now - forcedAt < floor) := by
  cases cachedAt with
  | none => simp [updateCacheDecision]
  | some t =>
    by_cases ht : now - t < ttl
    · cases forced with
      | false => simp [updateCacheDecision, ht]
      | true =>
        by_cases hf : forcedAt ≠ 0 ∧ now - forcedAt < floor
        · simp [updateCacheDecision, ht, hf]
        · simp only [updateCacheDecision, if_pos ht, if_neg hf, reduceIte]
          exact ⟨nofun, fun h => absurd (h.2 trivial) hf⟩
    · simp [updateCacheDecision, ht]

/-- The wait that is told is long enough. -/
theorem floor_le_wait (h : (updateCacheDecision cachedAt now true forcedAt ttl floor).serveCached = true) :
    floor ≤ now - forcedAt + 1000 * (updateCacheDecision cachedAt now true forcedAt ttl floor).waitS := by
  obtain ⟨⟨t, rfl, ht⟩, hf⟩ := serveCached_iff.1 h
  simp only [updateCacheDecision, if_pos ht, if_pos (hf rfl), if_true]
  omega

theorem unforced_waitS : (updateCacheDecision cachedAt now false forcedAt ttl floor).waitS = 0 := by
  cases cachedAt with
  | none => rfl
  | some t =>
    simp only [updateCacheDecision]
    split
    · rfl
    · rfl

end Decision

/-- What is known of an event when it happens. -/
def Lawful (l : List Event) : Event → Prop
  | .served _ now forced waitS result => (∃ time, latest l = some ⟨time, result⟩ ∧ now - time < ttlMs) ∧
      (forced = false → waitS = 0) ∧
      (forced = true → now - lastForced l < forcedUpdateFloor ∧
        forcedUpdateFloor ≤ now - lastForced l + 1000 * waitS)
  | .sent _ now forced _ => ∀ c, latest l = some c → now - c.time < ttlMs →
      forced = true ∧ (lastForced l ≠ 0 → lastForced l + forcedUpdateFloor ≤ now)
  | .checked i _ _ => ∃ now forced forcedAt, .sent i now forced forcedAt ∈ l
  | _ => True

/-- The two variables have what the history says. -/
structure Inv (w : World) : Prop where
  cache : w.cache = latest w.log
  forcedAt : w.forcedAt = lastForced w.log
  lawful : Logged.Throughout Lawful w.log

section Steps

variable {w : World} {i : Nat} {e : Event}

theorem Inv.emit (h : Inv w) (hs : e.settles = false) (hf : e.forces = false) (he : Lawful w.log e) :
    Inv (w.emit e) :=
  ⟨h.cache.trans (latest_cons hs).symm, h.forcedAt.trans (lastForced_cons hf).symm, .cons h.lawful he⟩

theorem Inv.signIn (h : Inv w) : Inv (w.signIn i) := ⟨rfl, h.forcedAt, .cons h.lawful trivial⟩

theorem Inv.store {time : Int} {result : Result} (h : Inv w)
    (hi : ∃ now forced forcedAt, .sent i now forced forcedAt ∈ w.log) : Inv (w.store i time result) :=
  ⟨rfl, h.forcedAt, .cons h.lawful hi⟩

theorem enter_cases (i : Nat) (forced : Bool) (now later : Int) (w : World) :
    (∃ c waitS, w.cache = some c ∧ waitS = (updateCacheDecision (some c.time) now forced w.forcedAt ttlMs
        forcedUpdateFloor).waitS ∧
      (updateCacheDecision (some c.time) now forced w.forcedAt ttlMs forcedUpdateFloor).serveCached = true ∧
      w.enter i forced now later = (true, w.emit (.served i now forced waitS c.result))) ∨
    ∃ forcedAt, forcedAt = (if forced then later else w.forcedAt) ∧
      (updateCacheDecision (w.cache.map Cached.time) now forced w.forcedAt ttlMs
        forcedUpdateFloor).serveCached = false ∧
      w.enter i forced now later =
        (false, World.emit (.sent i now forced forcedAt) { w with forcedAt }) := by
  unfold World.enter
  cases hd : (updateCacheDecision (w.cache.map Cached.time) now forced w.forcedAt ttlMs
      forcedUpdateFloor).serveCached with
  | false =>
    refine .inr ⟨_, rfl, rfl, ?_⟩
    simp only [hd]
  | true =>
    cases hc : w.cache with
    | none =>
      rw [hc] at hd
      cases hd
    | some c =>
      rw [hc, Option.map_some] at hd
      refine .inl ⟨c, _, rfl, rfl, hd, ?_⟩
      simp only [Option.map_some, hd]

theorem Inv.enter {forced : Bool} {now later : Int} (h : Inv w) :
    Inv (w.enter i forced now later).2 := by
  obtain ⟨c, waitS, hc, hw, hd, hw'⟩ | ⟨forcedAt, hf, hd, hw'⟩ := enter_cases i forced now later w
  · rw [hw']
    have hlatest : latest w.log = some c := h.cache.symm.trans hc
    obtain ⟨⟨t, ht, hfresh⟩, hforced⟩ := serveCached_iff.1 hd
    cases ht
    apply h.emit rfl rfl
    refine ⟨⟨c.time, hlatest, hfresh⟩, ?_, ?_⟩
    · rintro rfl
      rw [hw]
      exact unforced_waitS
    · rintro rfl
      rw [hw, ← h.forcedAt]
      exact ⟨(hforced rfl).2, floor_le_wait hd⟩
  · rw [hw']
    have hlawful : Lawful w.log (.sent i now forced forcedAt) := by
      intro c hc ht
      rw [h.cache, hc] at hd
      have hnot := mt serveCached_iff.2 (Bool.not_eq_true _ ▸ hd)
      rw [not_and] at hnot
      have hforced := hnot ⟨c.time, rfl, ht⟩
      rw [Classical.not_imp] at hforced
      refine ⟨hforced.1, fun hne => ?_⟩
      rw [← h.forcedAt] at hne ⊢
      have hfloor : ¬ now - w.forcedAt < forcedUpdateFloor := fun hlt => hforced.2 ⟨hne, hlt⟩
      omega
    constructor
    · exact h.cache
    · cases forced with
      | true => rfl
      | false =>
        rw [hf]
        exact h.forcedAt
    · exact .cons h.lawful hlawful

end Steps

section Calls

variable {h : Host} {i : Nat} {w₀ w : World} {P : List Event → Prop}

/-- What a call does to the history and the variables, keeping what it knows. -/
abbrev Runs (i : Nat) (P : List Event → Prop) (p : Check α) : Prop :=
  Yields World.log Event.owner Inv i P (fun _ => True) p

theorem runs_ofExcept (x : Except String α) : Runs i P (Async.ofExcept x) := by
  cases x with
  | ok a => exact .pure trivial
  | error e => exact .throw e

theorem runs_github (what : String) : Runs i P (github what) := by
  unfold github
  apply Yields.bind .wait
  intro a _
  apply Yields.bind (runs_ofExcept a.reply)
  intro reply _
  split
  · apply Yields.bind (K := fun _ => True) (.throw _)
    intro _ _
    exact runs_ofExcept reply.body
  · exact runs_ofExcept reply.body

theorem runs_checkUpdates : Runs i P (checkUpdates h) := by
  unfold checkUpdates
  apply Yields.bind .wait
  intro a _
  apply Yields.bind (runs_ofExcept a.version)
  intro version _
  apply Yields.bind (runs_ofExcept _)
  intro deployed _
  have hrest : Runs i P (do
      let commit ← checked (deployed.getD .null).text
      let compare ← github "compare"
      let releases ← github "releases"
      let b ← Async.wait
      checked (report h version compare releases commit (readTags b.reply) b.clock)) := by
    apply Yields.bind (runs_ofExcept _)
    intro commit _
    apply Yields.bind (runs_github _)
    intro compare _
    apply Yields.bind (runs_github _)
    intro releases _
    apply Yields.bind .wait
    intro b _
    exact runs_ofExcept _
  split
  · apply Yields.bind (K := fun _ => True) (.throw _)
    intro _ _
    exact hrest
  · exact hrest

theorem own_step {w' : World} {e : Event} (hlog : w'.log = e :: w.log) (he : e.owner = some i)
    (hinv : Inv w → Inv w') : Own World.log Event.owner Inv i w w' := by
  refine ⟨⟨[e], hlog, fun e' he' j hj => ?_⟩, hinv⟩
  rw [List.mem_singleton.1 he', he] at hj
  exact (Option.some.inj hj).symm

/-- The request has gone out. -/
def Out (i : Nat) (l : List Event) : Prop := ∃ now forced forcedAt, .sent i now forced forcedAt ∈ l

theorem Out.stable : Stable Event.owner i (Out i) := by
  apply Stable.of_append
  rintro l l' ⟨now, forced, forcedAt, hl⟩
  exact ⟨now, forced, forcedAt, List.mem_append_right l hl⟩

theorem keeps_updates {forced : Bool} (hw : Knows World.log Event.owner Inv i P w₀ w) :
    Owned.Keeps World.log Event.owner Inv i (Owned.Ends World.log Event.owner Inv i)
      (updates h i forced) w₀ w := by
  unfold updates
  refine hw.wait.seq fun a t₀ t ht => ?_
  cases a.refused with
  | some r => exact ht.step (own_step rfl rfl fun hinv => hinv.emit rfl rfl trivial) (.const _) trivial
  | none =>
    have henter : Own World.log Event.owner Inv i t (t.enter i forced a.clock a.later).2 := by
      obtain ⟨c, waitS, -, -, -, he⟩ | ⟨forcedAt, -, -, he⟩ := enter_cases i forced a.clock a.later t
      · apply own_step (e := .served i a.clock forced waitS c.result)
        · rw [he]
          rfl
        · rfl
        · exact Inv.enter
      · apply own_step (e := .sent i a.clock forced forcedAt)
        · rw [he]
          rfl
        · rfl
        · exact Inv.enter
    have hout : (t.enter i forced a.clock a.later).1 = false →
        Out i (t.enter i forced a.clock a.later).2.log := by
      intro hb
      obtain ⟨c, waitS, -, -, -, he⟩ | ⟨forcedAt, -, -, he⟩ := enter_cases i forced a.clock a.later t
      · rw [he] at hb
        cases hb
      · rw [he]
        exact ⟨a.clock, forced, forcedAt, List.mem_cons_self⟩
    have hstep := ht.step henter (Q := fun l => (t.enter i forced a.clock a.later).1 = false → Out i l)
      (fun l l' hl hp hb => Out.stable l l' hl (hp hb)) hout
    refine Sat.seq (Q := fun answered => Knows World.log Event.owner Inv i fun l => answered = false → Out i l)
      hstep fun answered u₀ u hu => ?_
    cases answered with
    | true => exact hu.ends ()
    | false =>
      have hu : Knows World.log Event.owner Inv i (Out i) u₀ u := hu.mono Out.stable fun hp => hp rfl
      have hoid : Runs i (Out i)
          (MonadExcept.tryCatch (Except.ok <$> checkUpdates h) fun e => return .error e) := by
        apply Yields.tryCatch
        · apply Yields.bind runs_checkUpdates
          intro r _
          exact .pure trivial
        · intro e
          exact .pure trivial
      refine Yields.seq hoid hu fun outcome v₀ v _ hv => ?_
      refine hv.wait.seq fun b x₀ x hx => ?_
      cases outcome with
      | ok r => exact hx.step (own_step rfl rfl fun hinv => hinv.store hx.known) (.const _) trivial
      | error e => exact hx.step (own_step rfl rfl fun hinv => hinv.emit rfl rfl trivial) (.const _) trivial

theorem keeps_callback (hw : Knows World.log Event.owner Inv i P w₀ w) :
    Owned.Keeps World.log Event.owner Inv i (Owned.Ends World.log Event.owner Inv i) (callback i) w₀ w := by
  unfold callback
  refine hw.wait.seq fun a t₀ t ht => ?_
  split
  · refine ht.wait.seq fun b u₀ u hu => ?_
    split
    · refine hu.wait.seq fun c v₀ v hv => ?_
      split
      · have hstep := hv.step (own_step rfl rfl Inv.signIn) (.const True) trivial
        refine Owned.Keeps.update ?_
        exact hstep.wait.seq fun _ x₀ x hx => hx.ends ()
      · exact hv.ends ()
    · exact hu.ends ()
  · exact ht.ends ()

theorem inv_run (moves : List (Move Call Input)) : Inv (run h moves).shared := by
  have hlog : World.log ({} : World) = [] := rfl
  have hstart : Inv ({} : World) := ⟨rfl, rfl, .nil⟩
  have hcalls : ∀ i c (s : World), True →
      Knows World.log Event.owner Inv i (fun l => ∀ e ∈ l, Event.owner e ≠ some i) s s →
      Owned.Keeps World.log Event.owner Inv i (Owned.Ends World.log Event.owner Inv i) (program h i c) s s := by
    intro i c s _ hs
    cases c with
    | updates forced => exact keeps_updates hs
    | callback => exact keeps_callback hs
  exact Owned.inv_run hcalls hstart hlog moves fun _ _ => trivial

end Calls

theorem Inv.paced {w : World} (hw : Inv w) : Paced w.log := by
  have hat : ∀ {e l}, e :: l <:+ w.log → Lawful l e := by
    rintro e l ⟨m, hm⟩
    have hl := hw.lawful
    rw [← hm] at hl
    exact hl.before
  constructor
  · intro l' i now forced waitS result hl
    obtain ⟨⟨time, ht, hfresh⟩, hwait, -⟩ := hat hl
    refine ⟨⟨time, latest_eq_some_iff.1 ht, hfresh⟩, fun hne => ?_⟩
    cases forced with
    | true => rfl
    | false => exact absurd (hwait rfl) hne
  · intro l' i time result hl
    exact hat hl
  · rintro l' i now forcedAt hl ⟨c, hc, hfresh⟩
    have hsent := hat hl c (latest_eq_some_iff.2 hc) hfresh
    cases hsent.1
  · rintro l' m i now forcedAt i' now' forcedAt' hl hm hne ⟨c, hc, hfresh⟩
    have hsent := hat hl c (latest_eq_some_iff.2 hc) hfresh
    rw [lastForced_append hm] at hsent
    exact hsent.2 hne
  · intro l' m i now waitS result i' now' waitS' result' hl hm
    obtain ⟨-, -, hlater⟩ := hat hl
    obtain ⟨-, -, hbefore⟩ := hat (((List.suffix_append m _).trans (List.suffix_cons _ _)).trans hl)
    have hlast : lastForced (m ++ .served i' now' true waitS' result' :: l') = lastForced l' :=
      lastForced_append hm
    rw [hlast] at hlater
    have hlt := (hlater rfl).1
    have hle := (hbefore rfl).2
    omega

/-- However the requests, the sign-ins and what GitHub replies to them are interleaved. -/
theorem updates_paced (h : Host) (moves : List (Move Call Input)) : Paced (run h moves).shared.log :=
  (inv_run moves).paced

end Mise.Server.Updates
