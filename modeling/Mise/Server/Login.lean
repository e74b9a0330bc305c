import Mathlib.Data.List.Perm.Subperm
import Mise.Server.Auth

set_option autoImplicit true

namespace Mise.Server

open Js

/-- A nonce as the library accepts it. -/
def Alphanumeric (nonce : String) : Prop := ∀ c ∈ nonce.toList, c.isAlphanum

/-- The request and the nonce of a session. -/
def Login.spent : Login → Option (Nat × String)
  | .session i _ nonce _ _ _ => some (i, nonce)
  | _ => none

/-- The request that took a nonce, and the nonce. -/
def Login.taken : Login → Option (Nat × String)
  | .consumed i nonce => some (i, nonce)
  | _ => none

def Login.issue : Login → Option String
  | .issued _ nonce _ => some nonce
  | _ => none

/-- The nonce was issued with this expiry, and has not been taken since. -/
def Live (nonce : String) (expires : Int) (log : List Login) : Prop :=
  ∃ l₁ l₂ j, log = l₁ ++ .issued j nonce expires :: l₂ ∧ ∀ k, .consumed k nonce ∉ l₁

/-- Request `i` has taken a nonce that this server issued, before anyone else took it. -/
def Earned (i : Nat) (nonce : String) (expires : Int) (log : List Login) : Prop :=
  ∃ l₁ l₂, log = l₁ ++ .consumed i nonce :: l₂ ∧ Live nonce expires l₂

/-- Every session was created for a proof of its payment code, by a request that had taken the
nonce of the proof while it was a live one of this server, and judged it not to be expired. -/
def Rightful (lib : Auth47) (baseUrl : String) (log : List Login) : Prop :=
  ∀ l₁ l₂ i proof nonce sid pc now, log = l₁ ++ .session i proof nonce sid pc now :: l₂ →
    (∃ t, lib.verify baseUrl proof t = .ok pc) ∧ lib.hostname proof = some nonce ∧
      ∃ expires, now ≤ expires ∧ Earned i nonce expires l₂

/-- A session of the store was there when the store was loaded, or has been created since. -/
def SessionsCreated (loaded : Store) (w : World Login) : Prop :=
  ∀ sid d, w.store.sessions.get sid = some d → loaded.sessions.get sid = some d ∨
    ∃ i proof nonce pc now, .session i proof nonce sid pc now ∈ w.log ∧
      d = ⟨some pc, now + sessionTtl⟩

/-- No nonce leads to more sessions than it was issued for. -/
def OncePerIssue (log : List Login) : Prop :=
  ∀ nonce, (log.filterMap Login.spent).countP (·.2 == nonce) ≤
    (log.filterMap Login.issue).count nonce

/-- The library, the address of the site and the store that the server loads. -/
structure LoginSite where
  lib : Auth47
  baseUrl : String
  loaded : Store

/-- The nonces and sessions of the store agree with the history. -/
structure Consistent (S : LoginSite) (w : World Login) : Prop where
  prototype : w.store.prototype = []
  live : ∀ n d, Alphanumeric n → w.store.nonces.get n = some d → Live n d.expires w.log
  counted : ∀ n, Alphanumeric n →
    (w.log.filterMap Login.taken).countP (·.2 == n) + (w.store.nonces.get n).toList.length ≤
      (w.log.filterMap Login.issue).count n
  spent : ∀ x, (w.log.filterMap Login.spent).count x ≤ (w.log.filterMap Login.taken).count x
  alphanumeric : ∀ x ∈ w.log.filterMap Login.spent, Alphanumeric x.2
  rightful : Rightful S.lib S.baseUrl w.log
  created : SessionsCreated S.loaded w

theorem Live.cons (h : Live n x log) (he : ∀ k, e ≠ .consumed k n) : Live n x (e :: log) := by
  obtain ⟨l₁, l₂, j, rfl, hno⟩ := h
  refine ⟨e :: l₁, l₂, j, rfl, fun k hk => ?_⟩
  obtain hk | hk := List.mem_cons.1 hk
  · exact he k hk.symm
  · exact hno k hk

theorem Earned.suffix (h : Earned i n x log) (hl : log <:+ log') : Earned i n x log' := by
  obtain ⟨l₁, l₂, rfl, hlive⟩ := h
  obtain ⟨l₀, rfl⟩ := hl
  exact ⟨l₀ ++ l₁, l₂, by simp, hlive⟩

theorem Rightful.cons (h : Rightful lib url log) (he : e.spent = none) :
    Rightful lib url (e :: log) := by
  intro l₁ l₂ i proof n sid pc t hs
  cases l₁ with
  | nil => cases hs; cases he
  | cons x l₁ => cases hs; exact h _ _ _ _ _ _ _ _ rfl

theorem SessionsCreated.longer {u : World Login} (h : SessionsCreated s w) (hl : w.log <:+ u.log)
    (hs : u.store.sessions = w.store.sessions) : SessionsCreated s u := by
  intro sid d hd
  rw [hs] at hd
  obtain hd | ⟨i, proof, nonce, pc, now, hm, rfl⟩ := h sid d hd
  · exact .inl hd
  · exact .inr ⟨i, proof, nonce, pc, now, hl.subset hm, rfl⟩

/-- What any request of the login may do while the store is loaded. -/
structure Follows (S : LoginSite) (w w' : World Login) : Prop where
  log : w.log <:+ w'.log
  consistent : Consistent S w → Consistent S w'

theorem Follows.refl (w : World Login) : Follows S w w := ⟨List.suffix_rfl, fun h => h⟩

theorem Follows.trans (h : Follows S w w') (h' : Follows S w' w'') : Follows S w w'' :=
  ⟨h.log.trans h'.log, fun hc => h'.consistent (h.consistent hc)⟩

theorem claimed_not_alphanumeric (nonce : String) : ¬ Alphanumeric ("claimed:" ++ nonce) := by
  intro h
  have hc := h ':' (by simp)
  exact absurd hc (by decide)

/-- Entries under keys that the library would not accept, or that expire, do not matter. -/
theorem Consistent.fewer {w : World Login} (h : Consistent S w) (t : Table Nonce)
    (ht : ∀ n d, Alphanumeric n → t.get n = some d → w.store.nonces.get n = some d) :
    Consistent S ⟨{ w.store with nonces := t }, w.log⟩ where
  prototype := h.prototype
  live n d hn hd := h.live n d hn (ht n d hn hd)
  counted n hn := by
    have := h.counted n hn
    cases hd : t.get n with
    | none => simp only [Option.toList_none, List.length_nil]; omega
    | some d => simpa [ht n d hn hd, hd] using this
  spent := h.spent
  alphanumeric := h.alphanumeric
  rightful := h.rightful
  created := h.created

theorem Consistent.issue {w : World Login} (h : Consistent S w) (i : Nat) (nonce : String)
    (x : Int) :
    Consistent S ⟨w.store.putNonce nonce { expires := x }, .issued i nonce x :: w.log⟩ where
  prototype := h.prototype
  live n d hn hd := by
    have hd : (w.store.nonces.set nonce { expires := x }).get n = some d := hd
    rw [Table.get_set] at hd
    split at hd
    · next he =>
      cases hd
      exact ⟨[], w.log, i, by rw [he]; rfl, fun _ => List.not_mem_nil⟩
    · exact (h.live n d hn hd).cons nofun
  counted n hn := by
    have hc := h.counted n hn
    have hg : (w.store.putNonce nonce { expires := x }).nonces.get n =
      if n = nonce then some { expires := x } else w.store.nonces.get n := Table.get_set ..
    simp only [hg, List.filterMap_cons, Login.taken, Login.issue, List.count_cons]
    by_cases he : n = nonce
    · simp only [he, if_true, Option.toList_some, List.length_singleton, beq_self_eq_true] at hc ⊢
      omega
    · have he' : ¬ nonce = n := fun e => he e.symm
      simp only [he, if_false, beq_iff_eq, he', Nat.add_zero]
      exact hc
  spent := h.spent
  alphanumeric := h.alphanumeric
  rightful := h.rightful.cons rfl
  created := h.created.longer (List.suffix_cons _ _) rfl

theorem Consistent.take {w : World Login} (h : Consistent S w) (i : Nat)
    (hd : w.store.nonces.get nonce = some d) :
    Consistent S ⟨{ w.store with nonces := w.store.nonces.delete nonce },
      .consumed i nonce :: w.log⟩ where
  prototype := h.prototype
  live n d' hn' hd' := by
    have hd' : (w.store.nonces.delete nonce).get n = some d' := hd'
    rw [Table.get_delete] at hd'
    split at hd'
    · cases hd'
    · next he => exact (h.live n d' hn' hd').cons fun k hk => he (by cases hk; rfl)
  counted n hn' := by
    have hc := h.counted n hn'
    have hg : (w.store.nonces.delete nonce).get n =
      if n = nonce then none else w.store.nonces.get n := Table.get_delete ..
    simp only [hg, List.filterMap_cons, Login.taken, Login.issue, List.countP_cons]
    by_cases he : n = nonce
    · simp only [he, hd, if_true, Option.toList_some, Option.toList_none, List.length_singleton,
        List.length_nil, beq_self_eq_true] at hc ⊢
      omega
    · have he' : ¬ nonce = n := fun e => he e.symm
      simp only [he, if_false, beq_iff_eq, he', Nat.add_zero]
      exact hc
  spent y := by
    have := h.spent y
    simp only [List.filterMap_cons, Login.taken, Login.spent, List.count_cons]
    omega
  alphanumeric := h.alphanumeric
  rightful := h.rightful.cons rfl
  created := h.created.longer (List.suffix_cons _ _) rfl

/-- A request that has taken a live nonce, and has made no session of it, may make one. -/
theorem Consistent.session {w : World Login} (h : Consistent S w) (i : Nat)
    (hn : Alphanumeric nonce)
    (hs : (w.log.filterMap Login.spent).count (i, nonce) <
      (w.log.filterMap Login.taken).count (i, nonce))
    (he : Earned i nonce x w.log) (hx : now ≤ x) (hv : S.lib.verify S.baseUrl proof t = .ok pc)
    (hh : S.lib.hostname proof = some nonce) (sid : String) :
    Consistent S ⟨w.store.putSession sid ⟨some pc, now + sessionTtl⟩,
      .session i proof nonce sid pc now :: w.log⟩ where
  prototype := h.prototype
  live n d hn' hd := (h.live n d hn' hd).cons nofun
  counted := h.counted
  spent y := by
    have := h.spent y
    simp only [List.filterMap_cons, Login.taken, Login.spent, List.count_cons]
    by_cases hy : (i, nonce) = y
    · subst hy
      simp only [beq_self_eq_true, if_true]
      omega
    · simp only [beq_iff_eq, hy, if_false]
      exact this
  alphanumeric := List.forall_mem_cons.2 ⟨hn, h.alphanumeric⟩
  rightful := by
    intro l₁ l₂ j proof' n' sid' pc' t' hl
    cases l₁ with
    | nil =>
      cases hl
      exact ⟨⟨t, hv⟩, hh, x, hx, he⟩
    | cons e l₁ =>
      simp only [List.cons_append, List.cons.injEq] at hl
      exact h.rightful l₁ l₂ j proof' n' sid' pc' t' hl.2
  created := by
    intro sid' d hd
    have hd : (w.store.sessions.set sid ⟨some pc, now + sessionTtl⟩).get sid' = some d := hd
    rw [Table.get_set] at hd
    split at hd
    · next hsid =>
      cases hd
      exact .inr ⟨i, proof, nonce, pc, now, hsid ▸ List.mem_cons_self, rfl⟩
    · exact h.created.longer (u := ⟨w.store, _⟩) (List.suffix_cons _ _) rfl sid' d hd

theorem Consistent.oncePerIssue {w : World Login} (h : Consistent S w) : OncePerIssue w.log := by
  intro n
  by_cases hn : Alphanumeric n
  · have hsub : (w.log.filterMap Login.spent).Subperm (w.log.filterMap Login.taken) :=
      List.subperm_ext_iff.2 fun x _ => h.spent x
    have := hsub.countP_le (·.2 == n)
    have := h.counted n hn
    omega
  · rw [List.countP_eq_zero.2]
    · exact Nat.zero_le _
    · intro x hx he
      exact hn (by simpa using (beq_iff_eq.1 he) ▸ h.alphanumeric x hx)

/-- Request `i` has made no session in between. -/
def Untouched (i : Nat) (w w' : World Login) : Prop :=
  ∀ n, (w'.log.filterMap Login.spent).count (i, n) = (w.log.filterMap Login.spent).count (i, n)

def LoginRely (S : LoginSite) (i : Nat) (w w' : World Login) : Prop := Follows S w w' ∧ Untouched i w w'

def LoginGuarantee (S : LoginSite) (i : Nat) (w w' : World Login) : Prop :=
  Follows S w w' ∧ ∀ j, j ≠ i → Untouched j w w'

theorem LoginGuarantee.refl (i : Nat) (w : World Login) : LoginGuarantee S i w w :=
  ⟨.refl w, fun _ _ _ => rfl⟩

theorem LoginGuarantee.silent {w w' : World Login} (hl : w'.log = l ++ w.log)
    (hs : l.filterMap Login.spent = []) (hc : Consistent S w → Consistent S w') :
    LoginGuarantee S i w w' :=
  ⟨⟨hl ▸ List.suffix_append l w.log, hc⟩, fun j _ n => by rw [hl, List.filterMap_append, hs]; rfl⟩

/-- A request that has made no session yet. -/
def Unspent (S : LoginSite) (i : Nat) (w : World Login) : Prop :=
  Consistent S w ∧ ∀ n, (w.log.filterMap Login.spent).count (i, n) = 0

/-- A request that has taken a nonce and made no session of it yet. -/
structure Took (S : LoginSite) (i : Nat) (n : String) (x : Int) (w : World Login) : Prop where
  unspent : Unspent S i w
  taken : 0 < (w.log.filterMap Login.taken).count (i, n)
  earned : Earned i n x w.log

theorem Unspent.rely (h : Unspent S i w) (hr : LoginRely S i w w') : Unspent S i w' :=
  ⟨hr.1.consistent h.1, fun n => (hr.2 n).trans (h.2 n)⟩

theorem Took.rely (h : Took S i n x w) (hr : LoginRely S i w w') : Took S i n x w' where
  unspent := h.unspent.rely hr
  taken := Nat.lt_of_lt_of_le h.taken ((hr.1.log.sublist.filterMap _).count_le _)
  earned := h.earned.suffix hr.1.log

/-- What a request that takes the nonce `n` knows of what it has found. -/
def Finding (S : LoginSite) (i : Nat) (n : String) : Found Nonce → World Login → Prop
  | .own d, w => Took S i n d.expires w
  | .inherited, _ => False
  | .absent, _ => True

theorem Finding.rely (h : Finding S i n f w) (hr : LoginRely S i w w') : Finding S i n f w' := by
  cases f with
  | own d => exact Took.rely h hr
  | inherited => exact h
  | absent => trivial

section Routes

open Async

variable {S : LoginSite} {i : Nat}

theorem silent_sat {f : Store → β × Store} {note : β → List Login} {persists : β → Bool}
    {Q : β × Answer → World Login → World Login → Prop} {E : Fault → World Login → World Login → Prop}
    (hf : ∀ w, LoginGuarantee S i w (w.change f note).2) (h : LoginGuarantee S i w₀ w)
    (hQ : ∀ x a w, Q (x, a) w w) (hE : ∀ w, E .io w w) :
    Sat (LoginRely S i) (LoginGuarantee S i) Q E (awaiting (write f note persists)) w₀ w := by
  refine awaiting_sat (K := fun _ _ => True) (fun _ _ => trivial) ?_ fun x a w _ => hQ x a w
  exact write_sat (fun _ => True) (fun _ _ => True) (fun _ _ => trivial)
    (fun _ _ => trivial) (.refl i) (fun w _ => ⟨hf w, trivial⟩) h trivial
    (fun _ _ _ hg _ => ⟨hg, trivial⟩) fun _ w _ => hE w

theorem putClaim_guarantee (i : Nat) (nonce : String) (d : Nonce) (w : World Login) :
    LoginGuarantee S i w
      (w.change (fun s => ((), s.putNonce ("claimed:" ++ nonce) d)) fun _ => []).2 :=
  .silent (l := []) rfl rfl fun h => h.fewer _ fun n d' hn hd' => by
    have hne : n ≠ "claimed:" ++ nonce := fun e => claimed_not_alphanumeric nonce (e ▸ hn)
    rwa [Table.get_set, if_neg hne] at hd'

theorem gcNonces_guarantee (i : Nat) (now : Int) (w : World Login) :
    LoginGuarantee S i w
      (w.change (fun s => (s.nonces.values.any (·.expires < now), s.gcNonces now)) fun _ => []).2 :=
  .silent (l := []) rfl rfl fun h => h.fewer _ fun n d hn hd => by
    rw [Table.get_deleteAll, Option.filter_eq_some_iff] at hd
    exact hd.1

theorem issue_guarantee (i : Nat) (nonce : String) (x : Int) (w : World Login) :
    LoginGuarantee S i w
      (w.change (fun s => ((), s.putNonce nonce { expires := x })) fun _ => [.issued i nonce x]).2 :=
  .silent (l := [.issued i nonce x]) rfl rfl fun h => h.issue i nonce x

theorem takeNonce_cases (s : Store) (k : String) :
    (∃ d, s.nonces.get k = some d ∧
      s.takeNonce k = (.own d, { s with nonces := s.nonces.delete k })) ∨
    (s.takeNonce k = (.inherited, s) ∧ k ∈ objectPrototype ++ s.prototype) ∨
    s.takeNonce k = (.absent, s) := by
  unfold Store.takeNonce Table.find
  cases s.nonces.get k with
  | some d => exact .inl ⟨d, rfl, rfl⟩
  | none =>
    by_cases hk : k ∈ objectPrototype ++ s.prototype
    · exact .inr (.inl ⟨by simp only [hk, if_true], hk⟩)
    · exact .inr (.inr (by simp only [hk, if_false]))

theorem takeClaim_guarantee (i : Nat) (nonce : String) (w : World Login) :
    LoginGuarantee S i w (w.change (Store.takeNonce ("claimed:" ++ nonce))
      fun n => if n matches .own _ then [] else []).2 := by
  obtain ⟨d, -, he⟩ | ⟨he, -⟩ | he := takeNonce_cases w.store ("claimed:" ++ nonce) <;>
    simp only [World.change, he]
  · refine .silent (l := []) rfl rfl fun h => h.fewer _ fun n d hn hd => ?_
    rw [Table.get_delete] at hd
    split at hd
    · cases hd
    · exact hd
  · exact .refl i w
  · exact .refl i w

theorem take_guarantee (hk : nonce ∉ objectPrototype) (h : Unspent S i w) (hn : Alphanumeric nonce) :
    let r := w.change (Store.takeNonce nonce)
      fun n => if n matches .own _ then [Login.consumed i nonce] else []
    LoginGuarantee S i w r.2 ∧ Finding S i nonce r.1 r.2 := by
  obtain ⟨d, hd, he⟩ | ⟨-, hm⟩ | he := takeNonce_cases w.store nonce
  · simp only [World.change, he]
    have hc := h.1.take i hd
    have hg : LoginGuarantee S i w ⟨{ w.store with nonces := w.store.nonces.delete nonce },
        .consumed i nonce :: w.log⟩ := .silent (l := [.consumed i nonce]) rfl rfl fun _ => hc
    exact ⟨hg, ⟨hc, h.2⟩, by simp [Login.taken], [], w.log, rfl, h.1.live nonce d hn hd⟩
  · rw [h.1.prototype, List.append_nil] at hm
    exact absurd hm hk
  · simp only [World.change, he]
    exact ⟨.refl i w, trivial⟩

theorem session_guarantee (hn : Alphanumeric nonce) (h : Took S i nonce x w) (hx : now ≤ x)
    (hv : S.lib.verify S.baseUrl proof t = .ok pc) (hh : S.lib.hostname proof = some nonce)
    (sid : String) :
    LoginGuarantee S i w (w.change (fun s => ((), s.putSession sid ⟨some pc, now + sessionTtl⟩))
      fun _ => [.session i proof nonce sid pc now]).2 := by
  refine ⟨⟨List.suffix_cons _ _, fun hc => ?_⟩, fun j hj n => ?_⟩
  · have hs := h.unspent.2 nonce
    exact hc.session i hn (hs ▸ h.taken) h.earned hx hv hh sid
  · have hne : (i, nonce) ≠ (j, n) := fun e => hj (congrArg Prod.fst e).symm
    simp [World.change, Login.spent, hne]

/-- Whatever a handler answers or throws, it has kept its guarantee. -/
abbrev Done (S : LoginSite) (i : Nat) (_ : β) (w₀ w : World Login) : Prop :=
  LoginGuarantee S i w₀ w ∧ True

theorem challenge_sat (now : Int) :
    Sat (LoginRely S i) (LoginGuarantee S i) (Done S i) (Done S i) (challenge i now) w w := by
  have hdone : ∀ w, LoginGuarantee S i w w ∧ True := fun w => ⟨.refl i w, trivial⟩
  simp only [challenge, gcNonces, putNonce, sat_bind]
  refine silent_sat (gcNonces_guarantee i now) (.refl i w) (fun x a u => ?_) hdone
  exact silent_sat (issue_guarantee i _ _) (.refl i u) (fun _ _ v => hdone v) hdone

theorem poll_sat (nonce : String) :
    Sat (LoginRely S i) (LoginGuarantee S i) (Done S i) (Done S i) (poll nonce) w w := by
  have hdone : ∀ w, LoginGuarantee S i w w ∧ True := fun w => ⟨.refl i w, trivial⟩
  simp only [poll, takeNonce, sat_bind]
  exact silent_sat (takeClaim_guarantee i nonce) (.refl i w) (fun _ _ v => hdone v) hdone

/-- The session of a request that has taken a live nonce. -/
theorem claim_sat (hn : Alphanumeric nonce) (h : Took S i nonce x w) (hx : a.clock ≤ x)
    (hv : S.lib.verify S.baseUrl proof t = .ok pc) (hh : S.lib.hostname proof = some nonce) :
    Sat (LoginRely S i) (LoginGuarantee S i) (Done S i) (Done S i)
      (callback.claim i proof nonce pc a) w w := by
  have hdone : ∀ w, LoginGuarantee S i w w ∧ True := fun w => ⟨.refl i w, trivial⟩
  simp only [callback.claim, putSession, putNonce, sat_bind]
  refine awaiting_sat (K := fun _ _ => True) (fun _ _ => trivial) ?_ fun _ b u _ => ?_
  · exact write_sat (Took S i nonce x) (fun _ _ => True) (fun h hr => h.rely hr)
      (fun _ _ => trivial) (.refl i) (fun w h => ⟨session_guarantee hn h hx hv hh _, trivial⟩)
      (.refl i w) h (fun _ _ _ hg _ => ⟨hg, trivial⟩) fun _ w _ => hdone w
  · exact silent_sat (putClaim_guarantee i nonce _) (.refl i u) (fun _ _ v => hdone v) hdone

/-- No proof that the library accepts is over a nonce with the name of something that every
object inherits. -/
def Sensible (lib : Auth47) : AuthRequest → Prop
  | .callback (some proof) => ∀ now nym nonce, lib.verifyProof proof now = .ok nym →
      lib.hostname proof = some nonce → nonce ∉ objectPrototype
  | _ => True

theorem verify_ok {lib : Auth47} (h : lib.verify baseUrl proof now = .ok pc) :
    ∃ nym, lib.verifyProof proof now = .ok nym := by
  unfold Auth47.verify at h
  split at h
  · cases h
  · split at h
    · cases h
    · next nym hv => exact ⟨nym, hv⟩

theorem callback_sat (hlib : S.lib.Documented) (hs : Sensible S.lib (.callback body))
    (h : Unspent S i w) :
    Sat (LoginRely S i) (LoginGuarantee S i) (Done S i) (Done S i)
      (callback S.lib S.baseUrl i body) w w := by
  have hdone : ∀ w, LoginGuarantee S i w w ∧ True := fun w => ⟨.refl i w, trivial⟩
  simp only [callback, sat_bind, sat_wait]
  refine ⟨.refl i w, fun t ht a => ?_⟩
  have ht := h.rely ht
  cases body with
  | none => exact hdone t
  | some proof =>
    cases hv : S.lib.verify S.baseUrl proof a.clock with
    | error e =>
      simp only [hv]
      exact hdone t
    | ok pc =>
      obtain ⟨nym, hok⟩ := verify_ok hv
      obtain ⟨nonce, hhost, hn⟩ := hlib proof a.clock nym hok
      have hk := hs a.clock nym nonce hok hhost
      simp only [hv, hhost, Option.getD_some]
      by_cases he : nonce = ""
      · simp only [he, if_true]
        exact hdone t
      · simp only [he, if_false, takeNonce, sat_bind]
        refine awaiting_sat (K := Finding S i nonce) (fun h hr => h.rely hr) ?_ fun f b u hf => ?_
        · exact write_sat (Unspent S i) (Finding S i nonce) (fun h hr => h.rely hr)
            (fun h hr => h.rely hr) (.refl i) (fun w h => take_guarantee hk h hn) (.refl i t) ht
            (fun _ _ _ hg hf => ⟨hg, hf⟩) fun _ w _ => hdone w
        · cases f with
          | inherited => exact hf.elim
          | absent => exact hdone u
          | own d =>
            by_cases hx : d.expires < b.clock
            · simp only [hx, if_true]
              exact hdone u
            · simp only [hx, if_false]
              exact claim_sat hn hf (Int.not_lt.1 hx) hv hhost

theorem handled_sat {p : Action Login Response}
    (h : Sat (LoginRely S i) (LoginGuarantee S i) (Done S i) (Done S i) p w w) :
    Sat (LoginRely S i) (LoginGuarantee S i) (Done S i) (Done S i) (handled p) w w := by
  simp only [handled, sat_tryCatch]
  exact h

end Routes

/-- What the requests of the login rely on and guarantee. -/
def loginContract (S : LoginSite) (hlib : S.lib.Documented) :
    Pool.Contract (authRoute S.lib S.baseUrl) (Sensible S.lib) where
  R := LoginRely S
  G := LoginGuarantee S
  Pre := Unspent S
  Q _ _ _ := True
  E _ _ _ := True
  R_refl i w := ⟨.refl w, fun _ => rfl⟩
  R_trans h h' := ⟨h.1.trans h'.1, fun n => (h'.2 n).trans (h.2 n)⟩
  rely hij h := ⟨h.1, h.2 _ hij.symm⟩
  pre_stable h hr := h.rely hr
  q_stable _ _ := trivial
  e_stable _ _ := trivial
  sound i c w hc h := by
    cases c with
    | challenge now => exact handled_sat (challenge_sat now)
    | callback body => exact handled_sat (callback_sat hlib hc h)
    | poll nonce => exact handled_sat (poll_sat nonce)

/-- The history of a store as it is loaded: its nonces were issued before. -/
def Store.issued (s : Store) : List Login :=
  s.nonces.entries.map fun x => .issued 0 x.1 x.2.expires

theorem Store.spent_issued (s : Store) : s.issued.filterMap Login.spent = [] := by
  simp [Store.issued, List.filterMap_map, Login.spent]

theorem Store.taken_issued (s : Store) : s.issued.filterMap Login.taken = [] := by
  simp [Store.issued, List.filterMap_map, Login.taken]

theorem Store.issue_issued (s : Store) :
    s.issued.filterMap Login.issue = s.nonces.entries.map Prod.fst := by
  rw [Store.issued, List.filterMap_map]
  exact congrFun (List.filterMap_eq_map (f := Prod.fst)) _

theorem Store.consistent_issued (s : Store) (hp : s.prototype = []) :
    Consistent ⟨lib, url, s⟩ ⟨s, s.issued⟩ where
  prototype := hp
  live n d _ hd := by
    obtain ⟨l₁, l₂, hl, -⟩ := List.lookup_eq_some_iff.1 hd
    refine ⟨l₁.map fun x => .issued 0 x.1 x.2.expires, l₂.map fun x => .issued 0 x.1 x.2.expires, 0,
      ?_, by simp⟩
    have hl : s.nonces.entries = l₁ ++ (n, d) :: l₂ := hl
    rw [Store.issued, hl, List.map_append, List.map_cons]
  counted n _ := by
    rw [s.taken_issued, s.issue_issued, List.countP_nil, Nat.zero_add]
    cases hd : s.nonces.get n with
    | none => simp
    | some d =>
      have hm := List.mem_map_of_mem (f := Prod.fst) (Table.mem_of_lookup hd)
      exact List.count_pos_iff.2 hm
  spent x := by simp [s.spent_issued]
  alphanumeric := by simp [s.spent_issued]
  rightful l₁ l₂ i proof n sid pc t hl := by
    have hl : s.issued = l₁ ++ .session i proof n sid pc t :: l₂ := hl
    have hm : Login.session i proof n sid pc t ∈ s.issued :=
      hl ▸ List.mem_append_right _ List.mem_cons_self
    simp [Store.issued] at hm
  created _ _ hd := .inl hd

/-- In whatever order requests of the login arrive and go on, every session of the store that was
not loaded with it was created for a proof that the library accepts, by a request that had taken the
nonce of the proof while it was a live one that this server issued, and no nonce leads to more
sessions than it was issued for. -/
theorem sessions_only_for_issued_challenges (lib : Auth47) (baseUrl : String) (hlib : lib.Documented)
    (s : Store) (hp : s.prototype = []) (moves : List (Move AuthRequest Answer))
    (hs : ∀ c, Move.call c ∈ moves → Sensible lib c) :
    let w := (Pool.run (authRoute lib baseUrl) ⟨⟨s, s.issued⟩, []⟩ moves).shared
    SessionsCreated s w ∧ Rightful lib baseUrl w.log ∧ OncePerIssue w.log := by
  have hstart : (loginContract ⟨lib, baseUrl, s⟩ hlib).Good ⟨⟨s, s.issued⟩, []⟩ :=
    .start _ fun i => ⟨s.consistent_issued hp, fun n => by simp [s.spent_issued]⟩
  have hend := (hstart.run hs).pre
  exact ⟨hend.1.created, hend.1.rightful, hend.1.oncePerIssue⟩

/-- A library that accepts the alphanumeric texts, as proofs of one code over themselves. -/
def Auth47.accepting : Auth47 where
  verifyProof
    | .str nonce, _ => if nonce.toList.all Char.isAlphanum then .ok (some "PM8Taccepted")
        else .error "invalid proof"
    | _, _ => .error "invalid proof"
  resource _ := some "https://dojo"
  hostname
    | .str nonce => some nonce
    | _ => none
  sameResource a b := a == b

theorem Auth47.accepting_documented : Auth47.accepting.Documented := by
  intro proof now nym h
  cases proof with
  | str nonce =>
    refine ⟨nonce, rfl, ?_⟩
    simp only [accepting] at h
    split at h
    · next ha => exact List.all_eq_true.1 ha
    · cases h
  | _ => cases h

/-- A challenge, its callback and its poll, and a second callback with the same proof. -/
def loginMoves : List (Move AuthRequest Answer) :=
  [.call (.challenge 0)] ++ List.replicate 8 (.resume 0 {}) ++
  [.call (.callback (some (.str "00000000000000000000000000000000"))),
    .call (.callback (some (.str "00000000000000000000000000000000")))] ++
  List.replicate 20 (.resume 1 { clock := 1000 }) ++ List.replicate 20 (.resume 2 { clock := 2000 })

theorem sessions_only_for_issued_challenges_replayed :
    let w := (Pool.run (authRoute .accepting "https://dojo") ⟨⟨{}, Store.issued {}⟩, []⟩
      loginMoves).shared
    (SessionsCreated {} w ∧ Rightful .accepting "https://dojo" w.log ∧ OncePerIssue w.log) ∧
      w.log.filterMap Login.spent = [(1, "00000000000000000000000000000000")] ∧
      w.store.sessions.entries.map Prod.snd = [⟨some "PM8Taccepted", 1000 + sessionTtl⟩] :=
  ⟨sessions_only_for_issued_challenges .accepting "https://dojo" Auth47.accepting_documented {} rfl
    loginMoves (by
      intro c hc
      simp only [loginMoves, List.mem_append, List.mem_cons, List.mem_replicate, reduceCtorEq,
        Move.call.injEq, and_false, or_false, List.not_mem_nil] at hc
      obtain rfl | rfl | rfl := hc
      · trivial
      all_goals
        intro now nym nonce _ hh
        cases hh
        decide), by decide +kernel, by decide +kernel⟩

/-- A proof over the name of something that every object inherits makes a session by itself. -/
theorem inherited_nonce_makes_session : ¬ ∀ (lib : Auth47) (baseUrl : String), lib.Documented →
    ∀ (s : Store), s.prototype = [] → ∀ moves : List (Move AuthRequest Answer),
      let w := (Pool.run (authRoute lib baseUrl) ⟨⟨s, s.issued⟩, []⟩ moves).shared
      SessionsCreated s w ∧ Rightful lib baseUrl w.log ∧ OncePerIssue w.log := by
  intro h
  have hw := (h .accepting "https://dojo" Auth47.accepting_documented {} rfl
    (.call (.callback (some (.str "constructor"))) :: List.replicate 20 (.resume 0 {}))).2.2
    "constructor"
  revert hw
  decide +kernel

end Mise.Server
