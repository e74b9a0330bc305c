import Mise.Server.Protocol

set_option autoImplicit true

namespace Mise.Server

open Js Async

/-- What a request knows when its handler answers: `F`, where the answer is 200. -/
def Settles (s : Store) (g : Gates) (i : Nat) (F : List Event → Prop) (r : Response)
    (w₀ w : World Event) : Prop :=
  At s g i 4 (fun l => r.code = 200 → F l) w₀ w

section Handlers

variable {s : Store} {id : String} {rec : StoreRecord} {actor : Actor} {i n : Nat}
  {P F : List Event → Prop} {w₀ w : World Event} {g : Gates}

theorem At.settle (h : At s g i n P w₀ w) (hn : n ≤ 4) (hF : Persistent s F) (hPF : P w.log → F w.log)
    (r : Response) : Settles s g i F r w₀ w :=
  h.weaken hn (fun l₁ l₂ hl h hr => hF l₁ l₂ hl (h hr)) fun hP _ => hPF hP

theorem At.refuse (h : At s g i n P w₀ w) (hn : n ≤ 4) {code : Nat} (hc : code ≠ 200)
    {error : Option String} : Settles s g i F ⟨code, error⟩ w₀ w :=
  h.weaken hn (fun _ _ _ _ h => absurd h hc) fun _ h => absurd h hc

theorem Persistent.fulfilled (s : Store) (g : Gates) (i : Nat) (q : Request) :
    Persistent s (Fulfilled g i q) := fun l₁ _ _ h => h.longer l₁

theorem fulfilled_wrote (hd : q.route.deletes = false) (h : ∃ rec, q.Posts g rec ∧ Wrote i rec l) :
    Fulfilled g i q l :=
  ⟨fun _ => h, fun hq => by simp [hd] at hq⟩

theorem fulfilled_of_cleared (hp : Route.posts route = false)
    (h : ∃ id, (∀ route sid, (Request.mk route sid (some body)).target = some id) ∧
      .cleared i id ∈ l) : Fulfilled g i ⟨route, sid, some body⟩ l := by
  obtain ⟨id, ht, hid⟩ := h
  exact ⟨fun hq => by simp [hp] at hq, fun _ => ⟨id, ht route sid, hid⟩⟩

theorem fulfilled_else (hp : q.route.posts = false) (hd : q.route.deletes = false) :
    Fulfilled g i q l :=
  ⟨fun hq => by simp [hp] at hq, fun hq => by simp [hd] at hq⟩

/-- What is read of a request is its body, and it is refused with another answer than 200. -/
def Read (body : Option Json) : Except Response Json → Prop
  | .ok b => body = some b
  | .error r => r.code ≠ 200

theorem refused_invalidJson : invalidJson.code ≠ 200 := by decide

theorem refused_unauthenticated : unauthenticated.code ≠ 200 := by decide

theorem At.adminFrom (h : At s g i n P w₀ w) (hn : n ≤ 4) (sid : String) :
    Sat (ServeRely s g i) (ServeGuarantee s g i)
      (fun x => At s g i n fun l => P l ∧ ∀ r, x = some r → r.code ≠ 200) (Ends s g i)
      (adminFrom g sid) w₀ w := by
  have hP (x : Option Response) : Persistent s fun _ => ∀ r, x = some r → r.code ≠ 200 :=
    fun _ _ _ h => h
  unfold Server.adminFrom
  refine (awaits (h.sessionFrom hn sid)).seq fun x t₀ t ht => ?_
  obtain ⟨x, a⟩ := x
  cases x with
  | none =>
    exact ht.learn (hP (some unauthenticated)) fun r hr => by cases hr; exact refused_unauthenticated
  | some pc =>
    dsimp only
    split
    · exact ht.learn (hP none) fun r hr => by cases hr
    · exact ht.learn (hP (some ⟨403, some "not authorised"⟩)) fun r hr => by cases hr; decide

theorem At.adminBody (h : At s g i n P w₀ w) (hn : n ≤ 4) (sid : String) (body : Option Json) :
    Sat (ServeRely s g i) (ServeGuarantee s g i) (fun x w₀ w => Read body x ∧ At s g i n P w₀ w)
      (Ends s g i) (adminBody g sid body) w₀ w := by
  unfold Server.adminBody
  refine (awaits (h.adminFrom hn sid)).seq fun x t₀ t ht => ?_
  obtain ⟨x, a⟩ := x
  cases x with
  | some r => exact ⟨ht.known.2 r rfl, ht.weaken (Nat.le_refl n) h.persistent And.left⟩
  | none =>
    have ht : At s g i n P t₀ t := ht.weaken (Nat.le_refl n) h.persistent And.left
    refine ht.wait.seq fun a u₀ u hu => ?_
    cases body with
    | none => exact ⟨refused_invalidJson, hu⟩
    | some body => exact ⟨rfl, hu⟩

theorem At.operatorBody (h : At s g i n P w₀ w) (hn : n ≤ 4) (sid : String) (body : Option Json) :
    Sat (ServeRely s g i) (ServeGuarantee s g i)
      (fun x w₀ w => Read body (x.map Prod.snd) ∧ At s g i n P w₀ w) (Ends s g i)
      (operatorBody sid body) w₀ w := by
  unfold Server.operatorBody
  refine (awaits (h.sessionFrom hn sid)).seq fun x t₀ t ht => ?_
  obtain ⟨x, a⟩ := x
  cases x with
  | none => exact ⟨refused_unauthenticated, ht⟩
  | some pc =>
    refine ht.wait.seq fun a u₀ u hu => ?_
    cases body with
    | none => exact ⟨refused_invalidJson, hu⟩
    | some body => exact ⟨rfl, hu⟩

theorem At.givenName (h : At s g i n P w₀ w) (hn : n ≤ 4) (body : Json) :
    Sat (ServeRely s g i) (ServeGuarantee s g i)
      (fun x w₀ w => nameOf body = .ok x ∧ At s g i n P w₀ w) (Ends s g i)
      (givenName body) w₀ w := by
  unfold Server.givenName
  refine (h.ofExcept hn _).seq fun v _ _ h => ?_
  obtain ⟨hv, h⟩ := h
  refine (h.ofExcept hn _).seq fun t _ _ h => ⟨?_, h.2⟩
  exact nameOf_of_parts hv h.1

theorem unique_codes {old : StoreRecord} (hn : Normal old)
    (hmay : (Actor.operator pc).mayChange old.codes) :
    unique (old.codes ++ pc.toList) = old.codes := by
  obtain ⟨-, l, hl, hnodup, -⟩ := hn
  obtain ⟨c, hc, rfl⟩ := hmay
  have hcodes : old.codes = l := by rw [StoreRecord.codes, hl, Option.getD_some]
  rw [hcodes] at hc ⊢
  have hmem : c ∈ l.reverse := List.mem_reverse.2 hc
  rw [unique, Option.toList_some, List.reverse_append, List.reverse_singleton,
    List.singleton_append, List.dedup_cons_of_mem hmem, (List.nodup_reverse.2 hnodup).dedup,
    List.reverse_reverse]

theorem normalise_codes {old : StoreRecord} (hn : Normal old)
    (hr : rec.paymentCodes = some old.codes) : (normaliseSubmission rec).codes = old.codes := by
  obtain ⟨-, l, hl, hnodup, hne⟩ := hn
  have hcodes : old.codes = l := by rw [StoreRecord.codes, hl, Option.getD_some]
  have hf : l.filter (· ≠ "") = l := List.filter_eq_self.2 fun c hc => by
    have hc : c ≠ "" := fun e => hne (e ▸ hc)
    simpa using hc
  rw [hcodes] at hr ⊢
  simp only [normaliseSubmission, StoreRecord.codes, StoreRecord.allCodes, hr, Option.getD_some, hf,
    unique_of_nodup hnodup]

/-- What a submission knows of the record that it updates, if it does. -/
def Updates (s : Store) (i : Nat) (pc : Option String) (id : String) (purpose : Purpose)
    (existing : Option Nat) (l : List Event) : Prop :=
  match existing with
  | none => purpose = .create
  | some r => ∃ cs, Held s i id cs r l ∧ (Actor.operator pc).mayChange cs

theorem Persistent.updates (s : Store) (i : Nat) (pc : Option String) (id : String)
    (purpose : Purpose) (existing : Option Nat) :
    Persistent s (Updates s i pc id purpose existing) := by
  intro l₁ l₂ hl h
  cases existing with
  | none => exact h
  | some r =>
    obtain ⟨cs, hheld, hmay⟩ := h
    exact ⟨cs, hheld.mono hl, hmay⟩

/-- What the gates have let through is what the body posts. -/
structure Passed (g : Gates) (body : Json) (network : Network) (name : String) (payload : Json)
    (block : String) : Prop where
  network : body.get "network" = .ok (some (.str network.text))
  name : nameOf body = .ok name
  details : ∀ x y, payload.get "pairing" = .ok x → payload.get "explorer" = .ok y →
    g.posted body = .ok (some ⟨⟨x, y⟩, orNull block⟩)

theorem At.submitStore (hs : s.WellFormed) {purpose : Purpose} (hp : purpose.submits = true)
    (hb : Passed g body network name payload block)
    (h : At s g i 1 (Updates s i pc id purpose existing) w₀ w) :
    Sat (ServeRely s g i) (ServeGuarantee s g i)
      (Settles s g i (Fulfilled g i ⟨.submit, sid, some body⟩)) (Ends s g i)
      (submit.store g i pc body network name payload block check now id purpose existing) w₀ w := by
  unfold submit.store
  refine h.wait.seq fun a t₀ t h => ?_
  simp only [sat_bind (p := Async.read), sat_read]
  have hle : 1 ≤ 4 := by omega
  refine h.eval hle fun jurisdiction _ => ?_
  refine h.eval hle fun jurisdictionText _ => ?_
  refine h.eval hle fun hardware _ => ?_
  refine h.eval hle fun hardwareText _ => ?_
  refine h.eval hle fun pairing hpairing => ?_
  refine h.eval hle fun explorer hexplorer => ?_
  have hposted := hb.details pairing explorer hpairing hexplorer
  rw [sat_bind, makeObject, sat_updateGet]
  cases existing with
  | none =>
    refine (awaits (h.putNew hp (.inl h.known))).seq fun _ _ _ h => h.settle (by omega)
      (.fulfilled s g i _) (fun hwrote => fulfilled_wrote rfl ⟨_, ?_, hwrote⟩) _
    exact ⟨body, rfl, hposted, hb.network, name, hb.name, rfl⟩
  | some r =>
    obtain ⟨cs, hheld, hmay⟩ := h.known
    have hheld' := hheld
    obtain ⟨-, rec, hr, -, rfl⟩ := hheld'
    have ho := (h.tracks.objects r).trans hr
    have hn := h.tracks.normal hs ho
    have h := h.weaken (Nat.le_refl 1) (.held s i id rec.codes r) fun _ => hheld
    refine (awaits (h.putNew hp (.inr ⟨r, fun l hl => ?_⟩))).seq fun _ _ _ h => h.settle (by omega)
      (.fulfilled s g i _) (fun hwrote => fulfilled_wrote rfl ⟨_, ?_, hwrote⟩) _
    · rw [normalise_codes hn]
      · exact ⟨hl, hmay⟩
      · simp only [Option.bind_some, ho, Option.elim_some, unique_codes hn hmay]
    · exact ⟨body, rfl, hposted, hb.network, name, hb.name, rfl⟩

theorem At.submitProbed (hs : s.WellFormed) (hb : Passed g body network name payload block)
    (h : At s g i 0 P w₀ w) :
    Sat (ServeRely s g i) (ServeGuarantee s g i)
      (Settles s g i (Fulfilled g i ⟨.submit, sid, some body⟩)) (Ends s g i)
      (submit.probed g i pc body network name slug payload block) w₀ w := by
  unfold submit.probed
  refine h.wait.seq fun a t₀ t h => ?_
  dsimp only
  split
  · refine (awaits (h.ownedRecordFor hs network slug pc)).seq fun x u₀ u h => ?_
    obtain ⟨existing, b⟩ := x
    cases existing with
    | some r =>
      refine (h.readObject (by omega) r).seq fun old v₀ v h => ?_
      obtain ⟨ho, h⟩ := h
      obtain ⟨id, cs, hheld, hmay⟩ := h.known.2 r rfl
      have hid : old.id = id := by
        obtain ⟨-, rec, hr, hid, -⟩ := hheld
        have he := ho.symm.trans ((h.tracks.objects r).trans hr)
        cases he
        exact hid
      subst hid
      exact At.submitStore hs rfl hb (h.weaken (Nat.le_refl 1)
        (.updates s i pc old.id .update (some r)) fun _ => ⟨cs, hheld, hmay⟩)
    | none =>
      refine h.eval (by omega) fun declared _ => ?_
      cases g.judgeVersion a.probe.detectedVersion declared with
      | some e => exact h.refuse (by omega) (by decide)
      | none => exact At.submitStore hs rfl hb (h.weaken (Nat.le_refl 1)
          (.updates s i pc _ .create none) fun _ => rfl)
  · exact h.refuse (by omega) (by decide)

theorem At.submitSigned (hs : s.WellFormed) (hnet : body.get "network" = .ok (some (.str network.text)))
    (hname : nameOf body = .ok name) (h : At s g i 0 P w₀ w) :
    Sat (ServeRely s g i) (ServeGuarantee s g i)
      (Settles s g i (Fulfilled g i ⟨.submit, sid, some body⟩)) (Ends s g i)
      (submit.signed g i pc body network name slug) w₀ w := by
  unfold submit.signed
  refine h.eval (by omega) fun payload hpayload => ?_
  refine h.eval (by omega) fun err _ => ?_
  cases err with
  | some e => exact h.refuse (by omega) (by decide)
  | none =>
    refine h.eval (by omega) fun block hblock => ?_
    cases block with
    | none => exact h.refuse (by omega) (by decide)
    | some block =>
      dsimp only
      split
      · exact h.refuse (by omega) (by decide)
      · exact At.submitProbed hs ⟨hnet, hname, fun x y hx hy =>
          posted_of_parts hpayload hblock hx hy⟩ h

theorem At.submitNamed (hs : s.WellFormed) (hnet : body.get "network" = .ok (some (.str network.text)))
    (h : At s g i 0 P w₀ w) :
    Sat (ServeRely s g i) (ServeGuarantee s g i)
      (Settles s g i (Fulfilled g i ⟨.submit, sid, some body⟩)) (Ends s g i)
      (submit.named g i pc body network) w₀ w := by
  unfold submit.named
  refine (h.givenName (by omega) body).seq fun name t₀ t h => ?_
  have hname := h.1
  replace h := h.2
  generalize slugify name = slug
  dsimp only
  split
  · exact h.refuse (by omega) (by decide)
  · refine (awaits (h.nameConflict network slug pc)).seq fun x u₀ u h => ?_
    obtain ⟨conflict, a⟩ := x
    cases conflict with
    | some why => exact h.refuse (by omega) (by decide)
    | none => exact At.submitSigned hs hnet hname h

theorem At.submit (hs : s.WellFormed) (h : At s g i 0 P w₀ w) (sid : String) (body : Option Json) :
    Sat (ServeRely s g i) (ServeGuarantee s g i)
      (Settles s g i (Fulfilled g i ⟨.submit, sid, body⟩)) (Ends s g i)
      (submit g i sid body) w₀ w := by
  unfold Server.submit
  refine (h.operatorBody (by omega) sid body).seq fun x t₀ t h => ?_
  obtain ⟨hread, h⟩ := h
  cases x with
  | error r => exact h.refuse (by omega) hread
  | ok x =>
    obtain ⟨pc, posted⟩ := x
    obtain rfl : body = some posted := hread
    refine h.eval (by omega) fun network hnet => ?_
    split
    · exact At.submitNamed hs hnet h
    · exact At.submitNamed hs hnet h
    · exact h.refuse (by omega) (by decide)

theorem At.republish (hs : s.WellFormed) (h : At s g i n P w₀ w) (hn : n ≤ 4) (r : Nat) :
    Sat (ServeRely s g i) (ServeGuarantee s g i) (Ends s g i) (Ends s g i)
      (applyEdit.republish i r) w₀ w := by
  unfold applyEdit.republish
  refine (h.readObject hn r).seq fun rec t₀ t h => ?_
  split
  · exact (awaits (h.2.tryRebuild hs hn)).seq fun _ _ _ h => h.ends (Nat.le_refl 4) _
  · exact h.2.ends hn _

/-- Changes of a held record, and the write of it, without new pairing details. -/
theorem At.keep (hs : s.WellFormed) (h : At s g i n P w₀ w) (hn : n ≤ 2)
    (hm : ∀ l, P l → Mine s i actor r l) :
    Sat (ServeRely s g i) (ServeGuarantee s g i) (fun _ => At s g i 3 P) (Ends s g i)
      (Server.putSubmission i actor .keep r) w₀ w :=
  ((h.later hn).putSubmission hs rfl hm fun _ _ hk => absurd rfl hk).mono
    (fun _ _ _ hx => hx.weaken (Nat.le_refl 3) h.persistent And.left) fun _ _ _ he => he

theorem At.applyEdit (hs : s.WellFormed) (h : At s g i 1 P w₀ w)
    (hm : ∀ l, P l → Mine s i actor r l) (body : Json) :
    Sat (ServeRely s g i) (ServeGuarantee s g i) (Ends s g i) (Ends s g i)
      (applyEdit i actor r body) w₀ w := by
  unfold Server.applyEdit
  refine (h.givenName (by omega) body).seq fun name t₀ t h => ?_
  replace h := h.2
  generalize slugify name = slug
  dsimp only
  split
  · exact h.ends (by omega) _
  · refine (h.readObject (by omega) r).seq fun old u₀ u h => ?_
    refine (awaits (h.2.slugTakenByOther old.network slug old.id)).seq
      fun x v₀ v h => ?_
    obtain ⟨taken, a⟩ := x
    cases taken with
    | some why => exact h.ends (by omega) _
    | none =>
      have h := h.change (f := fun rec => { rec with name := some name }) hs (by omega)
        (hm _ h.known) ⟨fun _ => rfl, fun _ => rfl, fun _ => rfl⟩ fun _ => rfl
      rw [sat_bind, sat_update]
      refine h.eval (by omega) fun _ _ => ?_
      refine h.eval (by omega) fun hardware _ => ?_
      generalize orNull (slice 120 (trim hardware)) = hardware
      have h := h.change (f := fun rec => { rec with hardware, updatedAt := .at a.clock }) hs
        (by omega) (hm _ h.known) ⟨fun _ => rfl, fun _ => rfl, fun _ => rfl⟩ fun _ => rfl
      rw [sat_bind, sat_update]
      exact (awaits (At.keep hs h (Nat.le_refl 2) hm)).seq fun _ _ _ h =>
        At.republish hs h (by omega) r

theorem At.edit (hs : s.WellFormed) (h : At s g i 0 P w₀ w) (sid : String) (body : Option Json) :
    Sat (ServeRely s g i) (ServeGuarantee s g i) (Ends s g i) (Ends s g i) (edit i sid body) w₀ w := by
  unfold Server.edit
  refine (h.operatorBody (by omega) sid body).seq fun x t₀ t h => ?_
  replace h := h.2
  cases x with
  | error r => exact h.ends (by omega) _
  | ok x =>
    obtain ⟨pc, body⟩ := x
    refine (h.ownedSubmission hs pc body).seq fun x u₀ u h => ?_
    obtain ⟨target, a⟩ := x
    cases target with
    | none => exact h.ends (by omega) _
    | some r =>
      exact (awaits (m := fun _ => 4) (P := fun _ _ => True)
        (At.applyEdit hs h (fun l hl => (hl.2 r rfl).mine) body)).seq fun _ _ _ h => h

theorem At.pairProbed (hs : s.WellFormed) (h : At s g i 1 P w₀ w)
    (hm : ∀ l, P l → Target s i (.operator pc) body r l)
    (hd : ∀ x y, payload.get "pairing" = .ok x → payload.get "explorer" = .ok y →
      g.posted body = .ok (some ⟨⟨x, y⟩, orNull block⟩)) :
    Sat (ServeRely s g i) (ServeGuarantee s g i)
      (Settles s g i (Fulfilled g i ⟨.pairing, sid, some body⟩)) (Ends s g i)
      (pairing.probed i pc r payload block) w₀ w := by
  unfold pairing.probed
  refine h.wait.seq fun a t₀ t h₁ => ?_
  dsimp only
  split
  · refine h₁.eval (by omega) fun pairing hpairing => ?_
    refine h₁.eval (by omega) fun explorer hexplorer => ?_
    have hposted := hd pairing explorer hpairing hexplorer
    generalize orNull block = signed at hposted ⊢
    obtain ⟨v, k, cs, hv, hk, hheld, -⟩ := hm _ h₁.known
    obtain ⟨old, hr, h⟩ := h₁.pair (f := fun rec => { rec with
        payload := ⟨pairing, explorer⟩, signed, lastProbe := some a.probe,
        updatedAt := .at a.clock }) hs (hm _ h₁.known).mine ⟨fun _ => rfl, fun _ => rfl, fun _ => rfl⟩
    rw [sat_bind, sat_update]
    refine (awaits (h.putSubmission hs rfl (fun l hl => (hm l hl.1).mine) fun l hl _ =>
      ⟨_, hl.2⟩)).seq fun _ u₀ u h => ?_
    have hid := hheld.id_eq h₁.tracks.toTracks hr
    have h := h.weaken (Nat.le_refl 3) (.wrote s i _) fun hl => hl.2.wrote nofun fun l hl => by
      obtain ⟨v', k', cs', hv', hk', hheld', -⟩ := hm l hl.1
      cases hv.symm.trans hv'
      cases hk.symm.trans hk'
      exact ⟨⟨cs', hid ▸ hheld'.2⟩, hl.2⟩
    have hrepublish := h.framed (m := fun _ => 4) (D := fun _ _ => True)
      (At.republish hs h.here (by omega) r)
    refine hrepublish.mono (fun _ _ _ h => h.settle (Nat.le_refl 4) (.fulfilled s g i _)
      (fun hl => fulfilled_wrote rfl ⟨_, ?_, hl.2⟩) _) fun _ _ _ he => he
    exact ⟨body, rfl, hposted, target_of_get hv (hid ▸ hk)⟩
  · exact h₁.refuse (by omega) (by decide)

theorem At.pairing (hs : s.WellFormed) (h : At s g i 0 P w₀ w) (sid : String) (body : Option Json) :
    Sat (ServeRely s g i) (ServeGuarantee s g i)
      (Settles s g i (Fulfilled g i ⟨.pairing, sid, body⟩)) (Ends s g i)
      (pairing g i sid body) w₀ w := by
  unfold Server.pairing
  refine (h.operatorBody (by omega) sid body).seq fun x t₀ t h => ?_
  obtain ⟨hread, h⟩ := h
  cases x with
  | error r => exact h.refuse (by omega) hread
  | ok x =>
    obtain ⟨pc, posted⟩ := x
    obtain rfl : body = some posted := hread
    refine (h.ownedSubmission hs pc posted).seq fun x u₀ u h => ?_
    obtain ⟨target, a⟩ := x
    cases target with
    | none => exact h.refuse (by omega) (by decide)
    | some r =>
      have hm : ∀ l, (P l ∧ ∀ q, some r = some q → Target s i (.operator pc) posted q l) →
          Target s i (.operator pc) posted r l := fun l hl => hl.2 r rfl
      dsimp only
      unfold pairing.verified
      refine (h.readObject (by omega) r).seq fun rec v₀ v h => ?_
      replace h := h.2
      refine h.eval (by omega) fun payload hpayload => ?_
      refine h.eval (by omega) fun err _ => ?_
      cases err with
      | some e => exact h.refuse (by omega) (by decide)
      | none =>
        refine h.eval (by omega) fun block hblock => ?_
        cases block with
        | none => exact h.refuse (by omega) (by decide)
        | some block =>
          dsimp only
          split
          · exact h.refuse (by omega) (by decide)
          · exact At.pairProbed hs h hm fun x y hx hy => posted_of_parts hpayload hblock hx hy

theorem At.deleteTarget (h : At s g i n P w₀ w) (hn : n ≤ 2) (body : Json)
    (hm : ∀ v k, body.get "id" = .ok v → propertyKey v = .ok k → ∀ l, P l →
      actor = .maintainer ∨ ∃ r cs, Held s i k cs r l ∧ actor.mayChange cs) :
    Sat (ServeRely s g i) (ServeGuarantee s g i)
      (fun _ => At s g i 3 fun l => ∃ k, (∀ route sid, (Request.mk route sid (some body)).target = some k) ∧
        .cleared i k ∈ l) (Ends s g i)
      (do Server.deleteSubmission i actor (← Server.ofExcept (body.get "id"))) w₀ w := by
  refine h.eval (by omega) fun v hv => ?_
  refine (h.deleteSubmission hn v fun k hk => hm v k hv hk).mono (fun _ _ _ hx => ?_) fun _ _ _ he => he
  refine hx.weaken (Nat.le_refl 3) ?_ fun hl => ?_
  · intro l₁ l₂ _ hl
    obtain ⟨k, hk, hcleared⟩ := hl
    exact ⟨k, hk, List.mem_append_right _ hcleared⟩
  · obtain ⟨-, k, hk, hcleared⟩ := hl
    exact ⟨k, fun _ _ => target_of_get hv hk, hcleared⟩

theorem At.delete (hs : s.WellFormed) (h : At s g i 0 P w₀ w) (sid : String) (body : Option Json) :
    Sat (ServeRely s g i) (ServeGuarantee s g i)
      (Settles s g i (Fulfilled g i ⟨.delete, sid, body⟩)) (Ends s g i) (delete i sid body) w₀ w := by
  unfold Server.delete
  refine (h.operatorBody (by omega) sid body).seq fun x t₀ t h => ?_
  obtain ⟨hread, h⟩ := h
  cases x with
  | error r => exact h.refuse (by omega) hread
  | ok x =>
    obtain ⟨pc, posted⟩ := x
    obtain rfl : body = some posted := hread
    refine (h.ownedSubmission hs pc posted).seq fun x u₀ u h => ?_
    obtain ⟨target, a⟩ := x
    cases target with
    | none => exact h.refuse (by omega) (by decide)
    | some r =>
      refine (awaits (h.deleteTarget (by omega) posted fun v k hv hk l hl => .inr ?_)).seq
        fun _ _ _ h => h.settle (by omega) (.fulfilled s g i _) (fulfilled_of_cleared rfl) _
      obtain ⟨v', k', cs, hv', hk', hheld, hmay⟩ := hl.2 r rfl
      cases hv.symm.trans hv'
      cases hk.symm.trans hk'
      exact ⟨r, cs, hheld, hmay⟩

theorem At.adminEdit (hs : s.WellFormed) (h : At s g i 0 P w₀ w) (sid : String) (body : Option Json) :
    Sat (ServeRely s g i) (ServeGuarantee s g i) (Ends s g i) (Ends s g i)
      (adminEdit g i sid body) w₀ w := by
  unfold Server.adminEdit
  refine (h.adminBody (by omega) sid body).seq fun x t₀ t h => ?_
  replace h := h.2
  cases x with
  | error r => exact h.ends (by omega) _
  | ok body =>
    refine (awaits (h.getTarget hs body)).seq fun x u₀ u h => ?_
    obtain ⟨found, a⟩ := x
    cases found with
    | absent => exact h.ends (by omega) _
    | inherited =>
      refine (h.givenName (by omega) body).seq fun name v₀ v h => ?_
      replace h := h.2
      generalize slugify name = slug
      split
      · exact h.ends (by omega) _
      · exact h.ends (by omega) _
    | own r =>
      exact (awaits (m := fun _ => 4) (P := fun _ _ => True)
        (At.applyEdit hs h (fun l hl => (hl.2 r rfl).mine) body)).seq fun _ _ _ h => h

theorem At.setPaynym (hs : s.WellFormed) (h : At s g i n P w₀ w) (hn : n ≤ 2)
    (hm : ∀ l, P l → Mine s i .maintainer r l) (nym : String) :
    At s g i 2 P w₀ (w.assign r (.changed i .maintainer r) fun rec => { rec with paynym := some nym }) :=
  h.change hs hn (hm _ h.known) ⟨fun _ => rfl, fun _ => rfl, fun _ => rfl⟩ fun _ => rfl

theorem At.approvePaynym (hs : s.WellFormed) (h : At s g i 2 P w₀ w)
    (hm : ∀ l, P l → Mine s i .maintainer r l) (given : Option Json) :
    Sat (ServeRely s g i) (ServeGuarantee s g i) (fun _ => At s g i 2 P) (Ends s g i)
      (approve.paynym i r given) w₀ w := by
  unfold approve.paynym
  split
  · split
    · exact At.setPaynym hs h (by omega) hm _
    · exact h.ends (by omega) _
  · refine (h.readObject (by omega) r).seq fun rec t₀ t h => ?_
    split
    · refine h.2.wait.seq fun a u₀ u h => ?_
      split
      · exact At.setPaynym hs h (by omega) hm _
      · exact h
    · exact h.2

theorem At.approve (hs : s.WellFormed) (h : At s g i 0 P w₀ w) (sid : String) (body : Option Json) :
    Sat (ServeRely s g i) (ServeGuarantee s g i) (Ends s g i) (Ends s g i)
      (approve g i sid body) w₀ w := by
  unfold Server.approve
  refine (h.adminBody (by omega) sid body).seq fun x t₀ t h => ?_
  replace h := h.2
  cases x with
  | error r => exact h.ends (by omega) _
  | ok body =>
    refine (h.foundSubmission hs body).seq fun x u₀ u h => ?_
    obtain ⟨found, a⟩ := x
    cases found with
    | none => exact h.ends (by omega) _
    | some r =>
      have hm : ∀ l, (P l ∧ ∀ q, some r = some q → Target s i .maintainer body q l) →
          Mine s i .maintainer r l := fun l hl => (hl.2 r rfl).mine
      have h := h.change (f := fun rec => { rec with status := .approved, updatedAt := .at a.clock })
        hs (by omega) (hm _ h.known) ⟨fun _ => rfl, fun _ => rfl, fun _ => rfl⟩ fun _ => rfl
      dsimp only
      rw [sat_bind, sat_update]
      refine h.eval (by omega) fun given _ => ?_
      refine (At.approvePaynym hs h hm given).seq fun _ _ _ h => ?_
      refine (awaits (At.keep hs h (Nat.le_refl 2) hm)).seq fun _ _ _ h => ?_
      exact (awaits (h.tryRebuild hs (by omega))).seq fun _ _ _ h => h.ends (by omega) _

theorem At.reject (hs : s.WellFormed) (h : At s g i 0 P w₀ w) (sid : String) (body : Option Json) :
    Sat (ServeRely s g i) (ServeGuarantee s g i) (Ends s g i) (Ends s g i)
      (reject g i sid body) w₀ w := by
  unfold Server.reject
  refine (h.adminBody (by omega) sid body).seq fun x t₀ t h => ?_
  replace h := h.2
  cases x with
  | error r => exact h.ends (by omega) _
  | ok body =>
    refine (h.foundSubmission hs body).seq fun x u₀ u h => ?_
    obtain ⟨found, a⟩ := x
    cases found with
    | none => exact h.ends (by omega) _
    | some r =>
      have hm : ∀ l, (P l ∧ ∀ q, some r = some q → Target s i .maintainer body q l) →
          Mine s i .maintainer r l := fun l hl => (hl.2 r rfl).mine
      have h := h.change (f := fun rec => { rec with status := .rejected, updatedAt := .at a.clock })
        hs (by omega) (hm _ h.known) ⟨fun _ => rfl, fun _ => rfl, fun _ => rfl⟩ fun _ => rfl
      dsimp only
      rw [sat_bind, sat_update]
      refine (awaits (At.keep hs h (Nat.le_refl 2) hm)).seq fun _ _ _ h => ?_
      exact (awaits (h.tryRebuild hs (by omega))).seq fun _ _ _ h => h.ends (by omega) _

theorem At.remove (hs : s.WellFormed) (h : At s g i 0 P w₀ w) (sid : String) (body : Option Json) :
    Sat (ServeRely s g i) (ServeGuarantee s g i)
      (Settles s g i (Fulfilled g i ⟨.remove, sid, body⟩)) (Ends s g i)
      (remove g i sid body) w₀ w := by
  unfold Server.remove
  refine (h.adminBody (by omega) sid body).seq fun x t₀ t h => ?_
  obtain ⟨hread, h⟩ := h
  cases x with
  | error r => exact h.refuse (by omega) hread
  | ok posted =>
    obtain rfl : body = some posted := hread
    refine (awaits (h.deleteTarget (by omega) posted fun _ _ _ _ _ _ => .inl rfl)).seq
      fun _ u₀ u h => ?_
    have hrebuild := h.framed (m := fun _ => 4) (D := fun _ _ => True) (h.here.tryRebuild hs (by omega))
    exact (awaits (m := fun _ => 4) hrebuild).seq fun _ _ _ h => h.settle (by omega)
      (.fulfilled s g i _) (fun hl => fulfilled_of_cleared rfl hl.2) _

theorem At.handler (hs : s.WellFormed) (h : At s g i 0 P w₀ w) (q : Request) :
    Sat (ServeRely s g i) (ServeGuarantee s g i) (Settles s g i (Fulfilled g i q)) (Ends s g i)
      (q.handler g i) w₀ w := by
  have helse {p : Action Event Response} (hp : q.route.posts = false) (hd : q.route.deletes = false)
      (hends : Sat (ServeRely s g i) (ServeGuarantee s g i) (Ends s g i) (Ends s g i) p w₀ w) :
      Sat (ServeRely s g i) (ServeGuarantee s g i) (Settles s g i (Fulfilled g i q)) (Ends s g i)
        p w₀ w :=
    hends.mono (fun r _ _ h => h.settle (Nat.le_refl 4) (.fulfilled s g i q)
      (fun _ => fulfilled_else hp hd) r) fun _ _ _ he => he
  obtain ⟨route, sid, body⟩ := q
  cases route with
  | submit => exact At.submit hs h sid body
  | edit => exact helse rfl rfl (At.edit hs h sid body)
  | pairing => exact At.pairing hs h sid body
  | delete => exact At.delete hs h sid body
  | adminEdit => exact helse rfl rfl (At.adminEdit hs h sid body)
  | approve => exact helse rfl rfl (At.approve hs h sid body)
  | reject => exact helse rfl rfl (At.reject hs h sid body)
  | remove => exact At.remove hs h sid body

/-- A request that has not begun. -/
def Fresh (s : Store) (g : Gates) (i : Nat) (w : World Event) : Prop :=
  Served s g w ∧ ∀ e ∈ w.log, e.request ≠ i

theorem Fresh.rely (h : Fresh s g i w) (hr : ServeRely s g i w w') : Fresh s g i w' := by
  obtain ⟨l, hl, hne, ht⟩ := hr
  refine ⟨ht h.1, fun e he => ?_⟩
  rw [hl] at he
  obtain he | he := List.mem_append.1 he
  · exact hne e he
  · exact h.2 e he

theorem Fresh.asked (h : Fresh s g i w) (q : Request) :
    At s g i 0 (.asked i q ∈ ·) w ((w.emit (.began i)).emit (.asked i q)) := by
  have hbegan : At s g i 0 (fun _ => True) w (w.emit (.began i)) := by
    have ht : Served s g (w.emit (.began i)) :=
      ⟨h.1.note (e := .began i) h.2 rfl rfl, h.1.honest.cons (Nat.zero_le 4)⟩
    refine ⟨⟨[.began i], rfl, by simp [Event.request], fun _ => ht⟩, ht, fun e he hi => ?_,
      .true s, trivial⟩
    obtain rfl | he := List.mem_cons.1 he
    · exact Nat.le_refl 0
    · exact absurd hi (h.2 e he)
  have hnew : ∀ q, .asked i q ∉ (w.emit (.began i)).log := by
    intro q hq
    obtain hq | hq := List.mem_cons.1 hq
    · cases hq
    · exact h.2 _ hq rfl
  have ht := hbegan.tracks.note (e := .asked i q) hnew rfl rfl
  have hat := hbegan.step ht rfl rfl (Nat.le_refl 0) (Nat.le_refl 0)
  exact (hat.learn (.mem s (.asked i q)) List.mem_cons_self).weaken (Nat.le_refl 0) (.mem s _) And.right

theorem At.answered (h : At s g i 4 (fun l => (code = 200 → Fulfilled g i q l) ∧ .asked i q ∈ l) w₀ w) :
    ServeGuarantee s g i w₀ (w.emit (.answered i code)) := by
  have ht := h.tracks.note (e := .answered i code)
    (fun c hc => absurd (h.stage _ hc rfl) (by simp [Event.rank])) rfl rfl
  have hhonest : Honest g (.answered i code :: w.log) := by
    refine h.tracks.honest.answer fun hc q' hq' => ?_
    obtain ⟨hdone, hq⟩ := h.known
    rw [← h.tracks.legal.asked_unique hq hq']
    exact hdone hc
  exact h.guarantee.trans ⟨[.answered i code], rfl, by simp [Event.request], fun _ => ⟨ht, hhonest⟩⟩

theorem Fresh.serve (hs : s.WellFormed) (h : Fresh s g i w) (q : Request) :
    Sat (ServeRely s g i) (ServeGuarantee s g i) (fun _ w₀ w => ServeGuarantee s g i w₀ w ∧ True)
      (fun _ w₀ w => ServeGuarantee s g i w₀ w ∧ True) (serve g i q) w w := by
  have hasked := h.asked q
  have hh : Sat (ServeRely s g i) (ServeGuarantee s g i) (Settles s g i (Fulfilled g i q))
      (Ends s g i) (handled (q.handler g i)) ((w.emit (.began i)).emit (.asked i q))
      ((w.emit (.began i)).emit (.asked i q)) := by
    unfold handled
    rw [sat_tryCatch]
    exact (At.handler hs hasked.here q).mono (fun _ _ _ h => h) fun _ _ _ h =>
      h.refuse (Nat.le_refl 4) (by decide)
  unfold Server.serve
  rw [sat_bind, sat_update, sat_bind, sat_update]
  refine ((hasked.framed (m := fun _ => 4) (D := fun r l => r.code = 200 → Fulfilled g i q l)
    hh).mono (fun _ _ _ h => h) fun _ _ _ h => ⟨h.guarantee, trivial⟩).seq fun r t₀ t h => ?_
  rw [sat_bind, sat_update]
  exact ⟨h.answered, trivial⟩

end Handlers

/-- Every request keeps the history legal and its answers true, and the store what the history
says. -/
def serveContract (s : Store) (hs : s.WellFormed) (g : Gates) :
    Pool.Contract (serve g) fun _ => True where
  R := ServeRely s g
  G := ServeGuarantee s g
  Pre := Fresh s g
  Q _ _ _ := True
  E _ _ _ := True
  R_refl := ServeRely.refl s g
  R_trans h h' := h.trans h'
  rely hij h := h.rely hij
  pre_stable h hr := h.rely hr
  q_stable _ _ := trivial
  e_stable _ _ := trivial
  sound _ q _ _ h := h.serve hs q

theorem Served.start (s : Store) (g : Gates) : Served s g ⟨s, []⟩ :=
  ⟨.start s, fun l₁ _ _ _ hl => by simp at hl⟩

/-- In every run, in whatever order requests arrive and go on, the history is legal, its answers are
true and the store is what the history says. -/
theorem served_run (s : Store) (hs : s.WellFormed) (g : Gates) (moves : List (Move Request Answer)) :
    Served s g (Pool.run (serve g) ⟨⟨s, []⟩, []⟩ moves).shared :=
  (((Pool.Contract.Good.start (serveContract s hs g) fun _ =>
    ⟨.start s g, fun _ he => absurd he List.not_mem_nil⟩).run fun _ _ => trivial).pre).1

theorem tracks_run (s : Store) (hs : s.WellFormed) (g : Gates) (moves : List (Move Request Answer)) :
    Tracks s (Pool.run (serve g) ⟨⟨s, []⟩, []⟩ moves).shared := (served_run s hs g moves).toTracks

section Instance

/-- Gates that let every submission of the runs below pass. -/
def Gates.lenient : Gates where
  admins := ["PM8Tmaintainer"]
  isPlainOnionUrl _ := true
  pairingNetwork _ := some .mainnet
  repairSignedBlock _ := none
  verifySignedPayload _ _ _ _ := none
  judgeVersion _ _ := none
  countryFor _ := none

/-- Sessions of two operators and a maintainer. -/
def someSessions : Table Session where
  entries := [("alice", ⟨some "PM8Talice", 1000⟩), ("bob", ⟨some "PM8Tbobby", 1000⟩),
    ("maintainer", ⟨some "PM8Tmaintainer", 1000⟩)]

def blockOver (text : String) : String :=
  "-----BEGIN BITCOIN SIGNED MESSAGE-----\n" ++ text ++ "\n-----BEGIN BITCOIN SIGNATURE-----"

/-- What an operator posts to list a node, or to change its pairing details. -/
def listingBody (url : String) : Json :=
  .obj [("id", .str "mainnet-dojo"), ("network", .str "mainnet"), ("name", .str "dojo"),
    ("payload", .obj [("pairing", .obj [("type", .str "dojo.api"), ("url", .str url)])]),
    ("signed", .str (blockOver url))]

/-- A listing of the first operator. -/
def someListing : StoreRecord where
  id := "mainnet-dojo"
  network := .mainnet
  name := some "dojo"
  paymentCodes := some ["PM8Talice"]
  signed := some (blockOver "http://old.onion")

/-- A store that holds one listing. -/
def oneListing : Store where
  objects := [someListing]
  submissions := { entries := [("mainnet-dojo", 0)] }
  sessions := someSessions

theorem oneListing_wellFormed : oneListing.WellFormed where
  stored id r h := by
    have h : (if id = "mainnet-dojo" then some 0 else none) = some r := by
      simpa only [oneListing, Table.get, Table.lookup_cons, List.lookup_nil] using h
    split at h
    · next hid => cases h; exact ⟨someListing, rfl, hid.symm⟩
    · cases h
  normal r rec h := by
    cases r with
    | zero => cases h; exact ⟨rfl, _, rfl, by decide, by decide⟩
    | succ r => cases h

theorem noListing_wellFormed : ({ sessions := someSessions } : Store).WellFormed where
  stored id r h := by cases h
  normal r rec h := by cases h

/-- The call `i` gets its next `n` answers. -/
def answers (i n : Nat) : List (Move Request Answer) :=
  List.replicate n (.resume i { clock := 1, probe := { up := true } })

end Instance

end Mise.Server
