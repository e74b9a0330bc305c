import Mise.Gateway.Shop

set_option autoImplicit true

namespace Mise.Gateway.Shop

open Js

variable {W : Wallet} {s t u : IdentityState} {req : Json}

/-- A state file that this program wrote, under the codes of the shop's seed: no receiver is one of
these codes. It may lack a network, or a deposit address. -/
structure Recorded (W : Wallet) (s : IdentityState) : Prop where
  active : ∃ n ∈ networkNames, s.active = .str n
  keys : ∀ k, (s.networks.get k).isSome → k ∈ networkNames
  own : ∀ k b, s.networks.get k = some b → b.paymentCode = some (W.derived k).paymentCode
  receiver : ∀ k b, s.networks.get k = some b → ∀ m ∈ networkNames,
    b.receiverPaymentCode ≠ some (W.derived m).paymentCode

/-- The table has exactly the keys `NETWORKS`, besides. -/
structure WellFormed (W : Wallet) (s : IdentityState) : Prop extends Recorded W s where
  complete : ∀ n ∈ networkNames, (s.networks.get n).isSome

/-- A receiver is bound, and its notification transaction is known. -/
def settled (b : NetworkIdentity) : Bool := given b.notificationTxid && given b.receiverPaymentCode

/-- What never changes of a network. -/
def Keeps (s t : IdentityState) : Prop :=
  ∀ k b, s.networks.get k = some b → ∃ b', t.networks.get k = some b' ∧
    b'.paymentCode = b.paymentCode ∧ b'.notificationAddress = b.notificationAddress ∧
    b'.depositAddress = b.depositAddress ∧ b'.notificationTxid = b.notificationTxid ∧
    (settled b → b'.receiverPaymentCode = b.receiverPaymentCode)

/-- No other network's block is changed than that of the network that the request names. -/
def Frame (W : Wallet) (s : IdentityState) (req : Json) : Prop :=
  ∀ k, propertyKey (field "network" req) ≠ .ok k →
    (after W s req).networks.get k = s.networks.get k

/-- The request names no inherited property as its network, activates a network only under its very
name, and binds none of the shop's own codes. -/
def Proper (W : Wallet) (s : IdentityState) (req : Json) : Prop :=
  if isOp req "bind-receiver" then
    ∀ key code address, propertyKey (field "network" req) = .ok key →
      trimmedCode (field "code" req) = .ok code →
      notificationAddress W (field "network" req) key code = .ok address → key ∉ objectPrototype ∧
        ∀ b, s.networks.get key = some b → ∀ m ∈ networkNames, code = (W.derived m).paymentCode →
          b.paymentCode = some code ∨ stranded b code
  else if isOp req "set-active" then
    ∀ key, propertyKey (field "network" req) = .ok key → key ∈ networkNames ∨ key ∈ objectPrototype →
      ∃ n ∈ networkNames, field "network" req = some (.str n)
  else if isOp req "set-dojo" then
    ∀ key, propertyKey (field "network" req) = .ok key → key ∉ objectPrototype
  else True

def Throughout (W : Wallet) : IdentityState → List Json → Prop
  | _, [] => True
  | s, req :: reqs => Proper W s req ∧ Throughout W (after W s req) reqs

section Step

theorem networkNames_proto {key : String} (h : key ∈ objectPrototype) : key ∉ networkNames := by
  intro hk
  have hall : ∀ k ∈ networkNames, k ∉ objectPrototype := by decide
  exact hall key hk h

/-- What a request can have done. -/
inductive Change (W : Wallet) (s : IdentityState) (req : Json) : IdentityState → Prop where
  | none : Change W s req s
  | active (hop : isOp req "set-active") (hb : isOp req "bind-receiver" = false)
      (hl : lookUp s (field "network" req) = .ok (key, b)) :
      Change W s req { s with active := (field "network" req).getD .null }
  | dojo (hop : isOp req "set-dojo") (hb : isOp req "bind-receiver" = false)
      (ha : isOp req "set-active" = false) (hl : lookUp s (field "network" req) = .ok (key, b)) :
      Change W s req (assign s key { b with dojo := field "dojo" req })
  | receiver (hop : isOp req "bind-receiver")
      (h : Binds W s (field "network" req) (field "code" req) key b code address) :
      Change W s req (assign s key
        { b with receiverPaymentCode := some code, receiverNotificationAddress := some address })

theorem after_change (W : Wallet) (s : IdentityState) (req : Json) : Change W s req (after W s req) := by
  unfold after
  cases h : transform W s req with
  | error e => exact .none
  | ok t =>
    unfold transform at h
    split at h
    · next hop =>
      obtain ⟨key, b, c, address, hbinds, rfl⟩ := bindReceiver_ok h
      exact .receiver hop hbinds
    · next hb =>
      rw [Bool.not_eq_true] at hb
      split at h
      · next hop =>
        obtain ⟨⟨key, b, hl⟩, rfl⟩ := setActive_ok h
        exact .active hop hb hl
      · next ha =>
        rw [Bool.not_eq_true] at ha
        split at h
        · next hop =>
          obtain ⟨key, b, hl, rfl⟩ := setDojo_ok h
          exact .dojo hop hb ha hl
        · cases h
          exact .none

theorem frame (W : Wallet) (s : IdentityState) (req : Json) : Frame W s req := by
  intro k hk
  have hassign : ∀ {key : String} {b b' : NetworkIdentity},
      lookUp s (field "network" req) = .ok (key, b) → (assign s key b').networks.get k = s.networks.get k := by
    intro key b b' hl
    have hne : k ≠ key := fun e => hk (e ▸ (lookUp_ok hl).1)
    rw [assign, Table.get_set, if_neg hne]
  have hchange := after_change W s req
  generalize after W s req = t at hchange ⊢
  cases hchange with
  | none => rfl
  | active hop hb hl => rfl
  | dojo hop hb ha hl => exact hassign hl
  | receiver hop h => exact hassign h.found

theorem Keeps.refl (s : IdentityState) : Keeps s s :=
  fun _ b hb => ⟨b, hb, rfl, rfl, rfl, rfl, fun _ => rfl⟩

theorem Keeps.trans (h : Keeps s t) (h' : Keeps t u) : Keeps s u := by
  intro k b hb
  obtain ⟨b₁, hb₁, hcode₁, hnotification₁, hdeposit₁, htxid₁, hreceiver₁⟩ := h k b hb
  obtain ⟨b₂, hb₂, hcode₂, hnotification₂, hdeposit₂, htxid₂, hreceiver₂⟩ := h' k b₁ hb₁
  refine ⟨b₂, hb₂, hcode₂.trans hcode₁, hnotification₂.trans hnotification₁,
    hdeposit₂.trans hdeposit₁, htxid₂.trans htxid₁, fun hs => ?_⟩
  have hs₁ : settled b₁ := by
    unfold settled at hs ⊢
    rw [htxid₁, hreceiver₁ hs]
    exact hs
  exact (hreceiver₂ hs₁).trans (hreceiver₁ hs)

theorem keeps_assign {key : String} {b b' : NetworkIdentity}
    (hl : lookUp s network = .ok (key, b)) (hcode : b'.paymentCode = b.paymentCode)
    (hnotification : b'.notificationAddress = b.notificationAddress)
    (hdeposit : b'.depositAddress = b.depositAddress) (htxid : b'.notificationTxid = b.notificationTxid)
    (hreceiver : settled b → b'.receiverPaymentCode = b.receiverPaymentCode) :
    Keeps s (assign s key b') := by
  intro k c hc
  by_cases hk : k = key
  · subst hk
    obtain hget | ⟨hget, _⟩ := (lookUp_ok hl).2
    · cases hget.symm.trans hc
      exact ⟨b', by rw [assign, Table.get_set, if_pos rfl], hcode, hnotification, hdeposit, htxid,
        hreceiver⟩
    · cases hget.symm.trans hc
  · exact ⟨c, by rw [assign, Table.get_set, if_neg hk, hc], rfl, rfl, rfl, rfl, fun _ => rfl⟩

theorem not_stranded {b : NetworkIdentity} {code : String} (h : stranded b code = false)
    (hs : settled b) : some code = b.receiverPaymentCode := by
  unfold stranded at h
  unfold settled at hs
  rw [hs, Bool.true_and, decide_eq_false_iff_not, not_not] at h
  exact h.symm

theorem keeps (W : Wallet) (s : IdentityState) (req : Json) : Keeps s (after W s req) := by
  have hchange := after_change W s req
  generalize after W s req = t at hchange ⊢
  cases hchange with
  | none => exact .refl s
  | active hop hb hl => exact .refl s
  | dojo hop hb ha hl => exact keeps_assign hl rfl rfl rfl rfl fun _ => rfl
  | receiver hop h =>
    exact keeps_assign h.found rfl rfl rfl rfl fun hs => not_stranded h.notStranded hs

end Step

section Preservation

/-- Writing the block of a network keeps the shop well formed, if the block is the network's own. -/
theorem WellFormed.assign {key : String} {b : NetworkIdentity} (h : WellFormed W s)
    (hkey : key ∈ networkNames) (hown : b.paymentCode = some (W.derived key).paymentCode)
    (hreceiver : ∀ m ∈ networkNames, b.receiverPaymentCode ≠ some (W.derived m).paymentCode) :
    WellFormed W (assign s key b) where
  active := h.active
  keys k hk := by
    rw [Shop.assign, Table.get_set] at hk
    split at hk
    · next he => exact he ▸ hkey
    · exact h.keys k hk
  complete n hn := by
    rw [Shop.assign, Table.get_set]
    split
    · rfl
    · exact h.complete n hn
  own k c hc := by
    rw [Shop.assign, Table.get_set] at hc
    split at hc
    · next hk =>
      cases hc
      rw [hk, hown]
    · exact h.own k c hc
  receiver k c hc := by
    rw [Shop.assign, Table.get_set] at hc
    split at hc
    · cases hc
      exact hreceiver
    · exact h.receiver k c hc

/-- A network that is found is one of `NETWORKS`, unless it is an inherited name. -/
theorem WellFormed.found {key : String} {b : NetworkIdentity} (h : WellFormed W s)
    (hl : lookUp s network = .ok (key, b)) (hproto : key ∉ objectPrototype) :
    s.networks.get key = some b ∧ key ∈ networkNames := by
  obtain hget | ⟨_, hp, _⟩ := (lookUp_ok hl).2
  · exact ⟨hget, h.keys key (by rw [hget]; rfl)⟩
  · exact absurd hp hproto

theorem WellFormed.preserved (h : WellFormed W s) (hp : Proper W s req) :
    WellFormed W (after W s req) := by
  unfold Proper at hp
  have hchange := after_change W s req
  generalize after W s req = t at hchange ⊢
  cases hchange with
  | none => exact h
  | active hop hb hl =>
    simp only [hb, hop, Bool.false_eq_true, if_false, if_true] at hp
    have hkey := (lookUp_ok hl).1
    have hfound := (lookUp_ok hl).2.imp (fun hget => h.keys _ (by rw [hget]; rfl)) fun hi => hi.2.1
    obtain ⟨n, hn, hnetwork⟩ := hp _ hkey hfound
    exact { h with active := ⟨n, hn, by rw [hnetwork]; rfl⟩ }
  | dojo hop hb ha hl =>
    simp only [hb, ha, hop, Bool.false_eq_true, if_false, if_true] at hp
    obtain ⟨hget, hkey⟩ := h.found hl (hp _ (lookUp_ok hl).1)
    have hown := h.own _ _ hget
    have hreceiver := h.receiver _ _ hget
    exact h.assign hkey hown hreceiver
  | receiver hop hbinds =>
    simp only [hop, if_true] at hp
    obtain ⟨hproto, hcode⟩ := hp _ _ _ (lookUp_ok hbinds.found).1 hbinds.trimmed hbinds.usable
    obtain ⟨hget, hkey⟩ := h.found hbinds.found hproto
    have hown := h.own _ _ hget
    refine h.assign hkey hown fun m hm hcodes => ?_
    obtain hself | hstranded := hcode _ hget m hm (Option.some.inj hcodes)
    · exact hbinds.notOwn hself
    · cases hbinds.notStranded.symm.trans hstranded

/-- A request that is not proper leaves a state that is not well formed. -/
theorem WellFormed.proper (h : WellFormed W s) (ha : WellFormed W (after W s req)) :
    Proper W s req := by
  have hadded : ∀ {key : String} {b : NetworkIdentity}, key ∈ objectPrototype →
      transform W s req ≠ .ok (Shop.assign s key b) := by
    intro key b hproto htransform
    rw [after, htransform] at ha
    refine networkNames_proto hproto (ha.keys key ?_)
    rw [Shop.assign, Table.get_set, if_pos rfl]
    rfl
  have hmissing : ∀ {key : String}, key ∈ objectPrototype → s.networks.get key = none := by
    intro key hproto
    exact Option.not_isSome_iff_eq_none.1 fun hs => networkNames_proto hproto (h.keys key hs)
  unfold Proper
  split
  · next hop =>
    intro key code address hkey hcode husable
    refine ⟨fun hproto => ?_, fun b hget m hm hown => ?_⟩
    · have hbinds := bindReceiver_binds
        ⟨lookUp_inherited hkey (hmissing hproto) hproto, hcode, husable, nofun, rfl⟩
      exact hadded hproto (by rw [transform, if_pos hop, hbinds])
    · by_contra hrefused
      rw [not_or, Bool.not_eq_true] at hrefused
      have hbinds := bindReceiver_binds
        ⟨lookUp_own hkey hget, hcode, husable, hrefused.1, hrefused.2⟩
      rw [after, transform, if_pos hop, hbinds] at ha
      refine ha.receiver key _ (by rw [Shop.assign, Table.get_set, if_pos rfl]) m hm ?_
      rw [hown]
  · next hb =>
    split
    · next hop =>
      intro key hkey hfound
      have hl : ∃ b, lookUp s (field "network" req) = .ok (key, b) := by
        obtain hk | hproto := hfound
        · obtain ⟨b, hget⟩ := Option.isSome_iff_exists.1 (h.complete key hk)
          exact ⟨b, lookUp_own hkey hget⟩
        · exact ⟨{}, lookUp_inherited hkey (hmissing hproto) hproto⟩
      obtain ⟨b, hl⟩ := hl
      have hset : setActive s (field "network" req) =
          .ok { s with active := (field "network" req).getD .null } := by
        rw [setActive, hl]
        rfl
      rw [after, transform, if_neg hb, if_pos hop, hset] at ha
      obtain ⟨n, hn, hactive⟩ := ha.active
      refine ⟨n, hn, ?_⟩
      cases hv : field "network" req with
      | none =>
        rw [hv] at hactive
        cases hactive
      | some v =>
        rw [hv] at hactive
        exact congrArg some hactive
    · next hactive =>
      split
      · next hop =>
        intro key hkey hproto
        have hset : setDojo s (field "network" req) (field "dojo" req) =
            .ok (Shop.assign s key { dojo := field "dojo" req }) := by
          rw [setDojo, lookUp_inherited hkey (hmissing hproto) hproto]
          rfl
        exact hadded hproto (by rw [transform, if_neg hb, if_neg hactive, if_pos hop, hset])
      · trivial

end Preservation

section Load

/-- The block that a network has after `backfill`. -/
def filled (W : Wallet) (n : String) : Option NetworkIdentity → NetworkIdentity
  | none => blankBlock W n
  | some b =>
    if given b.depositAddress then b
    else { b with depositAddress := some (W.derived n).depositAddress }

theorem get_backfill (W : Wallet) (t : Table NetworkIdentity) (n k : String) :
    (backfill W t n).get k = if k = n then some (filled W n (t.get n)) else t.get k := by
  unfold backfill filled
  cases ht : t.get n with
  | none => rw [Table.get_set]
  | some b =>
    dsimp only
    split
    · split
      · next hk => rw [hk, ht]
      · rfl
    · rw [Table.get_set]

theorem get_backfillAll (W : Wallet) (t : Table NetworkIdentity) (k : String) :
    (backfillAll W t).get k =
      if k ∈ networkNames then some (filled W k (t.get k)) else t.get k := by
  have hne : ("bitcoin" : String) ≠ "testnet4" := by decide
  simp only [backfillAll, networkNames, List.foldl_cons, List.foldl_nil, get_backfill, List.mem_cons,
    List.not_mem_nil, or_false]
  by_cases hb : k = "bitcoin"
  · subst hb
    simp [hne]
  · by_cases ht : k = "testnet4"
    · subst ht
      simp
    · simp [hb, ht]

/-- What is backfilled is derived from the seed, and nothing recorded is touched. -/
theorem filled_fields (W : Wallet) (n : String) (o : Option NetworkIdentity)
    (ho : ∀ b ∈ o, b.paymentCode = some (W.derived n).paymentCode) :
    (filled W n o).paymentCode = some (W.derived n).paymentCode ∧
      (filled W n o).receiverPaymentCode = o.bind NetworkIdentity.receiverPaymentCode := by
  unfold filled
  cases o with
  | none => exact ⟨rfl, rfl⟩
  | some b =>
    dsimp only
    split
    · exact ⟨ho b rfl, rfl⟩
    · exact ⟨ho b rfl, rfl⟩

theorem Recorded.backfill (h : Recorded W s) :
    WellFormed W { s with networks := backfillAll W s.networks } := by
  have hget : ∀ {k b}, (backfillAll W s.networks).get k = some b →
      k ∈ networkNames ∧ b = filled W k (s.networks.get k) := by
    intro k b hb
    rw [get_backfillAll] at hb
    split at hb
    · next hk => exact ⟨hk, (Option.some.inj hb).symm⟩
    · next hk => exact absurd (h.keys k (by rw [hb]; rfl)) hk
  constructor
  · constructor
    · exact h.active
    · intro k hk
      obtain ⟨b, hb⟩ := Option.isSome_iff_exists.1 hk
      exact (hget hb).1
    · intro k b hb
      rw [(hget hb).2]
      exact (filled_fields W k _ (h.own k)).1
    · intro k b hb m hm
      rw [(hget hb).2, (filled_fields W k _ (h.own k)).2]
      intro he
      obtain ⟨c, hc, hreceiver⟩ := Option.bind_eq_some_iff.1 he
      exact h.receiver k c hc m hm hreceiver
  · intro n hn
    rw [get_backfillAll, if_pos hn]
    rfl

/-- What the program made of a seed, or of a file that it wrote, is well formed. -/
theorem loadOrCreate_wellFormed {file : Option IdentityState} (hfile : ∀ f ∈ file, Recorded W f)
    (h : loadOrCreate W file = .ok s) : WellFormed W s := by
  cases file with
  | none =>
    cases h
    have hempty : ∀ k, ({} : Table NetworkIdentity).get k = none := Table.get_empty
    have hrecorded : Recorded W { active := .str "bitcoin", createdAt := W.createdAt, networks := {} } := by
      constructor
      · exact ⟨"bitcoin", by decide, rfl⟩
      · intro k hk
        rw [hempty] at hk
        cases hk
      · intro k b hb
        rw [hempty] at hb
        cases hb
      · intro k b hb
        rw [hempty] at hb
        cases hb
    exact hrecorded.backfill
  | some f =>
    rw [loadOrCreate] at h
    split at h
    · cases h
    · cases h
      exact (hfile f rfl).backfill

/-- A shop that is well formed starts again from what it has saved. -/
theorem WellFormed.restarts (h : WellFormed W s) :
    ∃ t, loadOrCreate W (some (reread s)) = .ok t ∧ WellFormed W t := by
  have hget : ∀ {k b}, (reread s).networks.get k = some b → ∃ c, s.networks.get k = some c ∧
      b.paymentCode = c.paymentCode ∧ b.receiverPaymentCode = c.receiverPaymentCode := by
    intro k b hb
    rw [reread, Table.get_filterMap] at hb
    obtain ⟨c, hc, hbc⟩ := Option.bind_eq_some_iff.1 hb
    cases hbc
    exact ⟨c, hc, rfl, rfl⟩
  have hrecorded : Recorded W (reread s) := by
    obtain ⟨n, hn, hactive⟩ := h.active
    refine ⟨⟨n, hn, ?_⟩, fun k hk => ?_, fun k b hb => ?_, fun k b hb m hm => ?_⟩
    · rw [reread, hactive, Json.reparsed]
    · obtain ⟨b, hb⟩ := Option.isSome_iff_exists.1 hk
      obtain ⟨c, hc, _⟩ := hget hb
      exact h.keys k (by rw [hc]; rfl)
    · obtain ⟨c, hc, hcode, _⟩ := hget hb
      rw [hcode, h.own k c hc]
    · obtain ⟨c, hc, _, hreceiver⟩ := hget hb
      rw [hreceiver]
      exact h.receiver k c hc m hm
  have hagrees : networkNames.find? (disagrees W (reread s)) = none := by
    rw [List.find?_eq_none]
    intro n hn
    unfold disagrees
    cases hb : (reread s).networks.get n with
    | none => simp [given]
    | some b => simp [hrecorded.own n b hb]
  refine ⟨_, ?_, hrecorded.backfill⟩
  rw [loadOrCreate, hagrees]

end Load

section Runs

theorem keeps_states (W : Wallet) (s : IdentityState) (reqs : List Json) :
    ∀ t ∈ states W s reqs, Keeps s t := by
  induction reqs generalizing s with
  | nil =>
    intro t ht
    cases List.mem_singleton.1 ht
    exact .refl s
  | cons req reqs ih =>
    intro t ht
    obtain rfl | ht := List.mem_cons.1 ht
    · exact .refl t
    · exact (keeps W s req).trans (ih (after W s req) t ht)

theorem states_pairwise (W : Wallet) (s : IdentityState) (reqs : List Json) :
    (states W s reqs).Pairwise Keeps := by
  induction reqs generalizing s with
  | nil => exact List.pairwise_singleton Keeps s
  | cons req reqs ih =>
    refine List.pairwise_cons.2 ⟨fun t ht => ?_, ih (after W s req)⟩
    exact (keeps W s req).trans (keeps_states W (after W s req) reqs t ht)

theorem head_mem_states (W : Wallet) (s : IdentityState) (reqs : List Json) : s ∈ states W s reqs := by
  cases reqs with
  | nil => exact List.mem_singleton.2 rfl
  | cons req reqs => exact List.mem_cons_self

theorem states_wellFormed (h : WellFormed W s) (reqs : List Json) :
    (∀ t ∈ states W s reqs, WellFormed W t) ↔ Throughout W s reqs := by
  induction reqs generalizing s with
  | nil =>
    constructor
    · intro _
      trivial
    · intro _ t ht
      cases List.mem_singleton.1 ht
      exact h
  | cons req reqs ih =>
    rw [states, List.forall_mem_cons]
    constructor
    · rintro ⟨_, hrest⟩
      have hnext := hrest _ (head_mem_states W (after W s req) reqs)
      exact ⟨h.proper hnext, (ih hnext).1 hrest⟩
    · rintro ⟨hproper, hrest⟩
      exact ⟨h, (ih (h.preserved hproper)).2 hrest⟩

/-- The state of a shop stays well formed in exactly the runs whose requests are all proper. -/
theorem shop_stays_wellFormed {file : Option IdentityState} (hfile : ∀ f ∈ file, Recorded W f)
    (hload : loadOrCreate W file = .ok s) (reqs : List Json) :
    ((∀ t ∈ states W s reqs, WellFormed W t) ∧ (states W s reqs).Pairwise Keeps ∧
      ∀ t ∈ states W s reqs, ∀ req, Frame W t req) ↔ Throughout W s reqs := by
  rw [← states_wellFormed (loadOrCreate_wellFormed hfile hload)]
  constructor
  · intro h
    exact h.1
  · intro h
    exact ⟨h, states_pairwise W s reqs, fun t _ req => frame W t req⟩

end Runs

section Sample

/-- A wallet whose codes are named after the network; the library knows no codes. -/
def sampleWallet : Wallet where
  createdAt := "2026-01-01T00:00:00.000Z"
  derived n := { paymentCode := n, notificationAddress := n, depositAddress := n }
  notificationAddress _ _ := .error "Invalid payment code"

def activate (network : String) : Json := .obj [("op", .str "set-active"), ("network", .str network)]

/-- `set-active` takes the name of an inherited property for a network. -/
theorem constructor_becomes_active :
    ¬ ∀ W file s reqs, (∀ f ∈ file, Recorded W f) → loadOrCreate W file = .ok s →
      (∀ t ∈ states W s reqs, WellFormed W t) ∧ (states W s reqs).Pairwise Keeps ∧
        ∀ t ∈ states W s reqs, ∀ req, Frame W t req := by
  intro h
  obtain ⟨hall, _⟩ := h sampleWallet none _ [activate "constructor"] nofun rfl
  obtain ⟨n, hn, hactive⟩ := (hall _ (List.mem_cons_of_mem _ (List.mem_singleton.2 rfl))).active
  have hconstructor : Json.str "constructor" = .str n := hactive
  cases hconstructor
  exact absurd hn (by decide)

theorem shop_stays_wellFormed_activated :
    ∃ s, loadOrCreate sampleWallet none = .ok s ∧
      (((∀ t ∈ states sampleWallet s [activate "testnet4"], WellFormed sampleWallet t) ∧
        (states sampleWallet s [activate "testnet4"]).Pairwise Keeps ∧
        ∀ t ∈ states sampleWallet s [activate "testnet4"], ∀ req, Frame sampleWallet t req) ↔
      Throughout sampleWallet s [activate "testnet4"]) :=
  ⟨_, rfl, @shop_stays_wellFormed sampleWallet _ none nofun rfl [activate "testnet4"]⟩

end Sample

end Mise.Gateway.Shop
