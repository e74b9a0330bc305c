import Mise.Gateway.Derive

set_option autoImplicit true

namespace Mise.Gateway

open Js
open Shop (given)

/-! The pool of addresses that are signed offline, and the gateway that signs them live. -/

/-- What follows `--name` on the command line. -/
def argument (argv : List String) (name : String) : Option String :=
  let i := argv.idxOf ("--" ++ name)
  if 0 < i then argv[i + 1]? else none

def arg (argv : List String) (name : String) (fallback : Option String) : Option String :=
  if given (argument argv name) then argument argv name else fallback

/-- A number that is no integer is `none`. -/
structure PoolOptions where
  start : Option Int := some 0
  count : Option Int := some 100
  type : String := "p2pkh"

structure AddressPool where
  v : Nat := 1
  paymentCode : String
  type : AddressType
  network : String
  start : Int
  count : Int
  generatedAt : String
  addresses : List SignedAddress

section Build

variable {κ : Type} (K : Keys κ)

def poolRecord (identity : Identity κ) (personalCode : String) (addressType : AddressType) (i : Int) :
    Except Shop.Fault SignedAddress := do
  let address ← addressFor K identity.code personalCode i addressType (.str identity.network)
  signAddress K identity
    { address
      index := i
      type := addressType
      network := .str identity.network
      paymentCode := K.paymentCode identity.code }

def buildPool (now : String) (identity : Identity κ) (personalCode : String) (opts : PoolOptions) :
    Except Shop.Fault AddressPool := do
  let some start := opts.start.filter (0 ≤ ·)
    | throw (.message "--start must be a non-negative integer")
  let some count := opts.count.filter (1 ≤ ·)
    | throw (.message "--count must be a positive integer")
  let addressType ← parseAddressType (some opts.type)
  let addresses ← (List.range count.toNat).mapM fun k : Nat =>
    poolRecord K identity personalCode addressType (start + k)
  return {
    paymentCode := K.paymentCode identity.code
    type := addressType
    network := identity.network
    start, count
    generatedAt := now
    addresses }

/-- The command without `--verify`, which writes a pool, with the identity of its seed file. `number`
reads the integer that a text is. -/
def generate (number : String → Option Int) (argv : List String) (personalCode : Option String)
    (now : String) (identity : Identity κ) : Except Shop.Fault AddressPool :=
  match arg argv "personal" personalCode with
  | some personal =>
    if personal = "" then .error (.message "--personal <payment code> is required")
    else
      buildPool K now identity personal
        { start := number ((arg argv "start" (some "0")).getD "")
          count := number ((arg argv "count" (some "100")).getD "")
          type := (arg argv "type" (some "p2pkh")).getD "" }
  | none => .error (.message "--personal <payment code> is required")

end Build

section Records

variable {κ σ : Type} {K : Keys κ} {identity : Identity κ} {personal : String}

theorem mapM_ok {f : α → Except ε β} {l : List α} {r : List β} (h : l.mapM f = .ok r) :
    List.Forall₂ (fun a b => f a = .ok b) l r := by
  induction l generalizing r with
  | nil =>
    cases h
    exact .nil
  | cons a l ih =>
    rw [List.mapM_cons] at h
    cases ha : f a with
    | error e =>
      rw [ha] at h
      cases h
    | ok b =>
      rw [ha] at h
      cases hl : l.mapM f with
      | error e =>
        rw [hl] at h
        cases h
      | ok t =>
        rw [hl] at h
        cases h
        exact .cons ha (ih hl)

theorem poolRecord_ok {r : SignedAddress} (h : poolRecord K identity personal type i = .ok r) :
    r.index = i ∧ r.type = type := by
  unfold poolRecord signAddress at h
  cases ha : addressFor K identity.code personal i type (.str identity.network) with
  | error e =>
    rw [ha] at h
    cases h
  | ok address =>
    rw [ha] at h
    simp only [bind, Except.bind] at h
    split at h
    · cases h
    · cases h
      exact ⟨rfl, rfl⟩

theorem buildPool_ok {opts : PoolOptions} {pool : AddressPool}
    (h : buildPool K now identity personal opts = .ok pool) :
    0 ≤ pool.start ∧ parseAddressType (some opts.type) = .ok pool.type ∧
      List.Forall₂ (fun (k : Nat) r => poolRecord K identity personal pool.type (pool.start + k) = .ok r)
        (List.range pool.count.toNat) pool.addresses := by
  unfold buildPool at h
  cases hs : opts.start.filter (0 ≤ ·) with
  | none =>
    rw [hs] at h
    cases h
  | some start =>
    cases hc : opts.count.filter (1 ≤ ·) with
    | none =>
      rw [hs, hc] at h
      cases h
    | some count =>
      rw [hs, hc] at h
      cases ht : parseAddressType (some opts.type) with
      | error e =>
        rw [ht] at h
        cases h
      | ok type =>
        rw [ht] at h
        simp only [bind, Except.bind] at h
        split at h
        · cases h
        · next addresses hm =>
          cases h
          exact ⟨by simpa using (Option.filter_eq_some_iff.1 hs).2, rfl, mapM_ok hm⟩

theorem buildPool_record {opts : PoolOptions} {pool : AddressPool}
    (h : buildPool K now identity personal opts = .ok pool) (hlo : pool.start ≤ i)
    (hhi : i < pool.start + pool.count) :
    ∃ r ∈ pool.addresses, r.index = i ∧ (∀ r' ∈ pool.addresses, r'.index = i → r' = r) ∧
      poolRecord K identity personal pool.type i = .ok r := by
  obtain ⟨-, -, hall⟩ := buildPool_ok h
  obtain ⟨k, hk⟩ : ∃ k : Nat, i = pool.start + k := ⟨(i - pool.start).toNat, by omega⟩
  have hrange : k ∈ List.range pool.count.toNat := List.mem_range.2 (by omega)
  obtain ⟨n, hn⟩ := List.mem_iff_getElem.1 hrange
  obtain ⟨hlt, hkn⟩ := hn
  have hlen := hall.length_eq
  have hrec := List.Forall₂.get hall hlt (hlen ▸ hlt)
  rw [List.get_eq_getElem, hkn, ← hk] at hrec
  refine ⟨_, List.get_mem _ _, (poolRecord_ok hrec).1, ?_, hrec⟩
  intro r' hr' hindex
  obtain ⟨j, hj⟩ := List.mem_iff_getElem.1 hr'
  obtain ⟨hjlt, hjr⟩ := hj
  have hrec' := List.Forall₂.get hall (hlen ▸ hjlt) hjlt
  rw [List.get_eq_getElem, List.get_eq_getElem, hjr, List.getElem_range] at hrec'
  have hsame := (poolRecord_ok hrec').1
  rw [hindex] at hsame
  rw [← hsame] at hrec'
  rw [hrec] at hrec'
  exact (Except.ok.inj hrec').symm

/-- Both read the type that is set, but each has a type of its own where none is. -/
theorem types_eq_iff {argv : List String} {t t' : AddressType}
    (ht : parseAddressType (some ((arg argv "type" (some "p2pkh")).getD "")) = .ok t)
    (ht' : parseAddressType (argument argv "type") = .ok t') :
    t' = t ↔ given (argument argv "type") := by
  unfold arg at ht
  by_cases hgiven : given (argument argv "type")
  · -- A blank setting is read as the default by both.
    rw [if_pos hgiven] at ht
    change parseAddressType (argument argv "type") = _ at ht
    rw [ht] at ht'
    exact ⟨fun _ => hgiven, fun _ => (Except.ok.inj ht').symm⟩
  · rw [if_neg hgiven] at ht
    have hpool : t = .p2pkh := by
      have hparse : parseAddressType (some "p2pkh") = .ok .p2pkh := by decide +kernel
      exact (Except.ok.inj (hparse.symm.trans ht)).symm
    have hgateway : t' = .p2wpkh := by
      have hparse : parseAddressType (argument argv "type") = .ok .p2wpkh := by
        cases hv : argument argv "type" with
        | none => decide +kernel
        | some v =>
          obtain rfl : v = "" := by simpa [hv, given] using hgiven
          decide +kernel
      exact (Except.ok.inj (hparse.symm.trans ht')).symm
    rw [hpool, hgateway]
    exact ⟨fun h => absurd h (by decide), fun h => absurd h hgiven⟩

end Records

open Handler in
/-- Of a pool and a gateway of one identity, one receiver and one setting of the address type, the
records are the same for every index of the pool exactly if the setting is given. -/
theorem pool_record_iff {κ σ : Type} (K : Keys κ) (number : String → Option Int) (argv : List String)
    (personalCode envCode : Option String) (now personal : String) (identity : Identity κ)
    (wiring : Wiring κ σ) (store : σ) (allocate : σ → Except Shop.Fault Int) (pool : AddressPool)
    (h : Handler κ σ) (hpool : generate K number argv personalCode now identity = .ok pool)
    (hpersonal : arg argv "personal" personalCode = some personal)
    (hstart : start (argument argv "type") wiring envCode = .ok h)
    (hactive : h.active = .ok ⟨identity, .str identity.network, store⟩)
    (hreceiver : h.receiver (.str identity.network) = some personal) :
    ∀ i, pool.start ≤ i → i < pool.start + pool.count →
      ∃ r ∈ pool.addresses, r.index = i ∧ (∀ r' ∈ pool.addresses, r'.index = i → r' = r) ∧
        (h.peek K (some i) = .ok r ↔ given (argument argv "type")) ∧
        (allocate store = .ok i → (h.next K allocate = .ok r ↔ given (argument argv "type"))) := by
  intro i hlo hhi
  unfold generate at hpool
  rw [hpersonal] at hpool
  dsimp only at hpool
  split at hpool
  · cases hpool
  · obtain ⟨r, hr, hindex, hunique, hrec⟩ := buildPool_record hpool hlo hhi
    obtain ⟨hpos, htype, -⟩ := buildPool_ok hpool
    have hnat : ¬ i < 0 := by omega
    obtain ⟨t', ht', rfl⟩ : ∃ t', parseAddressType (argument argv "type") = .ok t' ∧
        h = { wiring, personalCode := envCode, addressType := t' } := by
      unfold start at hstart
      cases ht' : parseAddressType (argument argv "type") with
      | error e =>
        rw [ht'] at hstart
        cases hstart
      | ok t' =>
        rw [ht'] at hstart
        cases hstart
        exact ⟨t', rfl, rfl⟩
    have htypes := types_eq_iff htype ht'
    have hsame : poolRecord K identity personal t' i = .ok r ↔ given (argument argv "type") := by
      rw [← htypes]
      constructor
      · intro hother
        rw [← (poolRecord_ok hother).2, (poolRecord_ok hrec).2]
      · rintro rfl
        exact hrec
    refine ⟨r, hr, hindex, hunique, ?_, fun hallocate => ?_⟩
    · rw [← hsame, peek, hactive]
      simp only [bind, Except.bind]
      rw [hreceiver]
      dsimp only
      rw [if_neg hnat]
      rfl
    · rw [← hsame, next, hactive]
      simp only [bind, Except.bind]
      rw [hreceiver, hallocate]
      rfl

section Sample

def sampleKeys : Keys Unit where
  paymentCode _ := "PM8TStore"
  paymentAddress _ _ _ i type := .ok (type.text ++ toString i)
  sign _ text := .ok text

def sampleIdentity : Identity Unit := ⟨(), "bitcoin"⟩

def sampleArgv (type : List String) : List String :=
  ["node", "pool.mjs", "--personal", "PM8TPersonal", "--count", "1"] ++ type

def sampleNumber (text : String) : Option Int := [("0", 0), ("1", 1)].lookup text

def samplePool (type : List String) : Except Shop.Fault AddressPool :=
  generate sampleKeys sampleNumber (sampleArgv type) none "" sampleIdentity

def sampleHandler (type : AddressType) : Handler Unit Unit :=
  ⟨.wallet sampleIdentity (), some "PM8TPersonal", type⟩

theorem pool_record_iff_sample : ∃ pool, samplePool ["--type", "p2sh"] = .ok pool ∧
    ∃ r ∈ pool.addresses, r.index = 0 ∧ (sampleHandler .p2sh).peek sampleKeys (some 0) = .ok r := by
  have hbounds : (samplePool ["--type", "p2sh"]).toOption.map (fun p => (p.start, p.count)) = some (0, 1) := by
    decide +kernel
  cases hpool : samplePool ["--type", "p2sh"] with
  | error e =>
    rw [hpool] at hbounds
    cases hbounds
  | ok pool =>
    rw [hpool] at hbounds
    obtain ⟨hstart, hcount⟩ := Prod.mk.inj (Option.some.inj hbounds)
    obtain ⟨r, hr, hindex, -, hpeek, -⟩ := pool_record_iff sampleKeys sampleNumber
      (sampleArgv ["--type", "p2sh"]) none (some "PM8TPersonal") "" "PM8TPersonal" sampleIdentity
      (.wallet sampleIdentity ()) () (fun _ => .ok 0) pool (sampleHandler .p2sh) hpool
      (by decide +kernel) rfl rfl (by decide +kernel) 0 (by omega) (by omega)
    exact ⟨pool, rfl, r, hr, hindex, hpeek.2 (by decide +kernel)⟩

/-- With no type set, the pool has the address of another chain than the gateway. -/
theorem pool_record_unset :
    ((samplePool []).toOption.map fun p => p.addresses.map fun r => (r.index, r.type, r.address)) =
        some [(0, .p2pkh, "p2pkh0")] ∧
      ((Handler.start none (.wallet sampleIdentity ()) (some "PM8TPersonal") >>= fun h =>
        h.peek sampleKeys (some 0)).toOption.map fun r => (r.index, r.type, r.address)) =
        some (0, .p2wpkh, "p2wpkh0") := by
  decide +kernel

end Sample

end Mise.Gateway
