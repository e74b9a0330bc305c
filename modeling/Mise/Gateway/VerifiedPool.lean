import Mathlib.Algebra.GroupWithZero.Nat
import Mathlib.Data.List.Perm.Subperm
import Mise.Gateway.SignedRecord

set_option autoImplicit true

namespace Mise.Gateway

open Js

/-! What the check of a pool file accepts, and what of a complete pool it looks at. -/

/-- Whether `has` takes two values for the same. Each object that is read from a file is another. -/
def sameValueZero : Option Json → Option Json → Bool
  | none, none | some .null, some .null => true
  | some (.bool a), some (.bool b) => a = b
  | some (.num t), some (.num u) => t = u
  | some (.str s), some (.str t) => s = t
  | _, _ => false

/-- What `for (const rec of v)` goes through. -/
def elements : Json → Except Throw (List Json)
  | .arr vs => .ok vs
  | .str s => .ok (s.toList.map fun c => .str (String.singleton c))
  | _ => .error .typeError

/-- `v.length` of a list or a text. -/
def lengthOf : Json → Nat
  | .arr vs => vs.length
  | .str s => (s.toList.map units).sum
  | _ => 0

/-- `rec?.index` -/
def indexOf : Json → Option Json
  | .obj fields => fields.lookup "index"
  | _ => none

structure PoolReport where
  ok : Bool
  checked : Nat
  problems : List String

/-- What the check of a pool knows after some of its records. -/
structure PoolCheck where
  seen : List (Option Json) := []
  problems : List String := []

/-- `pool.addresses || []` -/
def poolAddresses (pool : List (String × Json)) : Json :=
  ((pool.lookup "addresses").filter Json.truthy).getD (.arr [])

section Verify

variable (V : Verifier) (expectedPaymentCode : String)

/-- What is wrong with a record by itself. -/
def recordProblems (rec : Json) : Except Throw (List String) := do
  match ← V.verifySignedAddress rec expectedPaymentCode with
  | .ok () => return []
  | .error e => return ["index " ++ (← propertyKey (indexOf rec)) ++ ": " ++ e]

/-- What is wrong with a record after others. One that is `null` has no index to name. -/
def repeatProblems (seen : List (Option Json)) (rec : Json) : Except Throw (List String) :=
  if seen.any (sameValueZero · (indexOf rec)) then do
    return ["index " ++ (← propertyKey (← rec.get "index")) ++ " appears twice"]
  else .ok []

def checkRecord (s : PoolCheck) (rec : Json) : Except Throw PoolCheck := do
  let record ← recordProblems V expectedPaymentCode rec
  let twice ← repeatProblems s.seen rec
  return { seen := s.seen ++ [indexOf rec], problems := s.problems ++ record ++ twice }

def verifyPool (pool : Json) : Except Throw PoolReport :=
  match pool with
  | .obj fields =>
    if !isNumber "1" (fields.lookup "v") then .ok ⟨false, 0, ["not a v1 pool file"]⟩
    else if !isText expectedPaymentCode (fields.lookup "paymentCode") then
      .ok ⟨false, 0, ["this pool was signed by a different store"]⟩
    else do
      let recs ← elements (poolAddresses fields)
      let s ← recs.foldlM (checkRecord V expectedPaymentCode) {}
      return ⟨s.problems = [], lengthOf (poolAddresses fields), s.problems⟩
  | _ => .ok ⟨false, 0, ["not a v1 pool file"]⟩

end Verify

section Accepted

variable {V : Verifier} {expected : String}

/-- No two of the indices are the same. -/
def Distinct (indices : List (Option Json)) : Prop :=
  indices.Pairwise fun i j => sameValueZero i j = false

def Verifies (V : Verifier) (expected : String) (rec : Json) : Prop :=
  V.verifySignedAddress rec expected = .ok (.ok ())

theorem recordProblems_nil {rec : Json} :
    recordProblems V expected rec = .ok [] ↔ Verifies V expected rec := by
  unfold recordProblems Verifies
  cases V.verifySignedAddress rec expected with
  | error e => exact ⟨fun h => (by cases h), fun h => (by cases h)⟩
  | ok v =>
    cases v with
    | ok u => exact ⟨fun _ => rfl, fun _ => rfl⟩
    | error e =>
      constructor
      · intro h
        cases hk : propertyKey (indexOf rec) with
        | error e =>
          simp only [bind, Except.bind, hk] at h
          cases h
        | ok k =>
          simp only [bind, Except.bind, hk] at h
          cases h
      · intro h
        cases h

theorem repeatProblems_nil {seen : List (Option Json)} {rec : Json} :
    repeatProblems seen rec = .ok [] ↔ ∀ i ∈ seen, sameValueZero i (indexOf rec) = false := by
  unfold repeatProblems
  by_cases h : seen.any (sameValueZero · (indexOf rec)) = true
  · rw [if_pos h]
    obtain ⟨i, hi, hsame⟩ := List.any_eq_true.1 h
    constructor
    · intro hnil
      simp only [bind, Except.bind] at hnil
      split at hnil
      · cases hnil
      · split at hnil
        · cases hnil
        · cases hnil
    · intro hall
      rw [hall i hi] at hsame
      cases hsame
  · rw [if_neg h]
    simpa using h

/-- A record adds its index, and no problem exactly if it verifies and its index is new. -/
theorem checkRecord_good {s t : PoolCheck} {rec : Json} :
    (checkRecord V expected s rec = .ok t ∧ t.problems = []) ↔
      s.problems = [] ∧ Verifies V expected rec ∧
        (∀ i ∈ s.seen, sameValueZero i (indexOf rec) = false) ∧
        t = { seen := s.seen ++ [indexOf rec], problems := [] } := by
  rw [← recordProblems_nil, ← repeatProblems_nil]
  unfold checkRecord
  cases hr : recordProblems V expected rec with
  | error e => exact ⟨fun h => (by cases h.1), fun h => (by cases h.2.1)⟩
  | ok a =>
    cases hb : repeatProblems s.seen rec with
    | error e => exact ⟨fun h => (by cases h.1), fun h => (by cases h.2.2.1)⟩
    | ok b =>
      constructor
      · rintro ⟨h, hnil⟩
        cases h
        obtain ⟨hsa, rfl⟩ := List.append_eq_nil_iff.1 hnil
        obtain ⟨hs, rfl⟩ := List.append_eq_nil_iff.1 hsa
        exact ⟨hs, rfl, rfl, by rw [hs]; rfl⟩
      · rintro ⟨hs, ha, hb, rfl⟩
        cases ha
        cases hb
        rw [hs]
        exact ⟨rfl, rfl⟩

/-- A run finds no problem exactly if every record verifies, and no index is there twice. -/
theorem checkRecords_good {recs : List Json} {s : PoolCheck} :
    (∃ t, recs.foldlM (checkRecord V expected) s = .ok t ∧ t.problems = []) ↔
      s.problems = [] ∧ (∀ rec ∈ recs, Verifies V expected rec) ∧ Distinct (recs.map indexOf) ∧
        ∀ i ∈ s.seen, ∀ rec ∈ recs, sameValueZero i (indexOf rec) = false := by
  induction recs generalizing s with
  | nil =>
    constructor
    · rintro ⟨t, ht, hnil⟩
      cases ht
      exact ⟨hnil, by simp, .nil, by simp⟩
    · intro h
      exact ⟨s, rfl, h.1⟩
  | cons rec recs ih =>
    rw [List.foldlM_cons]
    constructor
    · rintro ⟨u, hu, hnil⟩
      cases ht : checkRecord V expected s rec with
      | error e =>
        rw [ht] at hu
        cases hu
      | ok t =>
        rw [ht] at hu
        obtain ⟨hproblems, hverify, hdistinct, hseen⟩ := ih.1 ⟨u, hu, hnil⟩
        obtain ⟨hs, hrec, hnew, rfl⟩ := checkRecord_good.1 ⟨ht, hproblems⟩
        refine ⟨hs, List.forall_mem_cons.2 ⟨hrec, hverify⟩, ?_, ?_⟩
        · refine List.pairwise_cons.2 ⟨?_, hdistinct⟩
          intro i hi
          obtain ⟨r, hr, rfl⟩ := List.mem_map.1 hi
          exact hseen _ (by simp) r hr
        · intro i hi
          refine List.forall_mem_cons.2 ⟨hnew i hi, ?_⟩
          exact hseen i (List.mem_append_left _ hi)
    · rintro ⟨hs, hverify, hdistinct, hseen⟩
      obtain ⟨hrec, hverify⟩ := List.forall_mem_cons.1 hverify
      obtain ⟨hfirst, hdistinct⟩ := List.pairwise_cons.1 hdistinct
      have hnew : ∀ i ∈ s.seen, sameValueZero i (indexOf rec) = false := by
        intro i hi
        exact hseen i hi rec List.mem_cons_self
      obtain ⟨ht, -⟩ := checkRecord_good.2 ⟨hs, hrec, hnew, rfl⟩
      rw [ht]
      refine ih.2 ⟨rfl, hverify, hdistinct, ?_⟩
      intro i hi r hr
      obtain hi | hi := List.mem_append.1 hi
      · exact hseen i hi r (List.mem_cons_of_mem _ hr)
      · rw [List.mem_singleton.1 hi]
        exact hfirst _ (List.mem_map_of_mem hr)

/-- What the check looks at: a pool of the code, whose records verify and have an index each. -/
def Checked (V : Verifier) (expected : String) (pool : Json) : Prop :=
  ∃ fields recs, pool = .obj fields ∧ isNumber "1" (fields.lookup "v") = true ∧
    isText expected (fields.lookup "paymentCode") = true ∧
    elements (poolAddresses fields) = .ok recs ∧
    (∀ rec ∈ recs, Verifies V expected rec) ∧ Distinct (recs.map indexOf)

def Accepts (V : Verifier) (expected : String) (pool : Json) : Prop :=
  ∃ report, verifyPool V expected pool = .ok report ∧ report.ok = true

theorem accepts_iff {pool : Json} : Accepts V expected pool ↔ Checked V expected pool := by
  have hother : verifyPool V expected pool = .ok ⟨false, 0, ["not a v1 pool file"]⟩ →
      ¬ Accepts V expected pool := by
    intro hv ⟨report, hreport, hok⟩
    rw [hv] at hreport
    cases hreport
    cases hok
  cases pool with
  | obj fields =>
    constructor
    · rintro ⟨report, hreport, hok⟩
      unfold verifyPool at hreport
      dsimp only at hreport
      cases hv : isNumber "1" (fields.lookup "v") with
      | false =>
        rw [hv] at hreport
        cases hreport
        cases hok
      | true =>
        cases hcode : isText expected (fields.lookup "paymentCode") with
        | false =>
          rw [hv, hcode] at hreport
          cases hreport
          cases hok
        | true =>
          cases helements : elements (poolAddresses fields) with
          | error e =>
            rw [hv, hcode, helements] at hreport
            cases hreport
          | ok recs =>
            cases hrun : recs.foldlM (checkRecord V expected) {} with
            | error e =>
              simp only [hv, hcode, helements, bind, Except.bind, hrun] at hreport
              cases hreport
            | ok s =>
              simp only [hv, hcode, helements, bind, Except.bind, hrun] at hreport
              cases hreport
              obtain ⟨-, hverify, hdistinct, -⟩ :=
                checkRecords_good.1 ⟨s, hrun, of_decide_eq_true hok⟩
              exact ⟨fields, recs, rfl, hv, hcode, helements, hverify, hdistinct⟩
    · rintro ⟨fields, recs, hobj, hv, hcode, helements, hverify, hdistinct⟩
      cases hobj
      obtain ⟨s, hrun, hnil⟩ := (checkRecords_good (s := {})).2 ⟨rfl, hverify, hdistinct, by simp⟩
      refine ⟨⟨s.problems = [], lengthOf (poolAddresses fields), s.problems⟩, ?_, ?_⟩
      · unfold verifyPool
        simp only [hv, hcode, helements, bind, Except.bind, hrun]
        rfl
      · exact decide_eq_true hnil
  | null => exact ⟨fun h => absurd h (hother rfl), fun ⟨_, _, h, _⟩ => (by cases h)⟩
  | bool b => exact ⟨fun h => absurd h (hother rfl), fun ⟨_, _, h, _⟩ => (by cases h)⟩
  | num t => exact ⟨fun h => absurd h (hother rfl), fun ⟨_, _, h, _⟩ => (by cases h)⟩
  | str s => exact ⟨fun h => absurd h (hother rfl), fun ⟨_, _, h, _⟩ => (by cases h)⟩
  | arr vs => exact ⟨fun h => absurd h (hother rfl), fun ⟨_, _, h, _⟩ => (by cases h)⟩

end Accepted

section Complete

theorem toString_int_injective {i j : Int} (h : toString i = toString j) : i = j := by
  have hsign : ∀ m n : Nat, "-" ++ toString m ≠ toString n := by
    intro m n hmn
    have hd : ∀ c ∈ (toString n).toList, c.isDigit := digits_nat n
    rw [← hmn, String.toList_append] at hd
    exact absurd (hd '-' (by simp)) (by decide)
  rw [Int.toString_eq_repr, Int.toString_eq_repr, Int.repr_eq_if, Int.repr_eq_if] at h
  split at h
  · split at h
    · have hnat := toString_nat_injective h
      omega
    · exact absurd h.symm (hsign _ _)
  · split at h
    · exact absurd h (hsign _ _)
    · have hnat := toString_nat_injective (String.append_right_inj _ |>.1 h)
      omega

/-- The indices from `start` to `start + count - 1`. -/
def poolIndices (start count : Int) : List (Option Json) :=
  (List.range count.toNat).map fun k : Nat => some (.num (toString (start + k)))

theorem mem_poolIndices : i ∈ poolIndices start count ↔
    ∃ n : Int, start ≤ n ∧ n < start + count ∧ i = some (.num (toString n)) := by
  unfold poolIndices
  constructor
  · intro h
    obtain ⟨k, hk, rfl⟩ := List.mem_map.1 h
    have hk := List.mem_range.1 hk
    exact ⟨start + k, by omega, by omega, rfl⟩
  · rintro ⟨n, hlo, hhi, rfl⟩
    refine List.mem_map.2 ⟨(n - start).toNat, List.mem_range.2 (by omega), ?_⟩
    have hn : start + ((n - start).toNat : Int) = n := by omega
    rw [hn]

theorem distinct_poolIndices (start count : Int) : Distinct (poolIndices start count) := by
  refine List.pairwise_map.2 (List.nodup_range.imp ?_)
  intro a b hne
  refine decide_eq_false ?_
  intro h
  have hab := toString_int_injective h
  omega

theorem sameValueZero_comm (i j : Option Json) : sameValueZero i j = sameValueZero j i := by
  cases i with
  | none =>
    cases j with
    | none => rfl
    | some w => cases w <;> rfl
  | some v =>
    cases j with
    | none => cases v <;> rfl
    | some w => cases v <;> cases w <;> simp [sameValueZero, eq_comm]

theorem Distinct.perm {l l' : List (Option Json)} (h : Distinct l) (hp : l.Perm l') : Distinct l' := by
  refine (hp.pairwise_iff ?_).1 h
  intro i j hij
  rw [sameValueZero_comm, hij]

theorem Distinct.nodup {l : List (Option Json)} (h : Distinct l)
    (hnum : ∀ i ∈ l, ∃ t, i = some (.num t)) : l.Nodup := by
  refine List.Pairwise.imp_of_mem ?_ h
  rintro i j hi - hij rfl
  obtain ⟨t, rfl⟩ := hnum i hi
  exact absurd rfl (of_decide_eq_false hij)

/-- The records of a pool file, and what its other properties say of them. -/
structure Declares (fields : List (String × Json)) (recs : List Json) (start count : Int)
    (type network : Json) : Prop where
  addresses : fields.lookup "addresses" = some (.arr recs)
  start : fields.lookup "start" = some (.num (toString start))
  count : fields.lookup "count" = some (.num (toString count))
  type : fields.lookup "type" = some type
  network : fields.lookup "network" = some network

/-- The record is of the type and the network. -/
def OfKind (type network rec : Json) : Prop :=
  rec.get "type" = .ok (some type) ∧ rec.get "network" = .ok (some network)

/-- A pool of the code with one verifying record for each of its indices and no others. -/
def Complete (V : Verifier) (expected : String) (pool : Json) : Prop :=
  ∃ fields recs start count type network, pool = .obj fields ∧
    isNumber "1" (fields.lookup "v") = true ∧
    isText expected (fields.lookup "paymentCode") = true ∧
    Declares fields recs start count type network ∧
    (recs.map indexOf).Perm (poolIndices start count) ∧
    ∀ rec ∈ recs, Verifies V expected rec ∧ OfKind type network rec

/-- What the check does not look at: as many records as the pool says, each with an index between its
bounds and of its type and network. -/
def Counted (pool : Json) : Prop :=
  ∃ fields recs start count type network, pool = .obj fields ∧
    Declares fields recs start count type network ∧ recs.length = count.toNat ∧
    ∀ rec ∈ recs, OfKind type network rec ∧
      ∃ n : Int, start ≤ n ∧ n < start + count ∧ indexOf rec = some (.num (toString n))

theorem elements_declared {fields : List (String × Json)}
    (h : fields.lookup "addresses" = some (.arr recs)) :
    elements (poolAddresses fields) = .ok recs := by
  rw [poolAddresses, h]
  rfl

theorem Complete.checked {V : Verifier} {pool : Json} (h : Complete V expected pool) :
    Checked V expected pool := by
  obtain ⟨fields, recs, start, count, type, network, rfl, hv, hcode, hdeclares, hperm, hall⟩ := h
  refine ⟨fields, recs, rfl, hv, hcode, elements_declared hdeclares.addresses, ?_, ?_⟩
  · intro rec hrec
    exact (hall rec hrec).1
  · exact (distinct_poolIndices start count).perm hperm.symm

theorem Complete.counted {V : Verifier} {pool : Json} (h : Complete V expected pool) :
    Counted pool := by
  obtain ⟨fields, recs, start, count, type, network, rfl, -, -, hdeclares, hperm, hall⟩ := h
  refine ⟨fields, recs, start, count, type, network, rfl, hdeclares, ?_, ?_⟩
  · have hlen := hperm.length_eq
    simpa [poolIndices] using hlen
  · intro rec hrec
    have hmem : indexOf rec ∈ poolIndices start count :=
      hperm.mem_iff.1 (List.mem_map_of_mem hrec)
    exact ⟨(hall rec hrec).2, mem_poolIndices.1 hmem⟩

/-- Distinct indices between the bounds, as many as there are, are all of them. -/
theorem Counted.complete {V : Verifier} {pool : Json} (h : Counted pool)
    (hc : Checked V expected pool) : Complete V expected pool := by
  obtain ⟨fields, recs, start, count, type, network, rfl, hdeclares, hlen, hall⟩ := h
  obtain ⟨fields', recs', hobj, hv, hcode, helements, hverify, hdistinct⟩ := hc
  cases hobj
  rw [elements_declared hdeclares.addresses] at helements
  cases helements
  have hnodup : (recs.map indexOf).Nodup := by
    apply hdistinct.nodup
    intro i hi
    obtain ⟨rec, hrec, rfl⟩ := List.mem_map.1 hi
    obtain ⟨-, n, -, -, hn⟩ := hall rec hrec
    exact ⟨_, hn⟩
  have hsub : recs.map indexOf ⊆ poolIndices start count := by
    intro i hi
    obtain ⟨rec, hrec, rfl⟩ := List.mem_map.1 hi
    exact mem_poolIndices.2 (hall rec hrec).2
  have hperm : (recs.map indexOf).Perm (poolIndices start count) := by
    apply (hnodup.subperm hsub).perm_of_length_le
    rw [poolIndices, List.length_map, List.length_map, List.length_range, hlen]
  refine ⟨fields, recs, start, count, type, network, rfl, hv, hcode, hdeclares, hperm, ?_⟩
  intro rec hrec
  exact ⟨hverify rec hrec, (hall rec hrec).1⟩

/-- The check accepts exactly the complete pools as far as it looks: it refuses each of the others
exactly if something that it looks at is wrong with it. -/
theorem accepts_complete_iff (V : Verifier) (expected : String) (pool : Json) :
    (Accepts V expected pool ↔ Complete V expected pool) ↔
      ¬ Checked V expected pool ∨ Counted pool := by
  rw [accepts_iff]
  constructor
  · intro h
    by_cases hc : Checked V expected pool
    · exact .inr (h.1 hc).counted
    · exact .inl hc
  · intro h
    refine ⟨fun hc => ?_, Complete.checked⟩
    exact (h.resolve_left (not_not_intro hc)).complete hc

theorem canonicalText_signed (r : AddressRecord) (signed : Json) :
    canonicalText (r.fields ++ [("signed", signed)]) = canonicalAddress r := by
  simp [canonicalText, canonicalAddress, recordKeys, AddressRecord.fields, Table.lookup_cons]

def poolEntry (address : String) (index : Int) : AddressRecord where
  address := address
  index := index
  type := .p2pkh
  network := .str "bitcoin"
  paymentCode := "PM8T"

def signedFields (x : String × Int) : List (String × Json) :=
  (poolEntry x.1 x.2).fields ++ [("signed", .str ("H" ++ x.1))]

def signedEntry (x : String × Int) : Json := .obj (signedFields x)

/-- It knows one code, and the texts that were signed with the two signatures. -/
def poolVerifier : Verifier where
  notificationAddress _ code := if code = "PM8T" then .ok "1Store" else .error "Invalid payment code"
  verify text address signature := .ok (decide (address = "1Store") &&
    [("1a", 0), ("1b", 1)].any fun x =>
      isText ("H" ++ x.1) signature && decide (text = canonicalAddress (poolEntry x.1 x.2)))

/-- A pool file of two addresses, with the records that are left of it. -/
def poolFields (addresses : List Json) : List (String × Json) :=
  [("v", .num "1"), ("paymentCode", .str "PM8T"), ("type", .str "p2pkh"),
    ("network", .str "bitcoin"), ("start", .num "0"), ("count", .num "2"),
    ("generated_at", .str "2026-01-01T00:00:00.000Z"), ("addresses", .arr addresses)]

theorem signedEntry_verifies (h : x ∈ [("1a", 0), ("1b", 1)]) :
    Verifies poolVerifier "PM8T" (signedEntry x) := by
  have hv : isNumber "1" ((signedFields x).lookup "v") = true := by
    change decide (toString 1 = "1") = true
    decide +kernel
  have hcode : isText "PM8T" ((signedFields x).lookup "paymentCode") = true := rfl
  have hsigned : (signedFields x).lookup "signed" = some (.str ("H" ++ x.1)) := rfl
  have haddress : poolVerifier.addressOf "PM8T"
      ((((signedFields x).lookup "network").filter Json.truthy).getD (.str "bitcoin")) =
      .ok "1Store" := rfl
  refine Verifier.verifySignedAddress_signed hv (by decide) hcode haddress ?_
  have hany : [("1a", (0 : Int)), ("1b", 1)].any (fun y =>
      isText ("H" ++ y.1) (some (.str ("H" ++ x.1))) &&
        decide (canonicalAddress (poolEntry x.1 x.2) = canonicalAddress (poolEntry y.1 y.2))) = true := by
    rw [List.any_eq_true]
    exact ⟨x, h, by simp [isText]⟩
  rw [signedFields, canonicalText_signed, ← signedFields, hsigned]
  simp only [poolVerifier, hany]
  rfl

theorem poolFields_declare (recs : List Json) :
    Declares (poolFields recs) recs 0 2 (.str "p2pkh") (.str "bitcoin") :=
  ⟨rfl, rfl, rfl, rfl, rfl⟩

/-- A pool that has lost its last record is accepted. -/
theorem truncated_pool_accepted :
    Complete poolVerifier "PM8T" (.obj (poolFields [signedEntry ("1a", 0), signedEntry ("1b", 1)])) ∧
      Accepts poolVerifier "PM8T" (.obj (poolFields [signedEntry ("1a", 0)])) ∧
      ¬ Complete poolVerifier "PM8T" (.obj (poolFields [signedEntry ("1a", 0)])) := by
  refine ⟨?_, accepts_iff.2 ?_, ?_⟩
  · refine ⟨_, _, 0, 2, _, _, rfl, rfl, rfl, poolFields_declare _, .refl _, ?_⟩
    intro rec hrec
    simp only [List.mem_cons, List.not_mem_nil, or_false] at hrec
    obtain rfl | rfl := hrec
    · exact ⟨signedEntry_verifies (by simp), rfl, rfl⟩
    · exact ⟨signedEntry_verifies (by simp), rfl, rfl⟩
  · refine ⟨_, _, rfl, rfl, rfl, elements_declared (poolFields_declare _).addresses, ?_, ?_⟩
    · intro rec hrec
      rw [List.mem_singleton.1 hrec]
      exact signedEntry_verifies (by simp)
    · exact List.pairwise_singleton _ _
  · intro h
    obtain ⟨fields, recs, start, count, type, network, hobj, hdeclares, hlen, -⟩ := h.counted
    cases hobj
    have hrecs := hdeclares.addresses
    have hcount := hdeclares.count
    rw [(poolFields_declare _).addresses] at hrecs
    rw [(poolFields_declare _).count] at hcount
    cases hrecs
    have htwo := toString_int_injective (Json.num.inj (Option.some.inj hcount))
    rw [← htwo] at hlen
    exact absurd hlen (by decide)

end Complete

end Mise.Gateway
