import Mise.Js.Replace
import Mise.Server.Badge
import Mise.Server.RepairedBlock

set_option autoImplicit true

namespace Mise.Server

open Js

/-- `RESOLVERS` -/
def resolvers : List String := ["cloudflare-dns.com", "dns.quad9.net", "dns.google"]

/-- The resolvers that `DOH_RESOLVERS` leaves. -/
def resolverList (only : String) : List String :=
  if trim only = "" then resolvers
  else
    let wanted := ((only.toList.splitOn ',').map fun s => trim (String.ofList s)).filter (· ≠ "")
    resolvers.filter (· ∈ wanted)

/-- What stands between quotes, put together; `some` of what has been read since an opening one. -/
def unquoteFrom : Option Text → Text → Text
  | _, [] => []
  | none, c :: s => if c = '"' then unquoteFrom (some []) s else unquoteFrom none s
  | some read, c :: s =>
    if c = '"' then read ++ unquoteFrom none s else unquoteFrom (some (read ++ [c])) s

/-- A record, of the data that an answer has for it. -/
def txtData (data : String) : String :=
  trim (if '"' ∈ data.toList then String.ofList (unquoteFrom none data.toList) else data)

/-- `v === n`, of a number by the text that it has. -/
def isNumber (n : String) : Option Json → Bool
  | some (.num t) => t == n
  | _ => false

/-- The record of an answer, where it is one of TXT. -/
def txtAnswer (a : Json) : Except Throw (Option String) := do
  if !a.truthy then return none
  let type ← a.get "type"
  if isNumber "16" type || type.isNone then return orNull (txtData (← (orEmpty (← a.get "data")).text))
  else return none

section Lookup

variable (numberText : String → String)

def parseTxtAnswer (json : String) : Except Throw (Option (List String)) := do
  match parse numberText json with
  | some (.obj fields) =>
    let status := fields.lookup "Status"
    if isNumber "3" status then return some []
    else if isNumber "0" status then
      match fields.lookup "Answer" with
      | some (.arr answers) => return some ((← answers.mapM txtAnswer).filterMap id)
      | _ => return some []
    else return none
  | _ => return none

/-- What a resolver has said in its reply, or why that is of no use. -/
def resolverAnswer (reply : Except String String) : Except String (List String) := do
  match parseTxtAnswer numberText (← reply) with
  | .ok (some records) => return records
  | .ok none => throw "resolver returned no usable answer"
  | .error .typeError => throw "Cannot convert object to primitive value"

/-- `lookupTxt`, where each resolver replies with a body, or does not. -/
def lookupTxt (only : String) (reply : String → Except String String) : TxtLookup where
  byResolver := (resolverList only).filterMap fun host => (resolverAnswer numberText (reply host)).toOption
  errors := (resolverList only).filterMap fun host =>
    match resolverAnswer numberText (reply host) with
    | .ok _ => none
    | .error e => some (host ++ ": " ++ (orNull e).getD "failed")

end Lookup

/-- `CLAIM_VERSION` -/
def claimVersion : Text := "mise-domain-v1".toList

def txtValue (paymentCode : String) : String := String.ofList (claimVersion ++ " pm=".toList ++ paymentCode.toList)

/-- `.replace(/^"|"$/g, "")` -/
def stripQuotes (s : Text) : Text :=
  let s := if s.head? = some '"' then s.tail else s
  if s.getLast? = some '"' then s.dropLast else s

/-- `.replace(/\s+/g, " ")`, after a space of the same run or not. -/
def squeezeSpaces : Bool → Text → Text
  | _, [] => []
  | run, c :: s =>
    if isSpace c then (if run then squeezeSpaces true s else ' ' :: squeezeSpaces true s)
    else c :: squeezeSpaces false s

/-- What `/\bpm=(PM8T[1-9A-HJ-NP-Za-km-z]+)/` finds, after a character. -/
def codeIn : Option Char → Text → Option Text
  | _, [] => none
  | before, c :: s =>
    let word := ((c :: s).drop 7).takeWhile isBase58
    if !before.any isWord && "pm=PM8T".toList.isPrefixOf (c :: s) && word ≠ [] then
      some ("PM8T".toList ++ word)
    else codeIn (some c) s

def txtMatches (record paymentCode : String) : Bool :=
  let r := squeezeSpaces false (stripQuotes (trim record).toList)
  claimVersion.isPrefixOf r && codeIn none r = some paymentCode.toList

section Records

variable {s w code : Text}

/-- The data of a record that is sent in parts. -/
def dataOf (parts : List Text) : Text := [' '].intercalate (parts.map fun part => '"' :: (part ++ ['"']))

theorem unquoteFrom_part {part : Text} (h : '"' ∉ part) (read rest : Text) :
    unquoteFrom (some read) (part ++ '"' :: rest) = read ++ part ++ unquoteFrom none rest := by
  induction part generalizing read with
  | nil =>
    rw [List.nil_append, unquoteFrom, if_pos rfl, List.append_nil]
  | cons c part ih =>
    have hc : c ≠ '"' := fun hc => h (hc ▸ List.mem_cons_self)
    rw [List.cons_append, unquoteFrom, if_neg hc, ih fun hm => h (List.mem_cons_of_mem c hm),
      List.append_assoc read]
    rfl

theorem unquoteFrom_data {parts : List Text} (h : ∀ part ∈ parts, '"' ∉ part) :
    unquoteFrom none (dataOf parts) = parts.flatten := by
  induction parts with
  | nil => rfl
  | cons part parts ih =>
    have hpart := h part List.mem_cons_self
    have hrest := ih fun p hp => h p (List.mem_cons_of_mem part hp)
    cases parts with
    | nil =>
      have hone : dataOf [part] = '"' :: (part ++ '"' :: []) := List.intercalate_singleton
      rw [hone, unquoteFrom, if_pos rfl, unquoteFrom_part hpart]
      rfl
    | cons p parts =>
      have hcons : dataOf (part :: p :: parts) = '"' :: (part ++ '"' :: ' ' :: dataOf (p :: parts)) := by
        rw [dataOf, List.map_cons, List.map_cons, List.intercalate_cons_cons]
        simp [dataOf]
      have hspace : unquoteFrom none (' ' :: dataOf (p :: parts)) = unquoteFrom none (dataOf (p :: parts)) := by
        rw [unquoteFrom, if_neg (by decide)]
      rw [hcons, unquoteFrom, if_pos rfl, unquoteFrom_part hpart, hspace, hrest]
      rfl

theorem squeezeSpaces_word (h : ∀ c ∈ w, isSpace c = false) (run : Bool) (rest : Text) :
    squeezeSpaces run (w ++ rest) = w ++ squeezeSpaces (run && w.isEmpty) rest := by
  induction w generalizing run with
  | nil => rw [List.isEmpty_nil, Bool.and_true]; rfl
  | cons c w ih =>
    rw [List.cons_append, squeezeSpaces, if_neg, ih fun d hd => h d (List.mem_cons_of_mem c hd)]
    · simp
    · rw [h c List.mem_cons_self]
      exact Bool.false_ne_true

/-- A payment code, as a record of a claim has it. -/
def IsCode (code : Text) : Prop := ∃ w, code = "PM8T".toList ++ w ∧ w ≠ [] ∧ w.all isBase58 = true

theorem base58_char {c : Char} (h : isBase58 c = true) : isSpace c = false ∧ c ≠ '"' := by
  have halnum : c.isAlphanum = true := (Bool.and_eq_true_iff.1 h).1
  have hc := alphanum_all (fun c => !isSpace c && c != '"') (by decide +kernel) halnum
  simpa using hc

theorem txtValue_code (w : Text) : txtValue (String.ofList ("PM8T".toList ++ w)) =
    String.ofList ("mise-domain-v1 pm=PM8T".toList ++ w) := by
  have hcode : (String.ofList ("PM8T".toList ++ w)).toList = "PM8T".toList ++ w := String.toList_ofList
  rw [txtValue, hcode, ← List.append_assoc]
  rfl

theorem value_last (hne : w ≠ []) (hw : ∀ c ∈ w, isBase58 c = true) :
    ∀ c ∈ ("mise-domain-v1 pm=PM8T".toList ++ w).getLast?, isBase58 c = true := by
  intro c hc
  rw [List.getLast?_append_of_ne_nil _ hne] at hc
  exact hw c (List.mem_of_getLast? hc)

theorem value_ne (h : IsCode code) : txtValue (String.ofList code) ≠ "" := by
  obtain ⟨w, rfl, -, -⟩ := h
  rw [txtValue_code]
  intro he
  have hlist := congrArg String.toList he
  rw [String.toList_ofList] at hlist
  cases hlist

theorem trim_value (h : IsCode code) :
    trim (txtValue (String.ofList code)) = txtValue (String.ofList code) := by
  obtain ⟨w, rfl, hne, hall⟩ := h
  rw [txtValue_code]
  apply trim_self
  · intro c hc
    obtain rfl : 'm' = c := Option.some.inj hc
    decide
  · intro c hc
    rw [List.head?_reverse] at hc
    exact (base58_char (value_last hne (List.all_eq_true.1 hall) c hc)).1

theorem txtMatches_value (h : IsCode code) :
    txtMatches (txtValue (String.ofList code)) (String.ofList code) = true := by
  have htrim := trim_value h
  obtain ⟨w, rfl, hne, hall⟩ := h
  have hw : ∀ c ∈ w, isBase58 c = true := List.all_eq_true.1 hall
  have hfixed : "mise-domain-v1pm=PM8T".toList.all (!isSpace ·) = true := by
    decide
  have hplain : ∀ c ∈ "mise-domain-v1pm=PM8T".toList, isSpace c = false := by
    intro c hc
    simpa using List.all_eq_true.1 hfixed c hc
  have hword : ∀ c ∈ "pm=PM8T".toList ++ w, isSpace c = false := by
    intro c hc
    rcases List.mem_append.1 hc with hc | hc
    · exact hplain c (List.mem_append_right claimVersion hc)
    · exact (base58_char (hw c hc)).1
  have hquotes : stripQuotes ("mise-domain-v1 pm=PM8T".toList ++ w) =
      "mise-domain-v1 pm=PM8T".toList ++ w := by
    have hhead : ("mise-domain-v1 pm=PM8T".toList ++ w).head? ≠ some '"' := by
      change some 'm' ≠ some '"'
      decide
    rw [stripQuotes, if_neg hhead, if_neg]
    intro hq
    exact (base58_char (value_last hne hw '"' hq)).2 rfl
  have hspaces : squeezeSpaces false ("mise-domain-v1 pm=PM8T".toList ++ w) =
      "mise-domain-v1 pm=PM8T".toList ++ w := by
    have hversion : squeezeSpaces false (claimVersion ++ ' ' :: ("pm=PM8T".toList ++ w)) =
        claimVersion ++ squeezeSpaces false (' ' :: ("pm=PM8T".toList ++ w)) :=
      squeezeSpaces_word (fun c hc => hplain c (List.mem_append_left "pm=PM8T".toList hc)) false _
    have hrest := squeezeSpaces_word hword true []
    rw [List.append_nil, squeezeSpaces, List.append_nil] at hrest
    rw [squeezeSpaces, if_pos (by decide), if_neg Bool.false_ne_true, hrest] at hversion
    exact hversion
  have hcode : codeIn none ("mise-domain-v1 pm=PM8T".toList ++ w) = some ("PM8T".toList ++ w) := by
    have htake : w.takeWhile isBase58 = w := List.takeWhile_eq_self_iff.2 hw
    have hdrop : ('p' :: ("m=PM8T".toList ++ w)).drop 7 = w := rfl
    -- No character of the version starts a match, and the space before the code ends a word.
    change codeIn (some ' ') ('p' :: ("m=PM8T".toList ++ w)) = _
    rw [codeIn, hdrop, htake, if_pos]
    rw [Bool.and_eq_true, Bool.and_eq_true]
    exact ⟨⟨by decide, rfl⟩, decide_eq_true hne⟩
  have htext : (String.ofList ("mise-domain-v1 pm=PM8T".toList ++ w)).toList =
      "mise-domain-v1 pm=PM8T".toList ++ w := String.toList_ofList
  have hown : (String.ofList ("PM8T".toList ++ w)).toList = "PM8T".toList ++ w := String.toList_ofList
  rw [txtMatches, htrim, txtValue_code, htext, hown, hquotes, hspaces, hcode, Bool.and_eq_true]
  exact ⟨rfl, decide_eq_true rfl⟩

/-- A reply with a record for a code, which may be sent in parts, among records that are texts. -/
def Publishes (numberText : String → String) (reply : Except String String) (code : String) : Prop :=
  ∃ body fields answers record parts, reply = .ok body ∧
    parse numberText body = some (.obj fields) ∧ fields.lookup "Status" = some (.num "0") ∧
    fields.lookup "Answer" = some (.arr answers) ∧
    (∀ a ∈ answers, ∃ fields s, a = .obj fields ∧ fields.lookup "data" = some (.str s)) ∧
    .obj record ∈ answers ∧ record.lookup "type" = some (.num "16") ∧
    record.lookup "data" = some (.str (String.ofList (dataOf parts))) ∧
    (∀ part ∈ parts, '"' ∉ part) ∧ parts.flatten = (txtValue code).toList

/-- A resolver says that there is a record for a code. -/
def Sees (numberText : String → String) (reply : Except String String) (code : String) : Prop :=
  ∃ records, resolverAnswer numberText reply = .ok records ∧ ∃ r ∈ records, txtMatches r code = true

theorem orEmpty_str (t : String) : orEmpty (some (.str t)) = .str t := by
  rw [orEmpty]
  cases h : (Json.str t).truthy with
  | true => rfl
  | false =>
    have ht : t = "" := by simpa [Json.truthy] using h
    rw [ht]
    rfl

theorem txtAnswer_str {fields : List (String × Json)} {t : String}
    (hd : fields.lookup "data" = some (.str t)) : ∃ r, txtAnswer (.obj fields) = .ok r ∧
      (fields.lookup "type" = some (.num "16") → r = orNull (txtData t)) := by
  have hread : txtAnswer (.obj fields) =
      if isNumber "16" (fields.lookup "type") || (fields.lookup "type").isNone then
        .ok (orNull (txtData t))
      else .ok none := by
    have htext : (orEmpty (some (.str t))).text = .ok t := by
      rw [orEmpty_str]
      rfl
    rw [txtAnswer]
    simp only [Json.get, hd]
    change (if _ then ((orEmpty (some (.str t))).text.bind _) else _) = _
    rw [htext]
    rfl
  cases htype : isNumber "16" (fields.lookup "type") || (fields.lookup "type").isNone with
  | true =>
    rw [htype] at hread
    exact ⟨_, hread, fun _ => rfl⟩
  | false =>
    rw [htype] at hread
    refine ⟨none, hread, fun h => ?_⟩
    rw [h] at htype
    cases htype

theorem txtData_value (hcode : IsCode code) (h : ∀ part ∈ parts, '"' ∉ part)
    (hparts : parts.flatten = (txtValue (String.ofList code)).toList) :
    txtData (String.ofList (dataOf parts)) = txtValue (String.ofList code) := by
  have hquoted : '"' ∈ (String.ofList (dataOf parts)).toList := by
    rw [String.toList_ofList]
    cases parts with
    | nil => exact absurd (String.toList_eq_nil_iff.1 hparts.symm) (value_ne hcode)
    | cons part parts =>
      cases parts with
      | nil => exact List.mem_cons_self
      | cons p parts => exact List.mem_cons_self
  have hread : unquoteFrom none (String.ofList (dataOf parts)).toList =
      (txtValue (String.ofList code)).toList := by
    rw [String.toList_ofList, unquoteFrom_data h, hparts]
  rw [txtData, if_pos hquoted, hread, String.ofList_toList, trim_value hcode]

theorem sees_of_publishes {numberText : String → String} {reply : Except String String}
    (hcode : IsCode code) (h : Publishes numberText reply (String.ofList code)) :
    Sees numberText reply (String.ofList code) := by
  obtain ⟨body, fields, answers, record, parts, rfl, hbody, hstatus, hanswers, htexts, hrecord, htype,
    hdata, hquotes, hparts⟩ := h
  have hread : ∀ as : List Json, as ⊆ answers → ∃ rs, as.mapM txtAnswer = .ok rs ∧
      (.obj record ∈ as → some (txtValue (String.ofList code)) ∈ rs) := by
    intro as has
    induction as with
    | nil => exact ⟨[], rfl, fun hm => absurd hm List.not_mem_nil⟩
    | cons a as ih =>
      obtain ⟨rs, hrs, hmem⟩ := ih fun b hb => has (List.mem_cons_of_mem a hb)
      obtain ⟨fields, t, rfl, ht⟩ := htexts a (has List.mem_cons_self)
      obtain ⟨r, hr, hvalue⟩ := txtAnswer_str ht
      refine ⟨r :: rs, ?_, ?_⟩
      · rw [List.mapM_cons, hr, hrs]
        rfl
      · intro hm
        rcases List.mem_cons.1 hm with heq | hm
        · cases heq
          rw [ht] at hdata
          cases hdata
          rw [hvalue htype, txtData_value hcode hquotes hparts, orNull, if_neg (value_ne hcode)]
          exact List.mem_cons_self
        · exact List.mem_cons_of_mem r (hmem hm)
  obtain ⟨rs, hrs, hmem⟩ := hread answers (List.Subset.refl _)
  have hparse : parseTxtAnswer numberText body = .ok (some (rs.filterMap id)) := by
    simp only [parseTxtAnswer, hbody, hstatus, hanswers, hrs]
    rfl
  refine ⟨rs.filterMap id, ?_, txtValue (String.ofList code), ?_, txtMatches_value hcode⟩
  · rw [resolverAnswer]
    change (match parseTxtAnswer numberText body with
      | .ok (some records) => _ | .ok none => _ | .error .typeError => _) = _
    rw [hparse]
    rfl
  · exact List.mem_filterMap.2 ⟨_, hmem hrecord, rfl⟩

end Records

section Badge

/-- A check of a claim, with what each resolver replies to it. -/
structure Inquiry where
  onDemand : Bool
  reply : String → Except String String
  now : Int

variable (numberText : String → String) (only : String)

def Inquiry.check (k : Inquiry) : Check := ⟨k.onDemand, .ok (lookupTxt numberText only k.reply), k.now⟩

/-- Does a resolver say that there is a record for a code? -/
def seen (code : String) (reply : Except String String) : Bool :=
  (resolverAnswer numberText reply).toOption.any (·.any (txtMatches · code))

def repliedUsefully (reply : Except String String) : Bool := (resolverAnswer numberText reply).toOption.isSome

variable {numberText only}

theorem seen_iff {reply : Except String String} {code : String} :
    seen numberText code reply = true ↔ Sees numberText reply code := by
  unfold seen Sees
  cases resolverAnswer numberText reply with
  | error e => simp [Except.toOption]
  | ok records => simp [Except.toOption]

variable {R : DomainRules} {claim : DomainClaim} {reply : String → Except String String}

theorem length_answers : (lookupTxt numberText only reply).byResolver.length =
    (resolverList only).countP fun host => repliedUsefully numberText (reply host) :=
  List.length_filterMap_eq_countP

theorem length_seen (code : String) :
    ((lookupTxt numberText only reply).byResolver.filter (·.any (txtMatches · code))).length =
      (resolverList only).countP fun host => seen numberText code (reply host) := by
  rw [← List.countP_eq_length_filter, lookupTxt, List.countP_filterMap]
  apply List.countP_congr
  intro host _
  rw [seen]
  cases (resolverAnswer numberText (reply host)).toOption <;> rfl

theorem seen_le (code : String) :
    ((resolverList only).countP fun host => seen numberText code (reply host)) ≤
      (resolverList only).countP fun host => repliedUsefully numberText (reply host) := by
  apply List.countP_mono_left
  intro host _ hseen
  rw [seen] at hseen
  rw [repliedUsefully]
  cases h : (resolverAnswer numberText (reply host)).toOption with
  | none =>
    rw [h] at hseen
    cases hseen
  | some records => rfl

/-- The resolvers agree where enough of them see a record for the code. -/
theorem agreed_ok_iff {domain code : String} (hmatch : R.txtMatches = txtMatches) :
    (R.agreed domain code (lookupTxt numberText only reply)).ok = true ↔
      R.agreement ≤ (resolverList only).countP fun host => seen numberText code (reply host) := by
  have hle : _ ≤ (resolverList only).countP fun host => repliedUsefully numberText (reply host) := seen_le code
  rw [DomainRules.agreed, txtRecordAgreed, hmatch, length_answers, length_seen]
  split
  · next hfew =>
    constructor
    · intro h
      cases h
    · intro h
      omega
  · dsimp only
    split
    · next henough => exact ⟨fun _ => henough, fun _ => rfl⟩
    · next hfew =>
      constructor
      · intro h
        cases h
      · exact fun h => absurd h hfew

theorem agreed_inconclusive_iff {domain code : String} :
    (R.agreed domain code (lookupTxt numberText only reply)).inconclusive = true ↔
      (resolverList only).countP (fun host => repliedUsefully numberText (reply host)) < R.agreement := by
  rw [DomainRules.agreed, txtRecordAgreed, length_answers]
  split
  · next hfew => exact ⟨fun _ => hfew, fun _ => rfl⟩
  · next henough =>
    constructor
    · intro h
      dsimp only at h
      split at h <;> cases h
    · exact fun h => absurd h henough

theorem apply_kept (k : Check) : (k.apply R claim).paymentCode = claim.paymentCode ∧
    R.signatureError (k.apply R claim) = R.signatureError claim := by
  unfold Check.apply
  split
  · split
    · exact ⟨rfl, rfl⟩
    · exact ⟨rfl, rfl⟩
  · unfold DomainClaim.applyRecheck
    split
    · exact ⟨rfl, rfl⟩
    · split
      · exact ⟨rfl, rfl⟩
      · exact ⟨rfl, rfl⟩

theorem afterChecks_kept (R : DomainRules) (claim : DomainClaim) (ks : List Check) :
    (afterChecks R claim ks).paymentCode = claim.paymentCode ∧
    R.signatureError (afterChecks R claim ks) = R.signatureError claim := by
  induction ks with
  | nil => exact ⟨rfl, rfl⟩
  | cons k ks ih => exact ⟨(apply_kept k).1.trans ih.1, (apply_kept k).2.trans ih.2⟩

theorem sweep_check {k : Inquiry} (hk : k.onDemand = false) : (k.check numberText only).apply R claim =
    claim.applyRecheck R.grace
      (R.agreed claim.domain claim.paymentCode (lookupTxt numberText only k.reply)) k.now := by
  rw [Check.apply, Inquiry.check, if_neg (Bool.eq_false_iff.1 hk)]
  rfl

/-- A check gives a claim its badge where enough resolvers see the record only. -/
theorem verified_check (hmatch : R.txtMatches = txtMatches) {k : Inquiry}
    (h : ((k.check numberText only).apply R claim).verified = true) :
    claim.verified = true ∨ R.agreement ≤
      (resolverList only).countP fun host => seen numberText claim.paymentCode (k.reply host) := by
  suffices claim.verified = true ∨
      (R.agreed claim.domain claim.paymentCode (lookupTxt numberText only k.reply)).ok = true from
    this.imp_right (agreed_ok_iff hmatch).1
  cases hk : k.onDemand with
  | true =>
    cases hr : R.verification claim (.ok (lookupTxt numberText only k.reply)) with
    | error e =>
      rw [(onDemand_throws hk hr).1] at h
      exact .inl h
    | ok r =>
      rw [(onDemand_apply hk hr).1] at h
      have hok : r.ok = true := h
      rw [DomainRules.verification] at hr
      cases hs : R.signatureError claim with
      | some e =>
        rw [hs] at hr
        cases hr
        cases hok
      | none =>
        rw [hs] at hr
        cases hr
        rw [DomainRules.verifyDns] at hok
        split at hok
        · next hagreed => exact .inr hagreed
        · cases hok
  | false =>
    rw [sweep_check hk, sweep_verified, TxtAgreement.outcome] at h
    split at h
    · next hsuccess =>
      refine .inr ?_
      split at hsuccess
      · cases hsuccess
      · split at hsuccess
        · next hok => exact hok
        · cases hsuccess
    · exact .inl h
    · exact .inl (Bool.and_eq_true_iff.1 h).1

/-- A check in which enough resolvers see the record confirms the badge. -/
theorem check_verified (hmatch : R.txtMatches = txtMatches) {k : Inquiry}
    (hsig : k.onDemand = true → R.signatureError claim = none)
    (h : R.agreement ≤
      (resolverList only).countP fun host => seen numberText claim.paymentCode (k.reply host)) :
    ((k.check numberText only).apply R claim).verified = true := by
  have hok : (R.agreed claim.domain claim.paymentCode (lookupTxt numberText only k.reply)).ok = true :=
    (agreed_ok_iff hmatch).2 h
  cases hk : k.onDemand with
  | true =>
    have hr : R.verification claim (.ok (lookupTxt numberText only k.reply)) = .ok { ok := true } := by
      rw [DomainRules.verification, hsig hk]
      change Except.ok (R.verifyDns _ _ _) = _
      rw [DomainRules.verifyDns, if_pos hok]
    rw [(onDemand_apply hk hr).1]
    rfl
  | false =>
    have hinc : (R.agreed claim.domain claim.paymentCode
        (lookupTxt numberText only k.reply)).inconclusive = false := by
      rw [Bool.eq_false_iff]
      intro hinc
      have hfew := agreed_inconclusive_iff.1 hinc
      have hle : ((resolverList only).countP fun host => seen numberText claim.paymentCode (k.reply host)) ≤
          (resolverList only).countP fun host => repliedUsefully numberText (k.reply host) := seen_le _
      omega
    rw [sweep_check hk, sweep_verified, TxtAgreement.outcome, if_neg (Bool.eq_false_iff.1 hinc), if_pos hok]

variable (numberText only R claim)

/-- As many resolvers as have to agree publish the code, and on demand its signature is right. -/
def Confirms (k : Inquiry) : Prop :=
  (k.onDemand = true → R.signatureError claim = none) ∧
    ∃ hosts : List String, hosts.Sublist (resolverList only) ∧ R.agreement ≤ hosts.length ∧
      ∀ host ∈ hosts, Publishes numberText (k.reply host) claim.paymentCode

/-- The sweep gets too few answers to draw any conclusion. -/
def Inconclusive (k : Inquiry) : Prop :=
  k.onDemand = false ∧
    (resolverList only).countP (fun host => repliedUsefully numberText (k.reply host)) < R.agreement

variable {numberText only R claim}

theorem enough_seen (hcode : IsCode code) (hclaim : claim.paymentCode = String.ofList code) {k : Inquiry}
    (h : Confirms numberText only R claim k) : R.agreement ≤
      (resolverList only).countP fun host => seen numberText claim.paymentCode (k.reply host) := by
  obtain ⟨-, hosts, hsub, hlen, hpub⟩ := h
  have hall : hosts.countP (fun host => seen numberText claim.paymentCode (k.reply host)) =
      hosts.length := by
    rw [List.countP_eq_length]
    intro host hhost
    have hown := hpub host hhost
    rw [hclaim] at hown ⊢
    exact seen_iff.2 (sees_of_publishes hcode hown)
  rw [hall.symm] at hlen
  exact hlen.trans hsub.countP_le

/-- Some check found the record with as many resolvers as have to agree. -/
theorem verified_checks (hmatch : R.txtMatches = txtMatches) {ks : List Inquiry}
    (hclaim : claim.verified = false)
    (h : (afterChecks R claim (ks.map (·.check numberText only))).verified = true) :
    ∃ k ∈ ks, R.agreement ≤
      (resolverList only).countP fun host => seen numberText claim.paymentCode (k.reply host) := by
  induction ks with
  | nil => exact absurd (hclaim.symm.trans h) Bool.false_ne_true
  | cons k ks ih =>
    rw [List.map_cons, afterChecks] at h
    rcases verified_check hmatch h with h | h
    · obtain ⟨l, hl, hseen⟩ := ih h
      exact ⟨l, List.mem_cons_of_mem k hl, hseen⟩
    · rw [(afterChecks_kept R claim _).1] at h
      exact ⟨k, List.mem_cons_self, h⟩

/-- Checks that confirm the badge or come to no conclusion leave it. -/
theorem checks_keep (hmatch : R.txtMatches = txtMatches) (hcode : IsCode code)
    (hclaim : claim.paymentCode = String.ofList code) {later earlier : List Inquiry}
    (hv : (afterChecks R claim (earlier.map (·.check numberText only))).verified = true)
    (h : ∀ l ∈ later, Confirms numberText only R claim l ∨ Inconclusive numberText only R l) :
    (afterChecks R claim ((later ++ earlier).map (·.check numberText only))).verified = true := by
  induction later with
  | nil => exact hv
  | cons l later ih =>
    have ih := ih fun m hm => h m (List.mem_cons_of_mem l hm)
    rw [List.cons_append, List.map_cons, afterChecks]
    obtain ⟨hcodes, hsigned⟩ := afterChecks_kept R claim
      ((later ++ earlier).map (·.check numberText only))
    rcases h l List.mem_cons_self with hl | ⟨hsweep, hfew⟩
    · apply check_verified hmatch
      · intro hk
        rw [hsigned]
        exact hl.1 hk
      · rw [hcodes]
        exact enough_seen hcode hclaim hl
    · rw [sweep_check hsweep, sweep_verified, TxtAgreement.outcome, if_pos (agreed_inconclusive_iff.2 hfew)]
      exact ih

/-- While fewer resolvers lie than have to agree, a badge that is earned in the checks rests on what
an honest resolver has said, and a published code earns it whatever was before, and keeps it as long
as every further check sees it too, or gets too few answers. -/
theorem badge_of_lookups (R : DomainRules) (hmatch : R.txtMatches = txtMatches) (claim : DomainClaim)
    (hcode : IsCode code) (hclaim : claim.paymentCode = String.ofList code)
    (numberText : String → String) (only : String) (ks : List Inquiry) :
    (claim.verified = false → (afterChecks R claim (ks.map (·.check numberText only))).verified = true →
      ∀ honest : String → Bool, (resolverList only).countP (!honest ·) < R.agreement →
        ∃ k ∈ ks, ∃ host ∈ resolverList only, honest host = true ∧
          Sees numberText (k.reply host) claim.paymentCode) ∧
    (∀ later k earlier, ks = later ++ k :: earlier → Confirms numberText only R claim k →
      (∀ l ∈ later, Confirms numberText only R claim l ∨ Inconclusive numberText only R l) →
      (afterChecks R claim (ks.map (·.check numberText only))).verified = true) := by
  constructor
  · intro hnone hv honest hliars
    obtain ⟨k, hk, hseen⟩ := verified_checks hmatch hnone hv
    -- As many see the record as have to agree, and fewer lie.
    obtain ⟨host, hhost, hsees, hown⟩ : ∃ host ∈ resolverList only,
        seen numberText claim.paymentCode (k.reply host) = true ∧ honest host = true := by
      by_contra hno
      have hle : ((resolverList only).countP fun host => seen numberText claim.paymentCode (k.reply host)) ≤
          (resolverList only).countP (!honest ·) := by
        apply List.countP_mono_left
        intro host hhost hsees
        rw [Bool.not_eq_true', Bool.eq_false_iff]
        exact fun hown => hno ⟨host, hhost, hsees, hown⟩
      omega
    exact ⟨k, hk, host, hhost, hown, seen_iff.1 hsees⟩
  · rintro later k earlier rfl hk hlater
    apply checks_keep hmatch hcode hclaim ?_ hlater
    obtain ⟨hcodes, hsigned⟩ := afterChecks_kept R claim
      (earlier.map (·.check numberText only))
    rw [List.map_cons, afterChecks]
    apply check_verified hmatch
    · intro hdemand
      rw [hsigned]
      exact hk.1 hdemand
    · rw [hcodes]
      exact enough_seen hcode hclaim hk

end Badge

/-- An answer with the record of an operator, in two parts. -/
def ownerAnswer : List (String × Json) :=
  [("type", .num "16"), ("data", .str "\"mise-domain-v1 pm=\" \"PM8Towner\"")]

def ownerReply : List (String × Json) := [("Status", .num "0"), ("Answer", .arr [.obj ownerAnswer])]

def ownerReplies (host : String) : Except String String :=
  if host = "dns.google" then .error "timeout" else .ok (Json.obj ownerReply).stringify

/-- A sweep that two of the resolvers answer, and then one that none of them does. -/
def ownerSweeps : List Inquiry :=
  [⟨false, fun _ => .error "timeout", 86400 * 1000⟩, ⟨false, ownerReplies, 0⟩]

theorem ownerReply_parsed : (Json.obj ownerReply).Parsed id := by
  have hnumber : ∀ t ∈ ["16", "0"], Json.Number id t := by
    intro t ht
    rcases List.mem_cons.1 ht with rfl | ht
    · exact ⟨by decide, rfl⟩
    · rcases List.mem_singleton.1 ht with rfl
      exact ⟨by decide, rfl⟩
  refine ⟨properties_names (by decide) (by decide), fun _ => hnumber "0" (by decide), ⟨?_, trivial⟩, trivial⟩
  exact ⟨properties_names (by decide) (by decide), fun _ => hnumber "16" (by decide), trivial, trivial⟩

theorem ownerReply_publishes : Publishes id (.ok (Json.obj ownerReply).stringify) "PM8Towner" := by
  refine ⟨_, ownerReply, [.obj ownerAnswer], ownerAnswer, ["mise-domain-v1 pm=".toList, "PM8Towner".toList],
    rfl, ?_, rfl, rfl, ?_, List.mem_singleton_self _, rfl, rfl, by decide, by decide⟩
  · exact parse_stringify ownerReply_parsed
  · intro a ha
    rcases List.mem_singleton.1 ha with rfl
    exact ⟨ownerAnswer, _, rfl, rfl⟩

def ownerRules : DomainRules := { twoResolvers with txtMatches }

def ownerClaim : DomainClaim := { badge with verified := false }

theorem badge_of_lookups_owner :
    (∃ k ∈ ownerSweeps, ∃ host ∈ resolverList "", Sees id (k.reply host) ownerClaim.paymentCode) ∧
    (afterChecks ownerRules ownerClaim (ownerSweeps.map (·.check id ""))).verified = true := by
  have hcode : IsCode "PM8Towner".toList := ⟨"owner".toList, rfl, by decide, by decide⟩
  have hclaim : ownerClaim.paymentCode = String.ofList "PM8Towner".toList := by
    rw [String.ofList_toList]
    rfl
  have hmatch : ownerRules.txtMatches = txtMatches := by simp only [ownerRules]
  have hboth := badge_of_lookups ownerRules hmatch ownerClaim hcode hclaim id "" ownerSweeps
  have hv : (afterChecks ownerRules ownerClaim (ownerSweeps.map (·.check id ""))).verified = true := by
    apply hboth.2 [_] _ [] rfl
    · have hsub : ["cloudflare-dns.com", "dns.quad9.net"].Sublist (resolverList "") := by decide
      refine ⟨fun h => absurd h Bool.false_ne_true, _, hsub, le_rfl, ?_⟩
      intro host hhost
      have hne : host ≠ "dns.google" := by
        rintro rfl
        exact absurd hhost (by decide)
      change Publishes id (ownerReplies host) "PM8Towner"
      rw [ownerReplies, if_neg hne]
      exact ownerReply_publishes
    · intro l hl
      rcases List.mem_singleton.1 hl with rfl
      exact .inr ⟨rfl, by decide⟩
  obtain ⟨k, hk, host, hhost, -, hsees⟩ := hboth.1 rfl hv (fun _ => true) (by decide)
  exact ⟨⟨k, hk, host, hhost, hsees⟩, hv⟩

end Mise.Server
