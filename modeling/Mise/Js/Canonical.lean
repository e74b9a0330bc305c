import Mathlib.Data.List.TakeWhile
import Mise.Js.JsonLaws

set_option autoImplicit true

namespace Mise.Js

open Json

namespace Json

mutual

/-- A value without infinite numbers, and with its finite ones written as literals. -/
def Plain : Json → Prop
  | .num t => finite t = true ∧ numberLiteral t.toList = some (t.toList, [])
  | .arr vs => PlainAll vs
  | .obj fields => PlainFields fields
  | .null | .bool _ | .str _ => True

def PlainAll : List Json → Prop
  | [] => True
  | v :: vs => Plain v ∧ PlainAll vs

def PlainFields : List (String × Json) → Prop
  | [] => True
  | (_, v) :: fields => Plain v ∧ PlainFields fields

end

variable {T : TextForm} {numberText : String → String}

mutual

theorem plain_reparsed : (v : Json) → v.Parsed numberText → v.reparsed.Plain
  | .null, _ | .bool _, _ | .str _, _ => trivial
  | .num t, h => by
    rw [reparsed]
    split
    · next hf => exact ⟨hf, (h hf).1⟩
    · trivial
  | .arr vs, h => plainAll_reparsed vs h
  | .obj fields, h => plainFields_reparsed fields h.2

theorem plainAll_reparsed : (vs : List Json) → ParsedAll numberText vs → PlainAll (reparsedAll vs)
  | [], _ => trivial
  | v :: vs, h => ⟨plain_reparsed v h.1, plainAll_reparsed vs h.2⟩

theorem plainFields_reparsed : (fields : List (String × Json)) → ParsedFields numberText fields →
    PlainFields (reparsedFields fields)
  | [], _ => trivial
  | (_, v) :: fields, h => ⟨plain_reparsed v h.1, plainFields_reparsed fields h.2⟩

end

/-- What the first character of a value's text tells of it. -/
def kind : Json → Nat
  | .null => 0
  | .bool true => 1
  | .bool false => 2
  | .num _ => 3
  | .str _ => 4
  | .arr _ => 5
  | .obj _ => 6

def kindOf (c : Char) : Nat :=
  if c = 'n' then 0 else if c = 't' then 1 else if c = 'f' then 2
  else if c = '-' ∨ c.isDigit then 3
  else if c = '\x22' then 4 else if c = '[' then 5 else if c = '\x7b' then 6 else 7

theorem chars_kind (v : Json) (h : v.Plain) : ∃ c cs, v.chars T = c :: cs ∧ kindOf c = v.kind := by
  cases v with
  | null => exact ⟨_, _, rfl, rfl⟩
  | bool b => cases b <;> exact ⟨_, _, rfl, rfl⟩
  | num t =>
    obtain ⟨hf, ht⟩ := h
    obtain ⟨c, cs, he, hc⟩ := numberLiteral_head ht
    refine ⟨c, cs, by rw [chars, if_pos hf, he], ?_⟩
    obtain rfl | hd := hc
    · rfl
    · obtain ⟨-, -, -, -, -, hn, ht, hf⟩ := not_digit hd
      simp [kindOf, kind, hn, ht, hf, hd]
  | str s => exact ⟨_, _, rfl, rfl⟩
  | arr vs => cases vs <;> exact ⟨_, _, rfl, rfl⟩
  | obj fields =>
    cases fields with
    | nil => exact ⟨_, _, rfl, rfl⟩
    | cons x fields => exact ⟨_, _, rfl, rfl⟩

theorem kind_unique {u v : Json} {r r' : List Char} (hu : u.Plain) (hv : v.Plain)
    (h : u.chars T ++ r = v.chars T ++ r') : u.kind = v.kind := by
  obtain ⟨c, cs, hc, hk⟩ := chars_kind u hu
  obtain ⟨d, ds, hd, hl⟩ := chars_kind v hv
  rw [hc, hd] at h
  have hcd : c = d := (List.cons.inj h).1
  rw [← hk, ← hl, hcd]

end Json

variable {T : TextForm}

theorem quote_unique {k l : String} {r r' : List Char} (h : quote T k ++ r = quote T l ++ r') :
    k = l ∧ r = r' := by
  have h : T.quoted k.toList ++ r = T.quoted l.toList ++ r' := (List.cons.inj h).2
  have hk := T.reads k r
  rw [h, T.reads] at hk
  cases hk
  exact ⟨rfl, rfl⟩

theorem number_unique {t u : String} {r r' : List Char}
    (ht : numberLiteral t.toList = some (t.toList, []))
    (hu : numberLiteral u.toList = some (u.toList, [])) (hr : Stops r) (hr' : Stops r')
    (h : t.toList ++ r = u.toList ++ r') : t = u ∧ r = r' := by
  have h₁ := numberLiteral_append ht hr
  have h₂ := numberLiteral_append hu hr'
  rw [h, h₂] at h₁
  obtain ⟨ht, hr⟩ := Prod.mk.inj (Option.some.inj h₁)
  exact ⟨String.toList_inj.1 ht.symm, hr.symm⟩

theorem chars_ne_close {v : Json} (hv : v.Plain) (r r' : List Char) : v.chars T ++ r ≠ ']' :: r' := by
  intro h
  obtain ⟨c, cs, hc, hk⟩ := chars_kind v hv
  rw [hc] at h
  have hclose : c = ']' := (List.cons.inj h).1
  have hseven : v.kind = 7 := by
    rw [← hk, hclose]
    rfl
  cases v with
  | bool b => cases b <;> cases hseven
  | _ => cases hseven

theorem stops_nil : Stops [] := by
  intro c hc
  cases hc

mutual

theorem chars_unique {r r' : List Char} : (u v : Json) → u.Plain → v.Plain → Stops r → Stops r' →
    u.chars T ++ r = v.chars T ++ r' → u = v ∧ r = r'
  | .null, v, hu, hv, _, _, h => by
    have hk := kind_unique hu hv h
    cases v with
    | null => exact ⟨rfl, List.append_cancel_left h⟩
    | bool b => cases b <;> cases hk
    | _ => cases hk
  | .bool a, v, hu, hv, _, _, h => by
    have hk := kind_unique hu hv h
    cases v with
    | bool b =>
      cases a <;> cases b
      · exact ⟨rfl, List.append_cancel_left h⟩
      · cases hk
      · cases hk
      · exact ⟨rfl, List.append_cancel_left h⟩
    | _ => cases a <;> cases hk
  | .num t, v, hu, hv, hr, hr', h => by
    have hk := kind_unique hu hv h
    cases v with
    | num t' =>
      rw [chars, chars, if_pos hu.1, if_pos hv.1] at h
      obtain ⟨rfl, he⟩ := number_unique hu.2 hv.2 hr hr' h
      exact ⟨rfl, he⟩
    | bool b => cases b <;> cases hk
    | _ => cases hk
  | .str s, v, hu, hv, _, _, h => by
    have hk := kind_unique hu hv h
    cases v with
    | str s' =>
      obtain ⟨rfl, he⟩ := quote_unique h
      exact ⟨rfl, he⟩
    | bool b => cases b <;> cases hk
    | _ => cases hk
  | .arr vs, v, hu, hv, _, _, h => by
    have hk := kind_unique hu hv h
    cases v with
    | arr ws =>
      obtain ⟨rfl, he⟩ := elements_unique vs ws hu hv h
      exact ⟨rfl, he⟩
    | bool b => cases b <;> cases hk
    | _ => cases hk
  | .obj fields, v, hu, hv, _, _, h => by
    have hk := kind_unique hu hv h
    cases v with
    | obj fields' =>
      obtain ⟨rfl, he⟩ := members_unique fields fields' hu hv h
      exact ⟨rfl, he⟩
    | bool b => cases b <;> cases hk
    | _ => cases hk

theorem elements_unique {r r' : List Char} : (vs ws : List Json) → PlainAll vs → PlainAll ws →
    (arr vs).chars T ++ r = (arr ws).chars T ++ r' → vs = ws ∧ r = r'
  | [], [], _, _, h => ⟨rfl, List.append_cancel_left h⟩
  | [], w :: ws, _, hws, h => by
    have h : ']' :: r = w.chars T ++ (moreElements T ws ++ r') := by
      simpa only [chars, List.cons_append, List.append_assoc, List.nil_append, List.cons.injEq,
        true_and] using h
    exact absurd h.symm (chars_ne_close hws.1 _ _)
  | v :: vs, [], hvs, _, h => by
    have h : v.chars T ++ (moreElements T vs ++ r) = ']' :: r' := by
      simpa only [chars, List.cons_append, List.append_assoc, List.nil_append, List.cons.injEq,
        true_and] using h
    exact absurd h (chars_ne_close hvs.1 _ _)
  | v :: vs, w :: ws, hvs, hws, h => by
    have h : v.chars T ++ (moreElements T vs ++ r) = w.chars T ++ (moreElements T ws ++ r') := by
      simpa only [chars, List.cons_append, List.append_assoc, List.cons.injEq, true_and] using h
    obtain ⟨rfl, hrest⟩ := chars_unique v w hvs.1 hws.1 (stops_moreElements vs r)
      (stops_moreElements ws r') h
    obtain ⟨rfl, he⟩ := moreElements_unique vs ws hvs.2 hws.2 hrest
    exact ⟨rfl, he⟩

theorem moreElements_unique {r r' : List Char} : (vs ws : List Json) → PlainAll vs → PlainAll ws →
    moreElements T vs ++ r = moreElements T ws ++ r' → vs = ws ∧ r = r'
  | [], [], _, _, h => ⟨rfl, List.append_cancel_left h⟩
  | [], w :: ws, _, _, h => by cases (List.cons.inj h).1
  | v :: vs, [], _, _, h => by cases (List.cons.inj h).1
  | v :: vs, w :: ws, hvs, hws, h => by
    have h : v.chars T ++ (moreElements T vs ++ r) = w.chars T ++ (moreElements T ws ++ r') := by
      simpa only [moreElements, List.cons_append, List.append_assoc, List.cons.injEq, true_and] using h
    obtain ⟨rfl, hrest⟩ := chars_unique v w hvs.1 hws.1 (stops_moreElements vs r)
      (stops_moreElements ws r') h
    obtain ⟨rfl, he⟩ := moreElements_unique vs ws hvs.2 hws.2 hrest
    exact ⟨rfl, he⟩

theorem members_unique {r r' : List Char} : (fs gs : List (String × Json)) → PlainFields fs →
    PlainFields gs → (obj fs).chars T ++ r = (obj gs).chars T ++ r' → fs = gs ∧ r = r'
  | [], [], _, _, h => ⟨rfl, List.append_cancel_left h⟩
  | [], (l, w) :: gs, _, _, h => by
    have h := (List.cons.inj (List.cons.inj h).2).1
    cases h
  | (k, v) :: fs, [], _, _, h => by
    have h := (List.cons.inj (List.cons.inj h).2).1
    cases h
  | (k, v) :: fs, (l, w) :: gs, hfs, hgs, h => by
    have h : quote T k ++ ':' :: (v.chars T ++ (moreMembers T fs ++ r)) =
        quote T l ++ ':' :: (w.chars T ++ (moreMembers T gs ++ r')) := by
      simpa only [chars, List.cons_append, List.append_assoc, List.cons.injEq, true_and] using h
    obtain ⟨rfl, hv⟩ := quote_unique h
    obtain ⟨rfl, hrest⟩ := chars_unique v w hfs.1 hgs.1 (stops_moreMembers fs r)
      (stops_moreMembers gs r') (List.cons.inj hv).2
    obtain ⟨rfl, he⟩ := moreMembers_unique fs gs hfs.2 hgs.2 hrest
    exact ⟨rfl, he⟩

theorem moreMembers_unique {r r' : List Char} : (fs gs : List (String × Json)) → PlainFields fs →
    PlainFields gs → moreMembers T fs ++ r = moreMembers T gs ++ r' → fs = gs ∧ r = r'
  | [], [], _, _, h => ⟨rfl, List.append_cancel_left h⟩
  | [], (l, w) :: gs, _, _, h => by cases (List.cons.inj h).1
  | (k, v) :: fs, [], _, _, h => by cases (List.cons.inj h).1
  | (k, v) :: fs, (l, w) :: gs, hfs, hgs, h => by
    have h : quote T k ++ ':' :: (v.chars T ++ (moreMembers T fs ++ r)) =
        quote T l ++ ':' :: (w.chars T ++ (moreMembers T gs ++ r')) := by
      simpa only [moreMembers, List.cons_append, List.append_assoc, List.cons.injEq, true_and] using h
    obtain ⟨rfl, hv⟩ := quote_unique h
    obtain ⟨rfl, hrest⟩ := chars_unique v w hfs.1 hgs.1 (stops_moreMembers fs r)
      (stops_moreMembers gs r') (List.cons.inj hv).2
    obtain ⟨rfl, he⟩ := moreMembers_unique fs gs hfs.2 hgs.2 hrest
    exact ⟨rfl, he⟩

end

theorem chars_injective {u v : Json} (hu : u.Plain) (hv : v.Plain) (h : u.chars T = v.chars T) : u = v := by
  have h : u.chars T ++ [] = v.chars T ++ [] := by rw [h]
  exact (chars_unique u v hu hv stops_nil stops_nil h).1

theorem chars_injective_reparsed {u v : Json} (hu : u.reparsed.Plain) (hv : v.reparsed.Plain)
    (h : u.chars T = v.chars T) : u.reparsed = v.reparsed := by
  apply chars_injective hu hv
  rw [chars_reparsed, chars_reparsed, h]

theorem plainFields_iff {fields : List (String × Json)} :
    PlainFields fields ↔ ∀ x ∈ fields, x.2.Plain := by
  induction fields with
  | nil => simp [PlainFields]
  | cons x fields ih =>
    obtain ⟨k, v⟩ := x
    simp only [PlainFields, ih, List.forall_mem_cons]

section Naturals

theorem numberLiteral_digits {cs : List Char} (hne : cs ≠ []) (hd : ∀ c ∈ cs, c.isDigit)
    (hzero : cs.head? = some '0' → cs = ['0']) : numberLiteral cs = some (cs, []) := by
  cases cs with
  | nil => exact absurd rfl hne
  | cons c cs =>
    have hminus : c ≠ '-' := by
      rintro rfl
      exact absurd (hd '-' List.mem_cons_self) (by decide)
    rw [numberLiteral, if_neg hminus, unsigned]
    by_cases hc : c = '0'
    · have hcs : cs = [] := (List.cons.inj (hzero (by rw [hc]; rfl))).2
      rw [hc, hcs]
      rfl
    · have hall : (c :: cs).takeWhile Char.isDigit = c :: cs := List.takeWhile_eq_self_iff.2 hd
      have hrest : (c :: cs).dropWhile Char.isDigit = [] := List.dropWhile_eq_nil_iff.2 hd
      have hint : intPart (c :: cs) = some (c :: cs, []) := by
        rw [intPart, if_neg hc, someDigits, hall, hrest, if_neg hne]
      rw [hint]
      simp [fracPart, expPart]

theorem head_toDigits (n : Nat) (h : 0 < n) : (Nat.toDigits 10 n).head? ≠ some '0' := by
  induction n using Nat.strongRecOn with
  | ind n ih =>
    by_cases hn : n < 10
    · rw [Nat.toDigits_of_lt_base hn]
      have hall : ∀ n < 10, 0 < n → [n.digitChar].head? ≠ some '0' := by decide
      exact hall n hn h
    · have hdiv : 0 < n / 10 := by omega
      have hih := ih (n / 10) (by omega) hdiv
      rw [Nat.toDigits_of_base_le (by decide) (by omega), List.head?_append_of_ne_nil _ Nat.toDigits_ne_nil]
      exact hih

theorem numberLiteral_nat (n : Nat) :
    numberLiteral (toString n).toList = some ((toString n).toList, []) := by
  rw [Nat.toString_eq_ofList_toDigits, String.toList_ofList]
  apply numberLiteral_digits Nat.toDigits_ne_nil
  · intro c hc
    exact Nat.isDigit_of_mem_toDigits (by decide) (by decide) hc
  · intro hhead
    cases n with
    | zero => rfl
    | succ n => exact absurd hhead (head_toDigits (n + 1) n.succ_pos)

theorem toString_nat_injective {m n : Nat} (h : toString m = toString n) : m = n := by
  rw [Nat.toString_eq_ofList_toDigits, Nat.toString_eq_ofList_toDigits, String.ofList_inj] at h
  have hm := Nat.ofDigitChars_ten_toDigits (n := m)
  rw [h, Nat.ofDigitChars_ten_toDigits] at hm
  exact hm.symm

theorem digits_nat (n : Nat) : ∀ c ∈ (toString n).toList, c.isDigit := by
  intro c hc
  rw [Nat.toString_eq_ofList_toDigits, String.toList_ofList] at hc
  exact Nat.isDigit_of_mem_toDigits (by decide) (by decide) hc

theorem finite_nat (n : Nat) : finite (toString n) = true := by
  have hd := digits_nat n
  rw [finite, decide_eq_true_eq]
  intro h
  simp only [List.mem_cons, List.not_mem_nil, or_false] at h
  obtain h | h | h := h
  · rw [h] at hd
    exact absurd (hd 'N' (by decide)) (by decide)
  · rw [h] at hd
    exact absurd (hd 'I' (by decide)) (by decide)
  · rw [h] at hd
    exact absurd (hd '-' (by decide)) (by decide)

end Naturals

theorem properties_names {l : List (String × β)} (hnodup : (l.map Prod.fst).Nodup)
    (hnames : (l.map Prod.fst).all fun k => (arrayIndex k).isNone) : properties l = l := by
  have hput : l.foldl (fun l x => Table.put x.1 x.2 l) [] = l := foldl_put_nodup (l := []) hnodup
  have hnone : ∀ x ∈ l, arrayIndex x.1 = none := by
    intro x hx
    simpa using List.all_eq_true.1 hnames x.1 (List.mem_map_of_mem hx)
  have hsome : l.filter (fun x => (arrayIndex x.1).isSome) = [] := by
    rw [List.filter_eq_nil_iff]
    intro x hx
    rw [hnone x hx]
    simp
  have hall : l.filter (fun x => (arrayIndex x.1).isNone) = l := by
    rw [List.filter_eq_self]
    intro x hx
    rw [hnone x hx]
    rfl
  rw [properties, hput, inKeyOrder, hsome, hall, List.mergeSort_nil, List.nil_append]

/-- Numbers that are written as they are read, but for those that are too large. -/
def numbersBelow (large : String → Bool) : NumberText where
  text t := if large t then "Infinity"
    else if numberLiteral t.toList = some (t.toList, []) then t else "NaN"
  canonical t h := by
    by_cases hlarge : large t
    · rw [if_pos hlarge] at h
      cases h
    · by_cases ht : numberLiteral t.toList = some (t.toList, [])
      · rw [if_neg hlarge, if_pos ht]
        exact ⟨ht, (if_neg hlarge).trans (if_pos ht)⟩
      · rw [if_neg hlarge, if_neg ht] at h
        cases h

end Mise.Js
