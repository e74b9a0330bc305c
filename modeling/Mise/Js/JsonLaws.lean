import Mathlib.Data.Option.Basic
import Mise.Js.JsonText

set_option autoImplicit true

namespace Mise.Js

section Numbers

/-- What ends a number. -/
def Stops (rest : List Char) : Prop :=
  ∀ c ∈ rest.head?, ¬ c.isDigit ∧ c ≠ '.' ∧ c ≠ 'e' ∧ c ≠ 'E'

variable {cs rest x r : List Char}

theorem takeWhile_stop {p : Char → Bool} (h : ∀ c ∈ rest.head?, p c = false) (cs : List Char) :
    (cs ++ rest).takeWhile p = cs.takeWhile p ∧
      (cs ++ rest).dropWhile p = cs.dropWhile p ++ rest := by
  induction cs with
  | nil =>
    cases rest with
    | nil => exact ⟨rfl, rfl⟩
    | cons c rest => simp [h c rfl]
  | cons c cs ih => by_cases hc : p c <;> simp [hc, ih.1, ih.2]

theorem someDigits_append (h : someDigits cs = some (x, r)) (hr : Stops rest) :
    someDigits (cs ++ rest) = some (x, r ++ rest) := by
  obtain ⟨ht, hd⟩ := takeWhile_stop (fun c hc => eq_false_of_ne_true (hr c hc).1) cs
  rw [someDigits] at h ⊢
  rw [ht, hd]
  split at h
  · cases h
  · next hne =>
    cases h
    rw [if_neg hne]

theorem intPart_append (h : intPart cs = some (x, r)) (hr : Stops rest) :
    intPart (cs ++ rest) = some (x, r ++ rest) := by
  cases cs with
  | nil => cases h
  | cons c cs =>
    simp only [intPart, List.cons_append] at h ⊢
    split at h
    · next hc => cases h; rw [if_pos hc]
    · next hc => rw [if_neg hc]; exact someDigits_append h hr

theorem map_append {f : List Char → Option (List Char × List Char)} {c : Char}
    (ih : ∀ x r, f cs = some (x, r) → f (cs ++ rest) = some (x, r ++ rest))
    (h : (f cs).map (fun d => (c :: d.1, d.2)) = some (x, r)) :
    (f (cs ++ rest)).map (fun d => (c :: d.1, d.2)) = some (x, r ++ rest) := by
  obtain ⟨d, hd, he⟩ := Option.map_eq_some_iff.1 h
  cases he
  rw [ih d.1 d.2 hd, Option.map_some]

theorem fracPart_append (h : fracPart cs = some (x, r)) (hr : Stops rest) :
    fracPart (cs ++ rest) = some (x, r ++ rest) := by
  cases cs with
  | nil =>
    cases h
    cases rest with
    | nil => rfl
    | cons c rest => rw [List.nil_append, fracPart, if_neg (hr c rfl).2.1]
  | cons c cs =>
    simp only [fracPart, List.cons_append] at h ⊢
    split at h
    · next hc =>
      rw [if_pos hc]
      exact map_append (fun x r hx => someDigits_append hx hr) h
    · next hc => cases h; rw [if_neg hc]; rfl

theorem expDigits_append (h : expDigits cs = some (x, r)) (hr : Stops rest) :
    expDigits (cs ++ rest) = some (x, r ++ rest) := by
  cases cs with
  | nil => cases h
  | cons c cs =>
    simp only [expDigits, List.cons_append] at h ⊢
    split at h
    · next hc =>
      rw [if_pos hc]
      exact map_append (fun x r hx => someDigits_append hx hr) h
    · next hc => rw [if_neg hc]; exact someDigits_append h hr

theorem expPart_append (h : expPart cs = some (x, r)) (hr : Stops rest) :
    expPart (cs ++ rest) = some (x, r ++ rest) := by
  cases cs with
  | nil =>
    cases h
    cases rest with
    | nil => rfl
    | cons c rest =>
      rw [List.nil_append, expPart, if_neg (not_or.2 (hr c rfl).2.2)]
  | cons c cs =>
    simp only [expPart, List.cons_append] at h ⊢
    split at h
    · next hc =>
      rw [if_pos hc]
      exact map_append (fun x r hx => expDigits_append hx hr) h
    · next hc => cases h; rw [if_neg hc]; rfl

theorem unsigned_some (h : unsigned cs = some (x, r)) :
    ∃ i r₁ f r₂ e, intPart cs = some (i, r₁) ∧ fracPart r₁ = some (f, r₂) ∧
      expPart r₂ = some (e, r) ∧ x = i ++ f ++ e := by
  simp only [unsigned, Option.bind_eq_bind, Option.bind_eq_some_iff, Option.pure_def,
    Option.some.injEq, Prod.mk.injEq, Prod.exists] at h
  obtain ⟨i, r₁, hi, f, r₂, hf, e, r₃, he, rfl, rfl⟩ := h
  exact ⟨i, r₁, f, r₂, e, hi, hf, he, rfl⟩

theorem unsigned_append (h : unsigned cs = some (x, r)) (hr : Stops rest) :
    unsigned (cs ++ rest) = some (x, r ++ rest) := by
  obtain ⟨i, r₁, f, r₂, e, hi, hf, he, rfl⟩ := unsigned_some h
  simp only [unsigned, intPart_append hi hr, fracPart_append hf hr, expPart_append he hr,
    Option.bind_eq_bind, Option.bind_some, Option.pure_def]

theorem numberLiteral_append (h : numberLiteral cs = some (x, r)) (hr : Stops rest) :
    numberLiteral (cs ++ rest) = some (x, r ++ rest) := by
  cases cs with
  | nil => cases h
  | cons c cs =>
    simp only [numberLiteral, List.cons_append] at h ⊢
    split at h
    · next hc =>
      rw [if_pos hc]
      exact map_append (fun x r hx => unsigned_append hx hr) h
    · next hc => rw [if_neg hc]; exact unsigned_append h hr

theorem numberLiteral_head (h : numberLiteral cs = some (x, r)) :
    ∃ c cs', cs = c :: cs' ∧ (c = '-' ∨ c.isDigit) := by
  cases cs with
  | nil => cases h
  | cons c cs =>
    refine ⟨c, cs, rfl, ?_⟩
    by_cases hc : c = '-'
    · exact .inl hc
    · rw [numberLiteral, if_neg hc] at h
      obtain ⟨i, r₁, f, r₂, e, hi, -⟩ := unsigned_some h
      rw [intPart] at hi
      split at hi
      · next h0 => exact .inr (h0 ▸ rfl)
      · rw [someDigits] at hi
        split at hi
        · cases hi
        · next hne =>
          by_cases hd : c.isDigit
          · exact .inr hd
          · simp [hd] at hne

end Numbers

section Objects

/-- Whatever is done with the values of an object, its properties stay in their order. -/
theorem put_map (f : β → γ) (k : String) (v : β) (l : List (String × β)) :
    Table.put k (f v) (l.map (Prod.map id f)) = (Table.put k v l).map (Prod.map id f) := by
  induction l with
  | nil => rfl
  | cons x l ih =>
    simp only [List.map_cons, Table.put, Prod.map_fst, id_eq]
    split
    · rfl
    · rw [ih]; rfl

theorem foldl_put_map (f : β → γ) (members l : List (String × β)) :
    (members.map (Prod.map id f)).foldl (fun l x => Table.put x.1 x.2 l) (l.map (Prod.map id f)) =
      (members.foldl (fun l x => Table.put x.1 x.2 l) l).map (Prod.map id f) := by
  induction members generalizing l with
  | nil => rfl
  | cons x members ih =>
    rw [List.map_cons, List.foldl_cons, List.foldl_cons, ← ih, ← put_map]
    rfl

theorem inKeyOrder_map (f : β → γ) (l : List (String × β)) :
    inKeyOrder (l.map (Prod.map id f)) = (inKeyOrder l).map (Prod.map id f) := by
  simp only [inKeyOrder, List.filter_map, List.map_append]
  congr 1
  exact (List.map_mergeSort (f := Prod.map id f) fun _ _ _ _ => rfl).symm

theorem properties_map (f : β → γ) (members : List (String × β)) :
    properties (members.map (Prod.map id f)) = (properties members).map (Prod.map id f) := by
  rw [properties, properties, ← inKeyOrder_map]
  exact congrArg inKeyOrder (foldl_put_map f members [])

theorem mem_put {x : String × β} {l : List (String × β)} (h : x ∈ Table.put k v l) :
    x = (k, v) ∨ x ∈ l := by
  induction l with
  | nil => exact .inl (List.mem_singleton.1 h)
  | cons y l ih =>
    rw [Table.put] at h
    split at h
    · obtain rfl | h := List.mem_cons.1 h
      · exact .inl rfl
      · exact .inr (List.mem_cons_of_mem _ h)
    · obtain rfl | h := List.mem_cons.1 h
      · exact .inr List.mem_cons_self
      · exact (ih h).imp_right (List.mem_cons_of_mem _)

theorem mem_foldl_put {x : String × β} {members l : List (String × β)}
    (h : x ∈ members.foldl (fun l x => Table.put x.1 x.2 l) l) : x ∈ members ∨ x ∈ l := by
  induction members generalizing l with
  | nil => exact .inr h
  | cons y members ih =>
    obtain h | h := ih h
    · exact .inl (List.mem_cons_of_mem _ h)
    · obtain rfl | h := mem_put h
      · exact .inl List.mem_cons_self
      · exact .inr h

theorem nodup_foldl_put {members l : List (String × β)} (h : (l.map Prod.fst).Nodup) :
    ((members.foldl (fun l x => Table.put x.1 x.2 l) l).map Prod.fst).Nodup := by
  induction members generalizing l with
  | nil => exact h
  | cons y members ih => exact ih (Table.nodup_put h)

theorem put_new {l : List (String × β)} (h : k ∉ l.map Prod.fst) :
    Table.put k v l = l ++ [(k, v)] := by
  induction l with
  | nil => rfl
  | cons x l ih =>
    simp only [List.map_cons, List.mem_cons, not_or] at h
    rw [Table.put, if_neg (Ne.symm h.1), ih h.2]
    rfl

theorem foldl_put_nodup {members l : List (String × β)}
    (h : ((l ++ members).map Prod.fst).Nodup) :
    members.foldl (fun l x => Table.put x.1 x.2 l) l = l ++ members := by
  induction members generalizing l with
  | nil => exact (List.append_nil l).symm
  | cons x members ih =>
    have hx : x.1 ∉ l.map Prod.fst := fun hm => by
      rw [List.map_append, List.nodup_append] at h
      exact h.2.2 _ hm _ List.mem_cons_self rfl
    rw [List.foldl_cons, put_new hx, ih (by rwa [List.append_assoc]), List.append_assoc]
    rfl

theorem perm_inKeyOrder (l : List (String × β)) : (inKeyOrder l).Perm l := by
  have hf : (l.filter fun x => (arrayIndex x.1).isNone) =
      l.filter fun x => !(arrayIndex x.1).isSome :=
    List.filter_congr fun x _ => by cases arrayIndex x.1 <;> rfl
  rw [inKeyOrder, hf]
  exact ((List.mergeSort_perm _ _).append_right _).trans (List.filter_append_perm _ l)

theorem inKeyOrder_idem (l : List (String × β)) : inKeyOrder (inKeyOrder l) = inKeyOrder l := by
  let le (x y : String × β) : Bool := (arrayIndex x.1).getD 0 ≤ (arrayIndex y.1).getD 0
  let indices := (l.filter fun x => (arrayIndex x.1).isSome).mergeSort le
  let others := l.filter fun x => (arrayIndex x.1).isNone
  have hidx : ∀ x ∈ indices, (arrayIndex x.1).isSome := fun x hx =>
    (List.mem_filter.1 (List.mem_mergeSort.1 hx)).2
  have hothers : ∀ x ∈ others, (arrayIndex x.1).isNone := fun x hx => (List.mem_filter.1 hx).2
  have hsorted : indices.Pairwise fun x y => le x y = true := by
    apply List.pairwise_mergeSort
    · intro x y z hxy hyz
      simp only [le, decide_eq_true_eq] at hxy hyz ⊢
      omega
    · intro x y
      simp only [le, Bool.or_eq_true, decide_eq_true_eq]
      omega
  have h₁ : (indices ++ others).filter (fun x => (arrayIndex x.1).isSome) = indices := by
    rw [List.filter_append, List.filter_eq_self.2 hidx, List.filter_eq_nil_iff.2, List.append_nil]
    intro x hx
    simp [Option.isNone_iff_eq_none.1 (hothers x hx)]
  have h₂ : (indices ++ others).filter (fun x => (arrayIndex x.1).isNone) = others := by
    rw [List.filter_append, List.filter_eq_self.2 hothers, List.filter_eq_nil_iff.2,
      List.nil_append]
    intro x hx
    obtain ⟨n, hn⟩ := Option.isSome_iff_exists.1 (hidx x hx)
    simp [hn]
  change ((indices ++ others).filter _).mergeSort le ++ (indices ++ others).filter _ =
    indices ++ others
  rw [h₁, h₂, List.mergeSort_of_pairwise hsorted]

theorem put_append {l : List (String × β)} (h : k ∉ l.map Prod.fst) (m : List (String × β)) :
    Table.put k v (l ++ m) = l ++ Table.put k v m := by
  induction l with
  | nil => rfl
  | cons x l ih =>
    simp only [List.map_cons, List.mem_cons, not_or] at h
    rw [List.cons_append, Table.put, if_neg (Ne.symm h.1), ih h.2]
    rfl

theorem filter_put (p : String → Bool) (k : String) (v : β) (l : List (String × β)) :
    (Table.put k v l).filter (fun x => p x.1) =
      if p k then Table.put k v (l.filter fun x => p x.1) else l.filter fun x => p x.1 := by
  induction l with
  | nil => by_cases hk : p k <;> simp [Table.put, hk]
  | cons x l ih =>
    by_cases hx : x.1 = k
    · subst hx
      by_cases hk : p x.1 <;> simp [Table.put, hk]
    · by_cases hk : p k <;> by_cases hp : p x.1 <;> simp_all [Table.put]

theorem inKeyOrder_put (hk : arrayIndex k = none) (v : β) (l : List (String × β)) :
    inKeyOrder (Table.put k v l) = Table.put k v (inKeyOrder l) := by
  have hsome := filter_put (fun k => (arrayIndex k).isSome) k v l
  have hnone := filter_put (fun k => (arrayIndex k).isNone) k v l
  rw [hk] at hsome hnone
  rw [if_neg (by decide)] at hsome
  rw [if_pos (by decide)] at hnone
  rw [inKeyOrder, hsome, hnone, inKeyOrder, put_append]
  intro hm
  obtain ⟨x, hx, rfl⟩ := List.mem_map.1 hm
  have hx := (List.mem_filter.1 (List.mem_mergeSort.1 hx)).2
  rw [hk] at hx
  cases hx

theorem properties_put (hk : arrayIndex k = none) (v : β) {l : List (String × β)}
    (h : properties l = l) : properties (Table.put k v l) = Table.put k v l := by
  have hnodup : (l.map Prod.fst).Nodup := by
    rw [← h]
    exact ((perm_inKeyOrder _).map Prod.fst).nodup_iff.2 (nodup_foldl_put List.nodup_nil)
  have hl : l.foldl (fun l x => Table.put x.1 x.2 l) [] = l := foldl_put_nodup (l := []) hnodup
  have hput : (Table.put k v l).foldl (fun l x => Table.put x.1 x.2 l) [] = Table.put k v l :=
    foldl_put_nodup (l := []) (Table.nodup_put hnodup)
  rw [properties, hl] at h
  rw [properties, hput, inKeyOrder_put hk, h]

theorem properties_nil : properties ([] : List (String × β)) = [] := by
  simp [properties, inKeyOrder]

theorem properties_idem (members : List (String × β)) :
    properties (properties members) = properties members := by
  have hn : ((properties members).map Prod.fst).Nodup :=
    ((perm_inKeyOrder _).map Prod.fst).nodup_iff.2 (nodup_foldl_put List.nodup_nil)
  have hput : (properties members).foldl (fun l x => Table.put x.1 x.2 l) [] = properties members :=
    foldl_put_nodup (l := []) hn
  rw [properties, hput]
  exact inKeyOrder_idem _

theorem mem_properties {x : String × β} {members : List (String × β)}
    (h : x ∈ properties members) : x ∈ members := by
  have h := (perm_inKeyOrder _).mem_iff.1 h
  exact (mem_foldl_put h).resolve_right List.not_mem_nil

end Objects

section RoundTrip

variable (numberText : String → String)

namespace Json

/-- A number as `String` writes it, which is the number that its text denotes. -/
def Number (t : String) : Prop := numberLiteral t.toList = some (t.toList, []) ∧ numberText t = t

mutual

/-- What `JSON.parse` can give: canonical numbers, and the properties of an object in order. -/
def Parsed : Json → Prop
  | .num t => finite t → Number numberText t
  | .arr vs => ParsedAll vs
  | .obj fields => properties fields = fields ∧ ParsedFields fields
  | .null | .bool _ | .str _ => True

def ParsedAll : List Json → Prop
  | [] => True
  | v :: vs => Parsed v ∧ ParsedAll vs

def ParsedFields : List (String × Json) → Prop
  | [] => True
  | (_, v) :: fields => Parsed v ∧ ParsedFields fields

end

end Json

open Json

variable {T : TextForm} {numberText}

theorem reparsedFields_eq (fields : List (String × Json)) :
    reparsedFields fields = fields.map (Prod.map id reparsed) := by
  induction fields with
  | nil => rfl
  | cons x fields ih => simp only [reparsedFields, ih, List.map_cons, Prod.map, id_eq]

theorem skipBlanks_cons {c : Char} (h : isBlank c = false) (cs : List Char) :
    skipBlanks (c :: cs) = c :: cs := by
  rw [skipBlanks, List.dropWhile_cons, h]
  rfl

theorem not_digit {c : Char} (h : c.isDigit) : isBlank c = false ∧ c ≠ ']' ∧ c ≠ '\x22' ∧ c ≠ '[' ∧
    c ≠ '\x7b' ∧ c ≠ 'n' ∧ c ≠ 't' ∧ c ≠ 'f' := by
  refine ⟨?_, ?_, ?_, ?_, ?_, ?_, ?_, ?_⟩
  · simp only [isBlank, Bool.or_eq_false_iff, decide_eq_false_iff_not]
    refine ⟨⟨⟨?_, ?_⟩, ?_⟩, ?_⟩
    all_goals (rintro rfl; exact absurd h (by decide))
  all_goals (rintro rfl; exact absurd h (by decide))

theorem chars_head (v : Json) (h : v.Parsed numberText) :
    ∃ c cs, v.chars T = c :: cs ∧ isBlank c = false ∧ c ≠ ']' := by
  cases v with
  | null => exact ⟨_, _, rfl, by decide, by decide⟩
  | bool b => cases b <;> exact ⟨_, _, rfl, by decide, by decide⟩
  | num t =>
    rw [chars]
    split
    · next hf =>
      obtain ⟨c, cs, ht, hc⟩ := numberLiteral_head (h hf).1
      refine ⟨c, cs, ht, ?_⟩
      obtain rfl | hd := hc
      · decide
      · exact ⟨(not_digit hd).1, (not_digit hd).2.1⟩
    · exact ⟨_, _, rfl, by decide, by decide⟩
  | str s => exact ⟨_, _, rfl, by decide, by decide⟩
  | arr vs => cases vs <;> exact ⟨_, _, rfl, by decide, by decide⟩
  | obj fields =>
    cases fields with
    | nil => exact ⟨_, _, rfl, by decide, by decide⟩
    | cons x fields =>
      obtain ⟨k, v⟩ := x
      exact ⟨_, _, rfl, by decide, by decide⟩

theorem parseValue_number {n : Nat} {t : String} (h : Number numberText t) (hr : Stops rest) :
    parseValue T numberText (n + 1) (t.toList ++ rest) = some (.num t, rest) := by
  have hl := numberLiteral_append h.1 hr
  obtain ⟨c, cs, ht, hc⟩ := numberLiteral_head h.1
  have hc' : isBlank c = false ∧ c ≠ '\x22' ∧ c ≠ '[' ∧ c ≠ '\x7b' ∧ c ≠ 'n' ∧ c ≠ 't' ∧ c ≠ 'f' := by
    obtain rfl | hd := hc
    · decide
    · obtain ⟨h₁, -, h₂⟩ := not_digit hd
      exact ⟨h₁, h₂⟩
  obtain ⟨hb, hq, hbr, hbc, hn, htr, hf⟩ := hc'
  have hk : keyword (c :: (cs ++ rest)) = none := by
    rw [keyword]
    · exact fun l he => hn (List.cons.inj he).1
    · exact fun l he => htr (List.cons.inj he).1
    · exact fun l he => hf (List.cons.inj he).1
  rw [ht, List.cons_append] at hl ⊢
  simp only [parseValue, skipBlanks_cons hb, if_neg hq, if_neg hbr, if_neg hbc, hk, hl,
    Option.none_or, Option.map_some, List.nil_append]
  rw [← ht, String.ofList_toList, h.2]

theorem stops_moreElements (vs : List Json) (rest : List Char) : Stops (moreElements T vs ++ rest) := by
  intro c hc
  cases vs with
  | nil => cases hc; decide
  | cons v vs => cases hc; decide

theorem stops_moreMembers (fields : List (String × Json)) (rest : List Char) :
    Stops (moreMembers T fields ++ rest) := by
  intro c hc
  cases fields with
  | nil => cases hc; decide
  | cons x fields => obtain ⟨k, v⟩ := x; cases hc; decide

theorem parseElements_last {n : Nat} {cs : List Char} {v : Json}
    (h : parseValue T numberText n cs = some (v, ']' :: rest)) :
    parseElements T numberText (n + 1) cs = some ([v], rest) := by
  simp only [parseElements, h, Option.bind_eq_bind, Option.bind_some]
  rfl

theorem parseElements_more {n : Nat} {cs r : List Char} {v : Json} {vs : List Json}
    (h : parseValue T numberText n cs = some (v, ',' :: r))
    (hs : parseElements T numberText n r = some (vs, rest)) :
    parseElements T numberText (n + 1) cs = some (v :: vs, rest) := by
  simp only [parseElements, h, Option.bind_eq_bind, Option.bind_some]
  rw [skipBlanks_cons (by decide)]
  simp only [hs, Option.bind_some, Option.pure_def]

theorem parseMembers_last {n : Nat} {cs : List Char} {k : String} {v : Json}
    (h : parseValue T numberText n cs = some (v, '\x7d' :: rest)) :
    parseMembers T numberText (n + 1) (quote T k ++ ':' :: cs) = some ([(k, v)], rest) := by
  rw [quote, List.cons_append, parseMembers, skipBlanks_cons (by decide)]
  simp only [T.reads, Option.bind_eq_bind, Option.bind_some]
  rw [skipBlanks_cons (by decide)]
  simp only [h, Option.bind_some]
  rfl

theorem parseMembers_more {n : Nat} {cs r : List Char} {k : String} {v : Json}
    {fields : List (String × Json)} (h : parseValue T numberText n cs = some (v, ',' :: r))
    (hs : parseMembers T numberText n r = some (fields, rest)) :
    parseMembers T numberText (n + 1) (quote T k ++ ':' :: cs) = some ((k, v) :: fields, rest) := by
  rw [quote, List.cons_append, parseMembers, skipBlanks_cons (by decide)]
  simp only [T.reads, Option.bind_eq_bind, Option.bind_some]
  rw [skipBlanks_cons (by decide)]
  simp only [h, Option.bind_some]
  rw [skipBlanks_cons (by decide)]
  simp only [hs, Option.bind_some, Option.pure_def]

theorem parseValue_arr {n : Nat} {c : Char} {cs : List Char} {vs : List Json}
    (hb : isBlank c = false) (hc : c ≠ ']')
    (h : parseElements T numberText n (c :: cs) = some (vs, rest)) :
    parseValue T numberText (n + 1) ('[' :: c :: cs) = some (.arr vs, rest) := by
  have hne : (skipBlanks (c :: cs)).head? ≠ some ']' := by
    rw [skipBlanks_cons hb]
    exact fun he => hc (Option.some.inj he)
  rw [parseValue, skipBlanks_cons (by decide)]
  change (if (skipBlanks (c :: cs)).head? = some ']' then some (arr [], (skipBlanks (c :: cs)).tail)
    else (parseElements T numberText n (c :: cs)).map fun x => (arr x.1, x.2)) = _
  rw [if_neg hne, h, Option.map_some]

theorem parseValue_obj {n : Nat} {cs : List Char} {fields : List (String × Json)}
    (h : parseMembers T numberText n ('\x22' :: cs) = some (fields, rest)) :
    parseValue T numberText (n + 1) ('\x7b' :: '\x22' :: cs) = some (.obj (properties fields), rest) := by
  have hne : (skipBlanks ('\x22' :: cs)).head? ≠ some '\x7d' := by
    rw [skipBlanks_cons (by decide)]
    exact fun he => absurd (Option.some.inj he) (by decide)
  rw [parseValue, skipBlanks_cons (by decide)]
  change (if (skipBlanks ('\x22' :: cs)).head? = some '\x7d' then
      some (obj [], (skipBlanks ('\x22' :: cs)).tail)
    else (parseMembers T numberText n ('\x22' :: cs)).map fun x => (obj (properties x.1), x.2)) = _
  rw [if_neg hne, h, Option.map_some]

theorem chars_pos {v : Json} (h : v.Parsed numberText) : 0 < (v.chars T).length := by
  obtain ⟨c, cs, hc, -⟩ := chars_head v h
  rw [hc]
  exact Nat.succ_pos cs.length

/-- With room for `n` calls, the parser reads what takes no more than `n` characters. -/
structure Reads (T : TextForm) (numberText : String → String) (n : Nat) : Prop where
  value : ∀ (v : Json) (rest : List Char), v.Parsed numberText → (v.chars T).length ≤ n → Stops rest →
    parseValue T numberText n (v.chars T ++ rest) = some (v.reparsed, rest)
  elements : ∀ (v : Json) (vs : List Json) (rest : List Char), v.Parsed numberText →
    ParsedAll numberText vs → (v.chars T ++ moreElements T vs).length ≤ n →
    parseElements T numberText n (v.chars T ++ moreElements T vs ++ rest) =
      some (v.reparsed :: reparsedAll vs, rest)
  members : ∀ (k : String) (v : Json) (fields : List (String × Json)) (rest : List Char),
    v.Parsed numberText → ParsedFields numberText fields →
    (quote T k ++ ':' :: (v.chars T ++ moreMembers T fields)).length ≤ n →
    parseMembers T numberText n (quote T k ++ ':' :: (v.chars T ++ moreMembers T fields) ++ rest) =
      some ((k, v.reparsed) :: reparsedFields fields, rest)

theorem Reads.nextValue {n : Nat} (ih : Reads T numberText n) (v : Json) (h : v.Parsed numberText)
    (hn : (v.chars T).length ≤ n + 1) (hr : Stops rest) :
    parseValue T numberText (n + 1) (v.chars T ++ rest) = some (v.reparsed, rest) := by
  cases v with
  | null => rfl
  | bool b => cases b <;> rfl
  | num t =>
    rw [chars, reparsed]
    split
    · next hf => exact parseValue_number (h hf) hr
    · rfl
  | str s =>
    rw [chars, quote, List.cons_append, parseValue, skipBlanks_cons (by decide)]
    simp only [if_true, T.reads, Option.map_some, reparsed]
  | arr vs =>
    cases vs with
    | nil => rfl
    | cons v vs =>
      have hl : (v.chars T ++ moreElements T vs).length ≤ n := by
        simpa only [chars, List.length_cons, Nat.add_le_add_iff_right] using hn
      have he := ih.elements v vs rest h.1 h.2 hl
      obtain ⟨c, cs, hc, hb, hne⟩ := chars_head v h.1
      rw [hc] at he
      rw [chars, hc]
      exact parseValue_arr hb hne he
  | obj fields =>
    cases fields with
    | nil => rfl
    | cons x fields =>
      obtain ⟨k, v⟩ := x
      have hl : (quote T k ++ ':' :: (v.chars T ++ moreMembers T fields)).length ≤ n := by
        simpa only [chars, List.length_cons, Nat.add_le_add_iff_right] using hn
      have hp : properties (reparsedFields ((k, v) :: fields)) =
          reparsedFields ((k, v) :: fields) := by
        rw [reparsedFields_eq, properties_map, h.1]
      rw [chars, reparsed, ← hp]
      exact parseValue_obj (ih.members k v fields rest h.2.1 h.2.2 hl)

theorem Reads.nextElements {n : Nat} (ih : Reads T numberText n) (v : Json) (vs : List Json)
    (h : v.Parsed numberText) (hs : ParsedAll numberText vs)
    (hn : (v.chars T ++ moreElements T vs).length ≤ n + 1) :
    parseElements T numberText (n + 1) (v.chars T ++ moreElements T vs ++ rest) =
      some (v.reparsed :: reparsedAll vs, rest) := by
  have hpos := chars_pos (T := T) h
  rw [List.length_append] at hn
  rw [List.append_assoc]
  cases vs with
  | nil =>
    have hle : (v.chars T).length ≤ n := by simp [moreElements] at hn; omega
    exact parseElements_last (ih.value v _ h hle (stops_moreElements [] rest))
  | cons w vs =>
    rw [moreElements, List.length_cons] at hn
    exact parseElements_more (ih.value v _ h (by omega) (stops_moreElements (w :: vs) rest))
      (ih.elements w vs rest hs.1 hs.2 (by omega))

theorem Reads.nextMembers {n : Nat} (ih : Reads T numberText n) (k : String) (v : Json)
    (fields : List (String × Json)) (h : v.Parsed numberText) (hs : ParsedFields numberText fields)
    (hn : (quote T k ++ ':' :: (v.chars T ++ moreMembers T fields)).length ≤ n + 1) :
    parseMembers T numberText (n + 1) (quote T k ++ ':' :: (v.chars T ++ moreMembers T fields) ++ rest) =
      some ((k, v.reparsed) :: reparsedFields fields, rest) := by
  rw [List.length_append, List.length_cons, List.length_append] at hn
  rw [List.append_assoc, List.cons_append, List.append_assoc]
  cases fields with
  | nil => exact parseMembers_last (ih.value v _ h (by omega) (stops_moreMembers [] rest))
  | cons x fields =>
    obtain ⟨l, w⟩ := x
    rw [moreMembers, List.length_cons] at hn
    exact parseMembers_more
      (ih.value v _ h (by omega) (stops_moreMembers ((l, w) :: fields) rest))
      (ih.members l w fields rest hs.1 hs.2 (by omega))

theorem reads (n : Nat) : Reads T numberText n := by
  induction n with
  | zero =>
    constructor
    · intro v rest h hn
      exact absurd (chars_pos (T := T) h) (Nat.not_lt.2 hn)
    · intro v vs rest h _ hn
      rw [List.length_append] at hn
      exact absurd (chars_pos (T := T) h) (by omega)
    · intro k v fields rest h _ hn
      rw [List.length_append, List.length_cons] at hn
      omega
  | succ n ih =>
    constructor
    · intro v rest h hn hr
      exact ih.nextValue v h hn hr
    · intro v vs rest h hs hn
      exact ih.nextElements v vs h hs hn
    · intro k v fields rest h hs hn
      exact ih.nextMembers k v fields h hs hn

/-- `JSON.parse` reads what `JSON.stringify` has written. -/
theorem parse_stringify {v : Json} (h : v.Parsed numberText) :
    parse numberText v.stringify = some v.reparsed := by
  have hv := (reads (T := .scalars) ((v.chars .scalars).length + 1)).value v [] h (Nat.le_succ _) nofun
  rw [List.append_nil] at hv
  simp only [parse, parseIn, stringify, String.toList_ofList, hv, Option.bind_eq_bind, Option.bind_some]
  rfl

mutual

theorem chars_reparsed : (v : Json) → v.reparsed.chars T = v.chars T
  | .null | .bool _ | .str _ | .arr [] | .obj [] => rfl
  | .num t => by
    rw [reparsed, chars]
    split
    · next hf => rw [chars, if_pos hf]
    · rfl
  | .arr (v :: vs) => by
    rw [reparsed, reparsedAll, chars, chars, chars_reparsed v, moreElements_reparsed vs]
  | .obj ((k, v) :: fields) => by
    rw [reparsed, reparsedFields, chars, chars, chars_reparsed v, moreMembers_reparsed fields]

theorem moreElements_reparsed : (vs : List Json) → moreElements T (reparsedAll vs) = moreElements T vs
  | [] => rfl
  | v :: vs => by
    rw [reparsedAll, moreElements, moreElements, chars_reparsed v, moreElements_reparsed vs]

theorem moreMembers_reparsed :
    (fields : List (String × Json)) → moreMembers T (reparsedFields fields) = moreMembers T fields
  | [] => rfl
  | (k, v) :: fields => by
    rw [reparsedFields, moreMembers, moreMembers, chars_reparsed v, moreMembers_reparsed fields]

end

theorem parsedFields_iff {fields : List (String × Json)} :
    ParsedFields numberText fields ↔ ∀ x ∈ fields, x.2.Parsed numberText := by
  induction fields with
  | nil => simp [ParsedFields]
  | cons x fields ih =>
    obtain ⟨k, v⟩ := x
    simp only [ParsedFields, ih, List.forall_mem_cons]

mutual

theorem Json.Parsed.reparsed : (v : Json) → v.Parsed numberText → v.reparsed.Parsed numberText
  | .null, _ | .bool _, _ | .str _, _ => trivial
  | .num t, h => by
    rw [Json.reparsed]
    split
    · exact h
    · trivial
  | .arr vs, h => parsedAll_reparsed vs h
  | .obj fields, h => by
    refine ⟨?_, parsedFields_reparsed fields h.2⟩
    rw [reparsedFields_eq, properties_map, h.1]

theorem parsedAll_reparsed :
    (vs : List Json) → ParsedAll numberText vs → ParsedAll numberText (reparsedAll vs)
  | [], _ => trivial
  | v :: vs, h => ⟨Json.Parsed.reparsed v h.1, parsedAll_reparsed vs h.2⟩

theorem parsedFields_reparsed : (fields : List (String × Json)) → ParsedFields numberText fields →
    ParsedFields numberText (reparsedFields fields)
  | [], _ => trivial
  | (_, v) :: fields, h => ⟨Json.Parsed.reparsed v h.1, parsedFields_reparsed fields h.2⟩

end

end RoundTrip

/-- `String(Number(t))`: a finite number is written as a literal that denotes it. -/
structure NumberText where
  text : String → String
  canonical : ∀ t, finite (text t) → Json.Number text (text t)

section Parsed

open Json

variable (T : TextForm) (numbers : NumberText)

/-- With room for `n` calls, the parser gives nothing but JSON values. -/
structure Gives (n : Nat) : Prop where
  value : ∀ {cs v r}, parseValue T numbers.text n cs = some (v, r) → v.Parsed numbers.text
  elements : ∀ {cs vs r}, parseElements T numbers.text n cs = some (vs, r) →
    ParsedAll numbers.text vs
  members : ∀ {cs fields r}, parseMembers T numbers.text n cs = some (fields, r) →
    ParsedFields numbers.text fields

variable {T} {numbers}

theorem keyword_parsed (h : keyword cs = some (v, r)) : v.Parsed numbers.text := by
  unfold keyword at h
  split at h <;> cases h <;> trivial

theorem Gives.nextValue {n : Nat} (ih : Gives T numbers n)
    (h : parseValue T numbers.text (n + 1) cs = some (v, r)) : v.Parsed numbers.text := by
  rw [parseValue] at h
  split at h
  · cases h
  · next c cs _ =>
    split at h
    · obtain ⟨x, -, hx⟩ := Option.map_eq_some_iff.1 h
      cases hx
      trivial
    · split at h
      · split at h
        · cases h
          trivial
        · obtain ⟨x, hp, hx⟩ := Option.map_eq_some_iff.1 h
          cases hx
          exact ih.elements hp
      · split at h
        · split at h
          · cases h
            exact ⟨properties_nil, trivial⟩
          · obtain ⟨x, hp, hx⟩ := Option.map_eq_some_iff.1 h
            cases hx
            refine ⟨properties_idem x.1, parsedFields_iff.2 fun y hy => ?_⟩
            exact parsedFields_iff.1 (ih.members hp) y (mem_properties hy)
        · obtain hk | ⟨-, h⟩ := Option.or_eq_some_iff.1 h
          · exact keyword_parsed hk
          · obtain ⟨x, -, hx⟩ := Option.map_eq_some_iff.1 h
            cases hx
            exact numbers.canonical _

theorem Gives.nextElements {n : Nat} (ih : Gives T numbers n)
    (h : parseElements T numbers.text (n + 1) cs = some (vs, r)) : ParsedAll numbers.text vs := by
  simp only [parseElements, Option.bind_eq_bind, Option.bind_eq_some_iff] at h
  obtain ⟨⟨v, cs'⟩, hv, h⟩ := h
  have hv := ih.value hv
  dsimp only at h
  split at h
  · cases h
    exact ⟨hv, trivial⟩
  · obtain ⟨⟨vs', r'⟩, hs, h⟩ := Option.bind_eq_some_iff.1 h
    cases h
    exact ⟨hv, ih.elements hs⟩
  · cases h

theorem Gives.nextMembers {n : Nat} (ih : Gives T numbers n)
    (h : parseMembers T numbers.text (n + 1) cs = some (fields, r)) :
    ParsedFields numbers.text fields := by
  rw [parseMembers] at h
  split at h
  · obtain ⟨⟨k, cs₁⟩, -, h⟩ := Option.bind_eq_some_iff.1 h
    dsimp only at h
    split at h
    · obtain ⟨⟨v, cs₂⟩, hv, h⟩ := Option.bind_eq_some_iff.1 h
      have hv := ih.value hv
      dsimp only at h
      split at h
      · cases h
        exact ⟨hv, trivial⟩
      · obtain ⟨⟨fields', r'⟩, hs, h⟩ := Option.bind_eq_some_iff.1 h
        cases h
        exact ⟨hv, ih.members hs⟩
      · cases h
    · cases h
  · cases h

theorem gives (n : Nat) : Gives T numbers n := by
  induction n with
  | zero => exact ⟨nofun, nofun, nofun⟩
  | succ n ih => exact ⟨ih.nextValue, ih.nextElements, ih.nextMembers⟩

theorem parseIn_parsed {s : String} (h : parseIn T numbers.text s = some v) :
    v.Parsed numbers.text := by
  obtain ⟨⟨w, cs⟩, hw, h⟩ := Option.bind_eq_some_iff.1 h
  dsimp only at h
  split at h
  · cases h
    exact (gives _).value hw
  · cases h

theorem parse_parsed {s : String} (h : parse numbers.text s = some v) : v.Parsed numbers.text :=
  parseIn_parsed h

end Parsed

end Mise.Js
