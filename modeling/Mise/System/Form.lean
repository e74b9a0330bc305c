import Mathlib.Data.List.Forall2
import Mise.System.Keys

set_option autoImplicit true

namespace Mise.Tui

/-- What a validator says of a value; `none` for a refusal that is not a string. -/
inductive Verdict where
  | accepted
  | refused (message : Option Units)

/-- The values of a form, `undefined` being `none`. -/
abbrev Values := Units → Option (Option Units)

/-- What a row holds: text, a choice of options, or an action. -/
inductive Content where
  | text (value : Units)
  | toggle (options : List Units) (value : Nat)
  | action (value : Units)

structure Field where
  key : Units
  content : Content
  validate : Option (Option Units → Values → Verdict)
  error : Option Units

structure Form where
  fields : List Field
  active : Nat
  submitted : Bool
  cancelled : Bool

/-- The white space that `trim` takes off. -/
def isBlank (c : UInt16) : Bool :=
  c ∈ ([9, 10, 11, 12, 13, 32, 0xa0, 0x1680, 0x2028, 0x2029, 0x202f, 0x205f, 0x3000, 0xfeff] : Units) ||
    (0x2000 ≤ c && c ≤ 0x200a)

def trim (s : Units) : Units := ((s.dropWhile isBlank).reverse.dropWhile isBlank).reverse

def formInit (fields : List Field) : Form := ⟨fields, 0, false, false⟩

/-- The value of a field, as it is handed to its validator. -/
def Field.answer (f : Field) : Option Units :=
  match f.content with
  | .text value | .action value => some (trim value)
  | .toggle options value => options[value]?

def valuesOf (fields : List Field) : Values := fun key =>
  (fields.reverse.find? (·.key = key)).map Field.answer

/-- `"invalid value"` -/
def invalidValue : Units := "invalid value".toList.map fun c => c.toNat.toUInt16

def validateField (f : Field) (all : Values) : Option Units :=
  match f.validate with
  | none => none
  | some validate =>
    match validate f.answer all with
    | .accepted => none
    | .refused message => some (message.getD invalidValue)

/-- An error that counts: an empty one does not. -/
def failed (error : Option Units) : Bool := error.any (· ≠ [])

/-- The content after a key that edits it. -/
def Content.edit : Content → Key → Option Content
  | .toggle options value, .right => some (.toggle options ((value + 1) % options.length))
  | .toggle options value, .left => some (.toggle options ((value + (options.length - 1)) % options.length))
  | .text value, .char c => some (.text (value ++ [c]))
  | .text value, .backspace => some (.text value.dropLast)
  | .text _, .ctrlU => some (.text [])
  | _, _ => none

/-- `enter` on the row of a field, or on the button. -/
def Form.enter (st : Form) : Form :=
  match st.fields[st.active]? with
  | some f =>
    let error := validateField f (valuesOf st.fields)
    { st with
      fields := st.fields.set st.active { f with error := error }
      active := if failed error then st.active else st.active + 1 }
  | none =>
    let fields := st.fields.map fun f => { f with error := validateField f (valuesOf st.fields) }
    match fields.findIdx? fun f => failed f.error with
    | some firstBad => { st with fields := fields, active := firstBad }
    | none => { st with fields := fields, submitted := true }

def formReduce (st : Form) (key : Key) : Form :=
  let rows := st.fields.length + 1
  match key with
  | .ctrlC | .esc => { st with cancelled := true }
  | .up => { st with active := (st.active + rows - 1) % rows }
  | .down | .tab => { st with active := (st.active + 1) % rows }
  | .enter => st.enter
  | key =>
    match st.fields[st.active]? with
    | none => st
    | some f =>
      match f.content.edit key with
      | none => st
      | some content => { st with fields := st.fields.set st.active { f with content := content, error := none } }

/-- What has come of a form. -/
inductive Outcome where
  | editing (st : Form)
  | aborted
  | answered (values : Values)

def runKeys : Form → List Key → Outcome
  | st, [] => .editing st
  | st, key :: keys =>
    let st := formReduce st key
    if st.cancelled then .aborted
    else if st.submitted then .answered (valuesOf st.fields)
    else runKeys st keys

/-- `runForm`, over the chunks that the terminal sends. -/
def runForm (fields : List Field) (chunks : List (List UInt8)) : Outcome :=
  runKeys (formInit fields) (chunks.flatMap decodeKeys)

/-- What a key types; `DEL` and the control characters are keys of their own. -/
def Typed (c : UInt16) : Prop := 0x20 ≤ c ∧ c ≠ 0x7f

/-- What keys make of the content of a row. -/
inductive Edited : Content → Content → Prop where
  | text (h : ∀ c ∈ value', c ∈ value ∨ Typed c) : Edited (.text value) (.text value')
  | toggle (h : i < options.length → j < options.length) :
      Edited (.toggle options i) (.toggle options j)
  | action : Edited (.action value) (.action value)

/-- A field is still the same one, with content that has been edited. -/
structure Keeps (f f' : Field) : Prop where
  key : f'.key = f.key
  validate : f'.validate = f.validate
  content : Edited f.content f'.content

/-- The validator of a field lets its value pass. -/
def Accepts (f : Field) (all : Values) : Prop :=
  ∀ validate, f.validate = some validate →
    validate f.answer all = .accepted ∨ validate f.answer all = .refused (some [])

section Fields

variable {f f' : Field} {all : Values} {c c' : Content} {k : Key} {fields : List Field}

theorem Edited.refl (c : Content) : Edited c c := by
  cases c with
  | text value => exact .text fun c hc => .inl hc
  | toggle options value => exact .toggle id
  | action value => exact .action

theorem Edited.trans {c'' : Content} (h : Edited c c') (h' : Edited c' c'') : Edited c c'' := by
  cases h with
  | text h =>
    cases h' with
    | text h' =>
      apply Edited.text
      intro u hu
      rcases h' u hu with hu | hu
      · exact h u hu
      · exact .inr hu
  | toggle h =>
    cases h' with
    | toggle h' => exact .toggle fun hi => h' (h hi)
  | action => exact h'

theorem Edited.of_edit (hk : ∀ u, k = .char u → Typed u) (h : c.edit k = some c') : Edited c c' := by
  unfold Content.edit at h
  split at h
  · cases h
    exact .toggle fun hi => Nat.mod_lt _ (Nat.zero_lt_of_lt hi)
  · cases h
    exact .toggle fun hi => Nat.mod_lt _ (Nat.zero_lt_of_lt hi)
  · next value u =>
    cases h
    apply Edited.text
    intro d hd
    rcases List.mem_append.1 hd with hd | hd
    · exact .inl hd
    · rw [List.mem_singleton.1 hd]
      exact .inr (hk u rfl)
  · cases h
    exact .text fun d hd => .inl (List.dropLast_subset _ hd)
  · cases h
    exact .text fun d hd => absurd hd List.not_mem_nil
  · cases h

theorem Keeps.refl (f : Field) : Keeps f f := ⟨rfl, rfl, .refl _⟩

theorem Keeps.trans {f'' : Field} (h : Keeps f f') (h' : Keeps f' f'') : Keeps f f'' :=
  ⟨h'.key.trans h.key, h'.validate.trans h.validate, h.content.trans h'.content⟩

theorem invalidValue_ne : invalidValue ≠ [] := by decide

theorem failed_validateField : failed (validateField f all) = false ↔ Accepts f all := by
  unfold validateField Accepts
  cases f.validate with
  | none => simp [failed]
  | some validate =>
    simp only [Option.some.injEq, forall_eq']
    cases validate f.answer all with
    | accepted => simp [failed]
    | refused message =>
      cases message with
      | none => simp [failed, invalidValue_ne]
      | some r => simp [failed]

theorem valuesOf_error (fields : List Field) (g : Field → Option Units) :
    valuesOf (fields.map fun f => { f with error := g f }) = valuesOf fields := by
  funext key
  rw [valuesOf, valuesOf, ← List.map_reverse, List.find?_map, Option.map_map]
  rfl

theorem forall₂_refl (fields : List Field) : List.Forall₂ Keeps fields fields :=
  List.forall₂_same.2 fun f _ => .refl f

theorem forall₂_map (fields : List Field) (g : Field → Option Units) :
    List.Forall₂ Keeps fields (fields.map fun f => { f with error := g f }) := by
  induction fields with
  | nil => exact .nil
  | cons f fields ih => exact .cons ⟨rfl, rfl, .refl _⟩ ih

theorem forall₂_set {i : Nat} (hf : fields[i]? = some f) (h : Keeps f f') :
    List.Forall₂ Keeps fields (fields.set i f') := by
  induction fields generalizing i with
  | nil => cases hf
  | cons g fields ih =>
    cases i with
    | zero =>
      cases hf
      exact .cons h (forall₂_refl fields)
    | succ i => exact .cons (.refl g) (ih hf)

end Fields

section Reduce

variable {st st' : Form} {k : Key} {keys : List Key} {values : Values}

theorem enter_fields (st : Form) : List.Forall₂ Keeps st.fields st.enter.fields := by
  unfold Form.enter
  split
  · next f hf => exact forall₂_set hf ⟨rfl, rfl, .refl _⟩
  · dsimp only
    split
    · exact forall₂_map st.fields _
    · exact forall₂_map st.fields _

theorem formReduce_fields (hk : ∀ u, k = .char u → Typed u) :
    List.Forall₂ Keeps st.fields (formReduce st k).fields := by
  unfold formReduce
  dsimp only
  split
  · exact forall₂_refl _
  · exact forall₂_refl _
  · exact forall₂_refl _
  · exact forall₂_refl _
  · exact forall₂_refl _
  · exact enter_fields st
  · split
    · exact forall₂_refl _
    · next f hf =>
      split
      · exact forall₂_refl _
      · next c hc => exact forall₂_set hf ⟨rfl, rfl, .of_edit hk hc⟩

theorem enter_submitted (hst : st.submitted = false) (h : st.enter.submitted = true) :
    valuesOf st.enter.fields = valuesOf st.fields ∧ ∀ f ∈ st.fields, Accepts f (valuesOf st.fields) := by
  unfold Form.enter at h ⊢
  split at h
  · rw [hst] at h
    cases h
  · next hnone =>
    dsimp only at h ⊢
    split at h
    · rw [hst] at h
      cases h
    · next hgood =>
      refine ⟨valuesOf_error st.fields _, fun f hf => failed_validateField.1 ?_⟩
      exact List.findIdx?_eq_none_iff.1 hgood _ (List.mem_map_of_mem hf)

theorem formReduce_kept (hk : k ≠ .enter) : (formReduce st k).submitted = st.submitted := by
  unfold formReduce
  dsimp only
  split
  · rfl
  · rfl
  · rfl
  · rfl
  · rfl
  · exact absurd rfl hk
  · split
    · rfl
    · split
      · rfl
      · rfl

/-- A form is handed in from its button only, with every field let pass. -/
theorem formReduce_submitted (hst : st.submitted = false) (h : (formReduce st k).submitted = true) :
    valuesOf (formReduce st k).fields = valuesOf st.fields ∧
      ∀ f ∈ st.fields, Accepts f (valuesOf st.fields) := by
  by_cases hk : k = .enter
  · subst hk
    exact enter_submitted hst h
  · rw [formReduce_kept hk, hst] at h
    cases h

theorem enter_active (h : st.active ≤ st.fields.length) :
    st.enter.active ≤ st.enter.fields.length := by
  unfold Form.enter
  split
  · next f hf =>
    dsimp only
    rw [List.length_set]
    split
    · exact h
    · exact (List.getElem?_eq_some_iff.1 hf).1
  · dsimp only
    split
    · next i hi =>
      rw [List.findIdx?_eq_some_iff_getElem] at hi
      exact Nat.le_of_lt hi.1
    · rw [List.length_map]
      exact h

theorem formReduce_active (h : st.active ≤ st.fields.length) :
    (formReduce st k).active ≤ (formReduce st k).fields.length := by
  have hmod : ∀ n, n % (st.fields.length + 1) ≤ st.fields.length := fun n =>
    Nat.le_of_lt_succ (Nat.mod_lt n (Nat.succ_pos _))
  unfold formReduce
  dsimp only
  split
  · exact h
  · exact h
  · exact hmod _
  · exact hmod _
  · exact hmod _
  · exact enter_active h
  · split
    · exact h
    · split
      · exact h
      · dsimp only
        rw [List.length_set]
        exact h

theorem formReduce_cancelled (hst : st.cancelled = false) (h : (formReduce st k).cancelled = true) :
    k = .esc ∨ k = .ctrlC := by
  unfold formReduce at h
  dsimp only at h
  split at h
  · exact .inr rfl
  · exact .inl rfl
  · rw [hst] at h
    cases h
  · rw [hst] at h
    cases h
  · rw [hst] at h
    cases h
  · have henter : st.enter.cancelled = st.cancelled := by
      unfold Form.enter
      split
      · rfl
      · dsimp only
        split
        · rfl
        · rfl
    rw [henter, hst] at h
    cases h
  · have hkeep : ∀ st' : Form, st'.cancelled = st.cancelled → st'.cancelled = true → False := by
      intro st' he ht
      rw [he, hst] at ht
      cases ht
    split at h
    · exact absurd h (Bool.eq_false_iff.1 hst)
    · split at h
      · exact absurd h (Bool.eq_false_iff.1 hst)
      · exact absurd h (Bool.eq_false_iff.1 hst)

end Reduce

/-- A form that is still open, of the fields that it was opened with. -/
structure Open (fields : List Field) (st : Form) : Prop where
  kept : List.Forall₂ Keeps fields st.fields
  active : st.active ≤ st.fields.length
  submitted : st.submitted = false
  cancelled : st.cancelled = false

/-- What may come of a form. -/
def Sound (fields : List Field) (keys : List Key) : Outcome → Prop
  | .editing st => Open fields st
  | .aborted => .esc ∈ keys ∨ .ctrlC ∈ keys
  | .answered values => .enter ∈ keys ∧ ∃ final, List.Forall₂ Keeps fields final ∧
      values = valuesOf final ∧ ∀ f ∈ final, Accepts f values

section Runs

variable {st : Form} {fields : List Field} {k : Key} {keys : List Key} {values : Values}

theorem forall₂_trans {l l' l'' : List Field} (h : List.Forall₂ Keeps l l')
    (h' : List.Forall₂ Keeps l' l'') : List.Forall₂ Keeps l l'' := by
  induction h generalizing l'' with
  | nil =>
    cases h'
    exact .nil
  | cons hf _ ih =>
    cases h' with
    | cons hf' h' => exact .cons (hf.trans hf') (ih h')

theorem Open.reduce (h : Open fields st) (hk : ∀ u, k = .char u → Typed u)
    (hc : (formReduce st k).cancelled = false) (hs : (formReduce st k).submitted = false) :
    Open fields (formReduce st k) where
  kept := forall₂_trans h.kept (formReduce_fields hk)
  active := formReduce_active h.active
  submitted := hs
  cancelled := hc

theorem runKeys_sound (h : Open fields st) (hkeys : ∀ u, .char u ∈ keys → Typed u) :
    Sound fields keys (runKeys st keys) := by
  induction keys generalizing st with
  | nil => exact h
  | cons k keys ih =>
    rw [runKeys]
    split
    · next hc =>
      rcases formReduce_cancelled h.cancelled hc with rfl | rfl
      · exact .inl List.mem_cons_self
      · exact .inr List.mem_cons_self
    · next hc =>
      split
      · next hs =>
        have hk : k = .enter := by
          by_contra hk
          rw [formReduce_kept hk, h.submitted] at hs
          cases hs
        obtain ⟨hvalues, haccepts⟩ := formReduce_submitted h.submitted hs
        rw [hvalues]
        exact ⟨hk ▸ List.mem_cons_self, st.fields, h.kept, rfl, haccepts⟩
      · next hs =>
        have hk : ∀ u, k = .char u → Typed u := fun u hu => hkeys u (hu ▸ List.mem_cons_self)
        have hopen := h.reduce hk (Bool.eq_false_iff.2 hc) (Bool.eq_false_iff.2 hs)
        have hrest := ih hopen fun u hu => hkeys u (List.mem_cons_of_mem k hu)
        cases hrun : runKeys (formReduce st k) keys with
        | editing st' =>
          rw [hrun] at hrest
          exact hrest
        | aborted =>
          rw [hrun] at hrest
          exact hrest.imp (List.mem_cons_of_mem k) (List.mem_cons_of_mem k)
        | answered values =>
          rw [hrun] at hrest
          exact ⟨List.mem_cons_of_mem k hrest.1, hrest.2⟩

theorem runKeys_append (st : Form) (keys keys' : List Key) : runKeys st (keys ++ keys') =
    match runKeys st keys with
    | .editing st' => runKeys st' keys'
    | .aborted => .aborted
    | .answered values => .answered values := by
  induction keys generalizing st with
  | nil => rfl
  | cons k keys ih =>
    rw [List.cons_append, runKeys, runKeys]
    split
    · rfl
    · split
      · rfl
      · exact ih _

theorem runKeys_tabs (h : Open fields st) {n : Nat} (hn : st.active + n = st.fields.length) :
    runKeys st (List.replicate n .tab ++ keys) = runKeys { st with active := st.fields.length } keys := by
  induction n generalizing st with
  | zero =>
    have hactive : st.active = st.fields.length := hn
    rw [← hactive]
    rfl
  | succ n ih =>
    have hlt : st.active + 1 < st.fields.length + 1 := by omega
    have htab : formReduce st .tab = { st with active := st.active + 1 } := by
      unfold formReduce
      dsimp only
      rw [Nat.mod_eq_of_lt hlt]
    have hopen : Open fields { st with active := st.active + 1 } :=
      ⟨h.kept, Nat.le_of_lt_succ hlt, h.submitted, h.cancelled⟩
    have hc : ¬ st.cancelled = true := Bool.eq_false_iff.1 h.cancelled
    have hs : ¬ st.submitted = true := Bool.eq_false_iff.1 h.submitted
    have hrest := ih hopen (by dsimp only; omega)
    rw [List.replicate_succ, List.cons_append, runKeys, htab, if_neg hc, if_neg hs]
    exact hrest

/-- The button hands in what every validator lets pass, and nothing else. -/
theorem runKeys_enter (h : Open fields st) (hactive : st.active = st.fields.length) :
    runKeys st [.enter] = .answered values ↔
      values = valuesOf st.fields ∧ ∀ f ∈ st.fields, Accepts f (valuesOf st.fields) := by
  have hc : ¬ (formReduce st .enter).cancelled = true := by
    intro hcancelled
    rcases formReduce_cancelled h.cancelled hcancelled with hk | hk
    · cases hk
    · cases hk
  rw [runKeys, if_neg hc]
  constructor
  · intro hrun
    split at hrun
    · next hs =>
      obtain ⟨hvalues, haccepts⟩ := formReduce_submitted h.submitted hs
      rw [hvalues] at hrun
      cases hrun
      exact ⟨rfl, haccepts⟩
    · cases hrun
  · rintro ⟨rfl, haccepts⟩
    have hnone : st.fields[st.active]? = none := by
      rw [hactive]
      exact List.getElem?_eq_none (Nat.le_refl _)
    have hgood : (st.fields.map fun f => { f with error := validateField f (valuesOf st.fields) }).findIdx?
        (fun f => failed f.error) = none := by
      rw [List.findIdx?_eq_none_iff]
      intro f hf
      obtain ⟨g, hg, rfl⟩ := List.mem_map.1 hf
      exact failed_validateField.2 (haccepts g hg)
    have henter : formReduce st .enter = { st with
        fields := st.fields.map fun f => { f with error := validateField f (valuesOf st.fields) }
        submitted := true } := by
      have hreduce : formReduce st .enter = st.enter := rfl
      rw [hreduce, Form.enter, hnone]
      dsimp only
      rw [hgood]
    rw [henter, if_pos rfl, valuesOf_error]

theorem single_typed {c u : UInt16} (h : .char u ∈ single c) : Typed u := by
  unfold single at h
  split at h
  · cases List.mem_singleton.1 h
  · split at h
    · cases List.mem_singleton.1 h
    · split at h
      · cases List.mem_singleton.1 h
      · next hdel =>
        split at h
        · cases List.mem_singleton.1 h
        · split at h
          · cases List.mem_singleton.1 h
          · split at h
            · next hc =>
              cases List.mem_singleton.1 h
              exact ⟨hc, fun hu => hdel (.inl hu)⟩
            · cases h

theorem sequence_key (s : Units) (u : UInt16) : .char u ≠ (sequence s).1 := by
  rcases sequence_cases s with ⟨x, y, rfl, hx⟩ | hs
  · have hnamed : ∀ q ∈ sequences, (sequence q.tail).1 ∈
        [Key.up, .down, .right, .left, .home, .end, .delete] := by decide
    have hkey : (sequence x).1 ∈ [Key.up, .down, .right, .left, .home, .end, .delete] := hnamed _ hx
    rw [(sequence_known hx y).1]
    intro hu
    dsimp only at hu
    rw [← hu] at hkey
    simp only [List.mem_cons, List.not_mem_nil, reduceCtorEq, or_self] at hkey
  · rw [hs]
    exact Key.noConfusion

theorem readKeys_typed {s : Units} {u : UInt16} (h : .char u ∈ readKeys s) : Typed u := by
  have hfrom : ∀ n, .char u ∈ decodeFrom n s → Typed u := by
    clear h
    induction s with
    | nil => exact fun n h => absurd h List.not_mem_nil
    | cons c s ih =>
      intro n h
      cases n with
      | succ n => exact ih n h
      | zero =>
        rw [decodeFrom] at h
        split at h
        · rcases List.mem_cons.1 h with h | h
          · exact absurd h (sequence_key s u)
          · exact ih _ h
        · rcases List.mem_append.1 h with h | h
          · exact single_typed h
          · exact ih 0 h
  exact hfrom 0 h

end Runs

/-- What is typed on the way to the button, and on it. -/
def handIn (st : Form) : List UInt8 := List.replicate (st.fields.length - st.active) 0x09 ++ [0x0d]

theorem decodeKeys_handIn (st : Form) :
    decodeKeys (handIn st) = List.replicate (st.fields.length - st.active) .tab ++ [.enter] := by
  rw [handIn]
  induction st.fields.length - st.active with
  | zero => rfl
  | succ n ih =>
    have htab : ∀ bs, decodeKeys (0x09 :: bs) = .tab :: decodeKeys bs := fun _ => rfl
    rw [List.replicate_succ, List.cons_append, List.replicate_succ, List.cons_append, ← ih, htab]

/-- Whatever is typed into a form, it hands in only values that every validator lets pass, of the fields
that it was opened with, and only where enter has been pressed; and it hands in those that it holds whenever they are let pass. -/
theorem form_answers (fields : List Field) (chunks : List (List UInt8)) :
    Sound fields (chunks.flatMap decodeKeys) (runForm fields chunks) ∧
      ∀ st, runForm fields chunks = .editing st → ∀ values,
        runForm fields (chunks ++ [handIn st]) = .answered values ↔
          values = valuesOf st.fields ∧ ∀ f ∈ st.fields, Accepts f (valuesOf st.fields) := by
  have hopen : Open fields (formInit fields) := ⟨forall₂_refl fields, Nat.zero_le _, rfl, rfl⟩
  have hkeys : ∀ u, .char u ∈ chunks.flatMap decodeKeys → Typed u := by
    intro u hu
    obtain ⟨chunk, -, hu⟩ := List.mem_flatMap.1 hu
    exact readKeys_typed hu
  have hsound := runKeys_sound hopen hkeys
  refine ⟨hsound, fun st hst values => ?_⟩
  have hst' : Open fields st := by
    rw [runForm] at hst
    rw [hst] at hsound
    exact hsound
  have hdown : runKeys st (List.replicate (st.fields.length - st.active) .tab ++ [.enter]) =
      runKeys { st with active := st.fields.length } [.enter] :=
    runKeys_tabs hst' (Nat.add_sub_cancel' hst'.active)
  have hbottom : Open fields { st with active := st.fields.length } :=
    ⟨hst'.kept, Nat.le_refl _, hst'.submitted, hst'.cancelled⟩
  rw [runForm] at hst
  rw [runForm, List.flatMap_append, List.flatMap_singleton, runKeys_append, hst, decodeKeys_handIn]
  dsimp only
  rw [hdown]
  exact runKeys_enter hbottom rfl

end Mise.Tui
