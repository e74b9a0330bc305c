import Mise.Server.Idempotent
import Mise.Server.PublicationRuns

set_option autoImplicit true

namespace Mise.Server

open Js Async

section Shows

variable {S : Instance} {s : Store} {w : World Event} {rec : StoreRecord}
  {f f' : String → Option (String × Option Json)} {nodes : List PublicNode}

/-- The list has the seed nodes, and says of the submissions what `f` says. -/
structure Shows (S : Instance) (f : String → Option (String × Option Json))
    (nodes : List PublicNode) : Prop where
  ids : ∀ id, id ∈ nodes.map PublicNode.id ↔
    id ∈ S.seedNodes.map RawRecord.id ∨ ∃ k v, f k = some v ∧ some k = id
  records : ∀ k v, f k = some v → ∀ n ∈ nodes, n.id = some k →
    n.name = some (.str v.1) ∧ n.payload = v.2

theorem shown_eq_some {v : String × Option Json} :
    rec.shown = some v ↔ rec.published = true ∧ (rec.title, rec.raw.get "payload") = v := by
  unfold StoreRecord.shown
  split <;> simp_all

theorem Mirrors.id_eq {id : String} (h : Mirrors s w) (hs : s.Loaded)
    (hget : s.submissions.get id = some r) (hr : content s r w.log = some rec) : rec.id = id := by
  obtain ⟨-, old, ho, hid⟩ := h.kept r rec hr
  obtain ⟨old', ho', hid'⟩ := hs.stored id r hget
  cases ho.symm.trans ho'
  exact hid.symm.trans hid'

theorem Mirrors.listed (h : Mirrors s w) (hs : s.Loaded) : rec ∈ w.store.listed ↔
    ∃ r, slot s rec.id w.log = some r ∧ content s r w.log = some rec := by
  constructor
  · intro hrec
    obtain ⟨r, hr, ho⟩ := List.mem_filterMap.1 hrec
    obtain ⟨⟨id, r⟩, hx, rfl⟩ := List.mem_map.1 hr
    have hslot := (h.slots id).symm.trans (Table.get_of_mem hx)
    have hc := (h.objects r).symm.trans ho
    refine ⟨r, ?_, hc⟩
    rw [h.id_eq hs (h.placed id r hslot) hc]
    exact hslot
  · rintro ⟨r, hslot, hc⟩
    exact List.mem_filterMap.2 ⟨r, Table.mem_values ((h.slots _).trans hslot), (h.objects r).trans hc⟩

theorem Mirrors.view (h : Mirrors s w) (hs : s.Loaded) {id : String} {v : String × Option Json} :
    (view s w.log).1 id = some v ↔
      ∃ rec ∈ w.store.listed, rec.published ∧ rec.id = id ∧ (rec.title, rec.raw.get "payload") = v := by
  constructor
  · intro hv
    obtain ⟨r, hslot, hr⟩ := Option.bind_eq_some_iff.1 hv
    obtain ⟨rec, hc, hrec⟩ := Option.bind_eq_some_iff.1 hr
    obtain ⟨hpub, hrec⟩ := shown_eq_some.1 hrec
    have hid := h.id_eq hs (h.placed id r hslot) hc
    subst hid
    exact ⟨rec, (h.listed hs).2 ⟨r, hslot, hc⟩, hpub, rfl, hrec⟩
  · rintro ⟨rec, hrec, hpub, rfl, hv⟩
    obtain ⟨r, hslot, hc⟩ := (h.listed hs).1 hrec
    refine Option.bind_eq_some_iff.2 ⟨r, hslot, Option.bind_eq_some_iff.2 ⟨rec, hc, ?_⟩⟩
    exact shown_eq_some.2 ⟨hpub, hv⟩

theorem Mirrors.agrees_iff (h : Mirrors s w) (hs : s.Loaded) :
    Agrees S w.store nodes ↔ Shows S (Server.view s w.log).1 nodes := by
  constructor
  · intro ha
    refine ⟨fun id => (ha.ids id).trans (or_congr_right ⟨?_, ?_⟩), fun k v hv n hn hid => ?_⟩
    · rintro ⟨rec, hrec, hpub, rfl⟩
      exact ⟨rec.id, _, (h.view hs).2 ⟨rec, hrec, hpub, rfl, rfl⟩, rfl⟩
    · rintro ⟨k, v, hv, rfl⟩
      obtain ⟨rec, hrec, hpub, rfl, -⟩ := (h.view hs).1 hv
      exact ⟨rec, hrec, hpub, rfl⟩
    · obtain ⟨rec, hrec, hpub, rfl, rfl⟩ := (h.view hs).1 hv
      exact ha.records rec hrec hpub n hn hid
  · intro hsh
    refine ⟨fun id => (hsh.ids id).trans (or_congr_right ⟨?_, ?_⟩), fun rec hrec hpub n hn hid => ?_⟩
    · rintro ⟨k, v, hv, rfl⟩
      obtain ⟨rec, hrec, hpub, rfl, -⟩ := (h.view hs).1 hv
      exact ⟨rec, hrec, hpub, rfl⟩
    · rintro ⟨rec, hrec, hpub, rfl⟩
      exact ⟨rec.id, _, (h.view hs).2 ⟨rec, hrec, hpub, rfl, rfl⟩, rfl⟩
    · exact hsh.records rec.id _ ((h.view hs).2 ⟨rec, hrec, hpub, rfl, rfl⟩) n hn hid

end Shows

section Raw

variable {rec : StoreRecord}

theorem get_fields {r : RawRecord} {l : List (String × Option Json)}
    (hr : r.fields = l.filterMap fun x => x.2.map (x.1, ·)) (h : (l.map Prod.fst).Nodup) (k : String) :
    r.get k = (l.lookup k).bind fun v => v := by
  rw [RawRecord.get, hr]
  exact Table.lookup_filterMap (fun v => v) h k

theorem raw_status : rec.raw.get "status" = some (.str rec.status.text) :=
  (get_fields rfl (by simp) _).trans (by simp [List.lookup_cons])

theorem raw_signed : rec.raw.get "signed" = rec.signed.map .str :=
  (get_fields rfl (by simp) _).trans (by simp [List.lookup_cons])

theorem raw_name : rec.raw.get "name" = rec.name.map .str :=
  (get_fields rfl (by simp) _).trans (by simp [List.lookup_cons])

theorem raw_paynym : rec.raw.get "paynym" = rec.paynym.map .str :=
  (get_fields rfl (by simp) _).trans (by simp [List.lookup_cons])

theorem raw_paymentCodes :
    rec.raw.get "paymentCodes" = rec.paymentCodes.map fun l => .arr (l.map .str) :=
  (get_fields rfl (by simp) _).trans (by simp [List.lookup_cons])

theorem asText_map (t : Option String) : asText (t.map .str) = t := by
  cases t <;> rfl

theorem status_text {st : Status} : st.text = "approved" ↔ st = .approved := by
  cases st <;> simp [Status.text]

theorem raw_codes (h : Normal rec) : rec.raw.paymentCodes = rec.codes := by
  obtain ⟨-, l, hl, hnodup, hne⟩ := h
  have hcodes : rec.codes = l := by rw [StoreRecord.codes, hl, Option.getD_some]
  have hf : l.filter (· ≠ "") = l := List.filter_eq_self.2 fun c hc => by
    have hc : c ≠ "" := fun e => hne (e ▸ hc)
    simpa using hc
  have htext : (l.map Json.str).filterMap (fun v => asText (some v)) = l := by
    rw [List.filterMap_map]
    exact List.filterMap_some
  simp only [RawRecord.paymentCodes, raw_paymentCodes, hl, Option.map_some, htext, hf,
    unique_of_nodup hnodup, hcodes]

theorem raw_block : rec.raw.hasSignedBlock = hasSignedBlock rec := by
  rw [RawRecord.hasSignedBlock, raw_signed, asText_map]
  rfl

/-- A rebuild publishes what is approved, has a payment code and a signed block. -/
theorem raw_published (h : Normal rec) :
    (asText (rec.raw.get "status") = some "approved" ∧
      (rec.raw.paymentCodes ≠ [] && rec.raw.hasSignedBlock) = true) ↔ rec.published = true := by
  rw [raw_codes h, raw_block, raw_status, asText, Option.some.injEq, status_text]
  simp only [StoreRecord.published, Bool.and_eq_true, decide_eq_true_eq, and_assoc]

theorem orNothing_str (t : Option String) : orNothing (t.map .str) = (present t).map .str := by
  cases t with
  | none => rfl
  | some t =>
    by_cases ht : t = ""
    · subst ht
      rfl
    · simp [orNothing, present, Option.filter, Json.truthy, ht]

theorem toPublicNode_raw (code : Option Json) :
    (toPublicNode rec.raw code).id = some rec.id ∧
    (toPublicNode rec.raw code).name = some (.str rec.title) ∧
      (toPublicNode rec.raw code).payload = rec.raw.get "payload" := by
  refine ⟨rfl, ?_, rfl⟩
  simp only [toPublicNode, raw_name, raw_paynym, orNothing_str, raw_id, StoreRecord.title]
  cases present rec.name with
  | some n => rfl
  | none => cases present rec.paynym <;> rfl

end Raw

section Published

variable {S : Instance} {subs : List StoreRecord} {prior : List PublicNode} {rec : StoreRecord}
  {f : String → Option (String × Option Json)}

theorem mem_approvedSubs (hn : ∀ rec ∈ subs, Normal rec) {r : RawRecord} :
    r ∈ (S.reading subs prior).approvedSubs ↔ ∃ rec ∈ subs, rec.published ∧ rec.raw = r := by
  simp only [Instance.approvedSubs, Instance.reading, List.map_map, List.mem_filter, List.mem_map,
    Function.comp_apply, decide_eq_true_eq, and_assoc]
  constructor
  · rintro ⟨⟨rec, hrec, rfl⟩, h⟩
    exact ⟨rec, hrec, (raw_published (hn rec hrec)).1 h, rfl⟩
  · rintro ⟨rec, hrec, hpub, rfl⟩
    exact ⟨⟨rec, hrec, rfl⟩, (raw_published (hn rec hrec)).2 hpub⟩

/-- What a rebuild writes says what it has read. -/
theorem shows_published (hn : ∀ rec ∈ subs, Normal rec)
    (hf : ∀ k v, f k = some v ↔
      ∃ rec ∈ subs, rec.published ∧ rec.id = k ∧ (rec.title, rec.raw.get "payload") = v)
    (hu : ∀ rec ∈ subs, ∀ rec' ∈ subs, rec.id = rec'.id → rec = rec') :
    Shows S f (S.reading subs prior).published := by
  have happroved : ∀ n, n ∈ (S.reading subs prior).approved ↔
      ∃ rec ∈ subs, rec.published ∧
        toPublicNode rec.raw ((displayPaymentCode S.mapping rec.raw).map .str) = n := by
    intro n
    rw [Instance.approved, List.mem_map]
    constructor
    · rintro ⟨r, hr, rfl⟩
      obtain ⟨rec, hrec, hpub, rfl⟩ := (mem_approvedSubs hn).1 hr
      exact ⟨rec, hrec, hpub, rfl⟩
    · rintro ⟨rec, hrec, hpub, rfl⟩
      exact ⟨rec.raw, (mem_approvedSubs hn).2 ⟨rec, hrec, hpub, rfl⟩, rfl⟩
  constructor
  · intro id
    rw [Instance.published_ids, Instance.byId, Map.keys_setAll, Map.keys_setAll, List.mem_map (f := PublicNode.id)]
    constructor
    · rintro ((h | h) | ⟨n, hnode, rfl⟩)
      · cases h
      · exact .inl h
      · obtain ⟨rec, hrec, hpub, rfl⟩ := (happroved n).1 hnode
        exact .inr ⟨rec.id, _, (hf _ _).2 ⟨rec, hrec, hpub, rfl, rfl⟩, rfl⟩
    · rintro (h | ⟨k, v, hv, rfl⟩)
      · exact .inl (.inr h)
      · obtain ⟨rec, hrec, hpub, rfl, -⟩ := (hf k v).1 hv
        exact .inr ⟨_, (happroved _).2 ⟨rec, hrec, hpub, rfl⟩, rfl⟩
  · intro k v hv n hnode hid
    obtain ⟨rec, hrec, hpub, rfl, rfl⟩ := (hf k v).1 hv
    obtain ⟨n₁, hn₁, rfl⟩ := List.mem_map.1 hnode
    obtain ⟨n₀, hn₀, rfl⟩ := List.mem_map.1 hn₁
    obtain ⟨-, hget⟩ := Instance.mem_byId hn₀
    have hid : n₀.id = some rec.id := hid
    rw [hid, Instance.byId, Map.get_setAll] at hget
    cases hm : (S.reading subs prior).approved.reverse.find? fun n => n.id = some rec.id with
    | none =>
      have hnone := List.find?_eq_none.1 hm _ (List.mem_reverse.2 ((happroved _).2 ⟨rec, hrec, hpub, rfl⟩))
      exact absurd (toPublicNode_raw _).1 (by simpa using hnone)
    | some m =>
      rw [hm] at hget
      obtain rfl : m = n₀ := Option.some.inj hget
      obtain ⟨rec', hrec', -, rfl⟩ := (happroved m).1 (List.mem_reverse.1 (List.mem_of_find?_eq_some hm))
      have hrecid : rec'.id = rec.id := Option.some.inj ((toPublicNode_raw _).1.symm.trans hid)
      obtain rfl := hu rec' hrec' rec hrec hrecid
      exact (toPublicNode_raw ((displayPaymentCode S.mapping rec'.raw).map .str)).2

end Published

section Publishing

variable {S : Instance} {s : Store} {list : List PublicNode} {i : Nat} {t₀ t t' : Publisher}

def Publisher.log (t : Publisher) : List Event := t.world.log

/-- The list says what the last rebuild that wrote it has read. -/
structure Listed (S : Instance) (s : Store) (list : List PublicNode) (t : Publisher) : Prop where
  mirrors : Mirrors s t.world
  histories : ∀ p ∈ t.publications, p.listed <:+ p.read ∧ p.read <:+ t.log
  unwritten : t.publications = [] → t.list = list
  written : ∀ p, t.publications.head? = some p → Shows S (p.shows s) t.list

/-- A step that adds events that satisfy `ok`. -/
structure Goes (S : Instance) (s : Store) (list : List PublicNode) (ok : Event → Prop)
    (t t' : Publisher) : Prop where
  adds : Owned.Adds Publisher.log (Listed S s list) ok t t'
  grows : t.publications <:+ t'.publications

/-- What the other requests do while request `i` waits. -/
abbrev ModerateRely (S : Instance) (s : Store) (list : List PublicNode) (i : Nat) :
    Publisher → Publisher → Prop := Goes S s list fun e => requestOf e ≠ some i

abbrev ModerateGuarantee (S : Instance) (s : Store) (list : List PublicNode) (i : Nat) :
    Publisher → Publisher → Prop := Goes S s list fun e => ∀ j, requestOf e = some j → j = i

theorem Goes.refl {ok : Event → Prop} (t : Publisher) : Goes S s list ok t t :=
  ⟨.refl t, List.suffix_rfl⟩

theorem Goes.trans {ok : Event → Prop} {t'' : Publisher} (h : Goes S s list ok t t')
    (h' : Goes S s list ok t' t'') : Goes S s list ok t t'' :=
  ⟨h.adds.trans h'.adds, h.grows.trans h'.grows⟩

/-- What request `i` knows of the list and the store: `P`, and the invariant. -/
abbrev Knowing (S : Instance) (s : Store) (list : List PublicNode) (i : Nat) (P : Publisher → Prop) :
    Publisher → Publisher → Prop :=
  Holding (ModerateRely S s list i) (ModerateGuarantee S s list i) fun t => Listed S s list t ∧ P t

/-- What is known stays known whatever the other requests do. -/
def Lasting (S : Instance) (s : Store) (list : List PublicNode) (i : Nat) (P : Publisher → Prop) : Prop :=
  ∀ t t', ModerateRely S s list i t t' → P t → P t'

variable {P P' : Publisher → Prop}

theorem Lasting.true : Lasting S s list i fun _ => True := fun _ _ _ h => h

theorem Lasting.or (h : Lasting S s list i P) (h' : Lasting S s list i P') :
    Lasting S s list i fun t => P t ∨ P' t := fun t t' hr hp => hp.imp (h t t' hr) (h' t t' hr)

theorem Lasting.const (p : Prop) : Lasting S s list i fun _ => p := fun _ _ _ h => h

theorem Lasting.log {Q : List Event → Prop} (h : Owned.Stable requestOf i Q) :
    Lasting S s list i fun t => Q t.log := by
  intro t t' hr hq
  obtain ⟨l, hl, hne⟩ := hr.adds.added
  rw [hl]
  exact h l t.log hne hq

theorem Lasting.kept (h : Lasting S s list i P) :
    ∀ t t', ModerateRely S s list i t t' → Listed S s list t ∧ P t → Listed S s list t' ∧ P t' :=
  fun t t' hr hp => ⟨hr.adds.inv hp.1, h t t' hr hp.2⟩

theorem knowing_wait (h : Knowing S s list i P t₀ t) {E : Fault → Publisher → Publisher → Prop} :
    Sat (ModerateRely S s list i) (ModerateGuarantee S s list i) (fun _ => Knowing S s list i P) E
      (Async.wait : Publishing Success) t₀ t := h.wait .refl

theorem knowing_fileOperation (h : Knowing S s list i P t₀ t)
    {E : Fault → Publisher → Publisher → Prop} :
    Sat (ModerateRely S s list i) (ModerateGuarantee S s list i) (fun _ => Knowing S s list i P) E
      (act fileOperation) t₀ t := by
  refine ⟨h.steps, fun u hu a => ?_⟩
  have hk : Knowing S s list i P u u := ⟨.refl u, h.stable, h.stable t u hu h.known⟩
  have ha : a.1.ok = true := a.2
  change Sat _ _ _ _ (act (do
    unless a.1.ok do MonadExcept.throw .io
    Pure.pure a.1)) u u
  rw [ha]
  exact hk

theorem knowing_actWait (h : Knowing S s list i P t₀ t) {E : Fault → Publisher → Publisher → Prop} :
    Sat (ModerateRely S s list i) (ModerateGuarantee S s list i) (fun _ => Knowing S s list i P) E
      (act (Async.wait : Action Event Answer)) t₀ t :=
  ⟨h.steps, fun u hu _ => ⟨.refl u, h.stable, h.stable t u hu h.known⟩⟩

theorem knowing_awaiting {p : Action Event α} {E : Fault → Publisher → Publisher → Prop}
    (h : Sat (ModerateRely S s list i) (ModerateGuarantee S s list i)
      (fun _ => Knowing S s list i P) E (act p) t₀ t) :
    Sat (ModerateRely S s list i) (ModerateGuarantee S s list i) (fun _ => Knowing S s list i P) E
      (act (awaiting p)) t₀ t := by
  unfold awaiting act
  rw [zoom_bind]
  refine h.seq fun _ _ u h => ?_
  exact ⟨h.steps, fun v hv _ => ⟨.refl v, h.stable, h.stable u v hv h.known⟩⟩

theorem knowing_writeAtomic (h : Knowing S s list i P t₀ t)
    {E : Fault → Publisher → Publisher → Prop} :
    Sat (ModerateRely S s list i) (ModerateGuarantee S s list i) (fun _ => Knowing S s list i P) E
      (act rebuild.writeAtomic) t₀ t := by
  unfold rebuild.writeAtomic act
  rw [zoom_bind]
  refine (knowing_fileOperation h).seq fun _ _ _ h => ?_
  rw [zoom_bind]
  refine (knowing_fileOperation h).seq fun _ _ _ h => ?_
  rw [zoom_bind]
  exact (knowing_fileOperation h).seq fun _ _ _ h => h

theorem knowing_act {Q : α → List Event → Prop} {p : Action Event α} {w : World Event}
    (hQ : ∀ a, Owned.Stable requestOf i (Q a)) (hk : Listed S s list t)
    (h : Owned.Keeps World.log requestOf (Mirrors s) i (fun a => Aware s i (Q a)) p t.world w) :
    Sat (ModerateRely S s list i) (ModerateGuarantee S s list i)
      (fun a => Knowing S s list i fun t => Q a t.log)
      (fun _ => Knowing S s list i fun _ => True) (act p) t { t with world := w } := by
  have hset : ∀ {t : Publisher} {w : World Event}, Listed S s list t →
      Owned.Own World.log requestOf (Mirrors s) i t.world w →
      ModerateGuarantee S s list i t { t with world := w } ∧ Listed S s list { t with world := w } := by
    intro t w hk hw
    obtain ⟨l, hl, hown⟩ := hw.added
    have hsuffix : t.log <:+ w.log := ⟨l, hl.symm⟩
    have hk' : Listed S s list { t with world := w } :=
      ⟨hw.inv hk.mirrors, fun p hp => ⟨(hk.histories p hp).1, (hk.histories p hp).2.trans hsuffix⟩,
        hk.unwritten, hk.written⟩
    exact ⟨⟨⟨⟨l, hl, hown⟩, fun _ => hk'⟩, List.suffix_rfl⟩, hk'⟩
  refine sat_zoom (L := Publisher.part) (Listed S s list) (fun t w hk hw => hset hk hw)
    (fun t t' hk hr => ⟨⟨hr.adds.added, fun _ => (hr.adds.inv hk).mirrors⟩, hr.adds.inv hk⟩)
    (fun a t w hk ha => ?_) (fun e t w hk he => ?_) hk h
  · obtain ⟨hg, hk'⟩ := hset hk ha.steps
    exact ⟨hg, (Lasting.log (hQ a)).kept, hk', ha.known⟩
  · obtain ⟨hg, hk'⟩ := hset hk he.steps
    exact ⟨hg, Lasting.true.kept, hk', trivial⟩

theorem knowing_listSubmissions (h : Knowing S s list i P t₀ t)
    {E : Fault → Publisher → Publisher → Prop} :
    Sat (ModerateRely S s list i) (ModerateGuarantee S s list i)
      (fun refs t₀ t => Knowing S s list i P t₀ t ∧ refs = t.world.store.submissions.values) E
      (act (listSubmissions i false)) t₀ t :=
  ⟨h.steps, fun u hu _ => ⟨⟨.refl u, h.stable, h.stable t u hu h.known⟩, rfl⟩⟩

/-- Request `i` has done nothing since the history `l`. -/
def Since (i : Nat) (l : List Event) (t : Publisher) : Prop :=
  ∃ c, t.log = c ++ l ∧ ∀ e ∈ c, e.request ≠ i

theorem Lasting.since (l : List Event) : Lasting S s list i (Since i l) := by
  rintro t t' hr ⟨c, hc, hne⟩
  obtain ⟨c', hc', hne'⟩ := hr.adds.added
  refine ⟨c' ++ c, by rw [hc', hc, List.append_assoc], fun e he => ?_⟩
  obtain he | he := List.mem_append.1 he
  · exact request_ne hne' e he
  · exact hne e he

theorem Lasting.suffix (l : List Event) : Lasting S s list i fun t => l <:+ t.log := by
  intro t t' hr hl
  obtain ⟨c, hc, -⟩ := hr.adds.added
  exact hl.trans ⟨c, hc.symm⟩

/-- A rebuild of request `i` has written the list, and the request has done nothing since. -/
def Rebuilt (i : Nat) (t : Publisher) : Prop :=
  ∃ p ∈ t.publications, p.request = i ∧ Since i p.listed t

theorem Lasting.rebuilt : Lasting S s list i (Rebuilt i) := by
  rintro t t' hr ⟨p, hp, hi, hsince⟩
  exact ⟨p, hr.grows.subset hp, hi, Lasting.since p.listed t t' hr hsince⟩

theorem shows_read (hs : s.Loaded) {w₁ w₂ : World Event} (h₁ : Mirrors s w₁) (h₂ : Mirrors s w₂)
    (prior : List PublicNode) :
    Shows S (Publication.shows s ⟨i, w₁.log, w₂.log⟩)
      (S.reading (w₁.store.submissions.values.filterMap w₂.store.object) prior).published := by
  have hsub : ∀ rec, rec ∈ w₁.store.submissions.values.filterMap w₂.store.object ↔
      ∃ r, slot s rec.id w₁.log = some r ∧ content s r w₂.log = some rec := by
    intro rec
    constructor
    · intro hrec
      obtain ⟨r, hr, ho⟩ := List.mem_filterMap.1 hrec
      obtain ⟨⟨k, r⟩, hx, rfl⟩ := List.mem_map.1 hr
      have hslot := (h₁.slots k).symm.trans (Table.get_of_mem hx)
      have hc := (h₂.objects r).symm.trans ho
      refine ⟨r, ?_, hc⟩
      rw [h₂.id_eq hs (h₁.placed k r hslot) hc]
      exact hslot
    · rintro ⟨r, hslot, hc⟩
      exact List.mem_filterMap.2
        ⟨r, Table.mem_values ((h₁.slots _).trans hslot), (h₂.objects r).trans hc⟩
  refine shows_published (fun rec hrec => ?_) (fun k v => ?_) fun rec hrec rec' hrec' hid => ?_
  · obtain ⟨r, -, hc⟩ := (hsub rec).1 hrec
    exact (h₂.kept r rec hc).1
  · constructor
    · intro hv
      obtain ⟨r, hslot, hr⟩ := Option.bind_eq_some_iff.1 hv
      obtain ⟨rec, hc, hrec⟩ := Option.bind_eq_some_iff.1 hr
      obtain ⟨hpub, hrec⟩ := shown_eq_some.1 hrec
      have hid := h₂.id_eq hs (h₁.placed k r hslot) hc
      exact ⟨rec, (hsub rec).2 ⟨r, hid ▸ hslot, hc⟩, hpub, hid, hrec⟩
    · rintro ⟨rec, hrec, hpub, rfl, hv⟩
      obtain ⟨r, hslot, hc⟩ := (hsub rec).1 hrec
      refine Option.bind_eq_some_iff.2 ⟨r, hslot, Option.bind_eq_some_iff.2 ⟨rec, hc, ?_⟩⟩
      exact shown_eq_some.2 ⟨hpub, hv⟩
  · obtain ⟨r, hslot, hc⟩ := (hsub rec).1 hrec
    obtain ⟨r', hslot', hc'⟩ := (hsub rec').1 hrec'
    rw [← hid, hslot] at hslot'
    cases hslot'
    exact Option.some.inj (hc.symm.trans hc')

theorem knowing_publish {p : Publication} {nodes : List PublicNode} (h : Knowing S s list p.request P t₀ t)
    (hsince : Since p.request p.listed t) (hl : p.listed <:+ p.read) (hread : p.read <:+ t.log)
    (hshows : Shows S (p.shows s) nodes) :
    Knowing S s list p.request (Rebuilt p.request) t₀
      { t with list := nodes, publications := p :: t.publications } := by
  have hkept : Listed S s list { t with list := nodes, publications := p :: t.publications } := by
    refine ⟨h.known.1.mirrors, fun q hq => ?_, nofun, fun q hq => ?_⟩
    · obtain rfl | hq := List.mem_cons.1 hq
      · exact ⟨hl, hread⟩
      · exact h.known.1.histories q hq
    · cases hq
      exact hshows
  exact h.step .trans ⟨⟨⟨[], rfl, fun _ he => absurd he List.not_mem_nil⟩, fun _ => hkept⟩,
    List.suffix_cons _ _⟩ Lasting.rebuilt.kept ⟨hkept, p, List.mem_cons_self, rfl, hsince⟩

theorem knowing_rebuildList (hs : s.Loaded) (h : Knowing S s list i (fun _ => True) t₀ t)
    {E : Fault → Publisher → Publisher → Prop} :
    Sat (ModerateRely S s list i) (ModerateGuarantee S s list i)
      (fun _ => Knowing S s list i (Rebuilt i)) E (rebuildList S i) t₀ t := by
  unfold rebuildList
  refine (knowing_awaiting (knowing_fileOperation h)).seq fun _ _ _ h => ?_
  refine (knowing_awaiting (knowing_fileOperation h)).seq fun _ _ _ h => ?_
  refine (knowing_wait h).seq fun _ _ _ h => ?_
  refine (knowing_listSubmissions h).seq fun refs t₁' t₁ h => ?_
  obtain ⟨h, rfl⟩ := h
  rw [sat_bind, sat_read]
  have h₁ := h.known.1.mirrors
  have h := h.mono (Lasting.since t₁.log).kept fun hk => ⟨hk.1, [], rfl, by simp⟩
  refine (knowing_wait h).seq fun _ t₂' t₂ h => ?_
  rw [sat_bind, sat_read]
  have h₂ := h.known.1.mirrors
  have hl : t₁.log <:+ t₂.log := by
    obtain ⟨c, hc, -⟩ := h.known.2
    exact ⟨c, hc.symm⟩
  have hlasting : Lasting S s list i fun t => Since i t₁.log t ∧ t₂.log <:+ t.log :=
    fun t t' hr hp => ⟨Lasting.since _ t t' hr hp.1, Lasting.suffix _ t t' hr hp.2⟩
  have h := h.mono hlasting.kept fun hk => ⟨hk.1, hk.2, List.suffix_rfl⟩
  refine (knowing_wait h).seq fun _ t₃' t₃ h => ?_
  rw [sat_bind, sat_read]
  refine (knowing_wait h).seq fun _ _ _ h => ?_
  refine (knowing_awaiting (knowing_fileOperation h)).seq fun _ _ _ h => ?_
  refine (knowing_awaiting (knowing_actWait h)).seq fun _ _ _ h => ?_
  refine (knowing_awaiting (knowing_actWait h)).seq fun _ _ _ h => ?_
  refine (knowing_writeAtomic h).seq fun _ u₀ u h => ?_
  rw [sat_bind, sat_update]
  have h := knowing_publish h h.known.2.1 hl h.known.2.2 (shows_read hs h₁ h₂ t₃.list)
  refine (knowing_wait h).seq fun _ _ _ h => ?_
  refine (knowing_awaiting (knowing_fileOperation h)).seq fun _ _ _ h => ?_
  refine (knowing_awaiting (knowing_writeAtomic h)).seq fun _ _ _ h => ?_
  refine (knowing_awaiting (knowing_fileOperation h)).seq fun _ _ _ h => ?_
  exact (knowing_awaiting (knowing_writeAtomic h)).seq fun _ _ _ h => h

theorem knowing_tryRebuildList (hs : s.Loaded) (h : Knowing S s list i (fun _ => True) t₀ t)
    {E : Fault → Publisher → Publisher → Prop} :
    Sat (ModerateRely S s list i) (ModerateGuarantee S s list i)
      (fun _ => Knowing S s list i (Rebuilt i)) E (tryRebuildList S i) t₀ t := by
  unfold tryRebuildList
  rw [sat_tryCatch]
  refine (knowing_rebuildList hs h).seq fun _ _ _ h => ?_
  exact (knowing_wait h).seq fun _ _ _ h => h

/-- Whatever request `i` has changed, it had changed by the history `l`. -/
def Before (s : Store) (i : Nat) (l : List Event) (t : Publisher) : Prop :=
  Each i (fun l' e => view s (e :: l') ≠ view s l' → e :: l' <:+ l) t.log

theorem Since.before {l : List Event} (h : Since i l t) : Before s i l t := by
  obtain ⟨c, hc, hne⟩ := h
  intro e l' hs hi _
  rw [hc] at hs
  exact (cons_suffix_append hs).resolve_left fun he => hne e he hi

theorem Lasting.before (l : List Event) : Lasting S s list i (Before s i l) :=
  Lasting.log (stable_each i _)

/-- What is true of a request that has been answered: what it has changed has been changed again, or
a rebuild has listed and published it, or the request has failed. -/
inductive Accounted (s : Store) (i : Nat) (t : Publisher) : Prop
  | settled (h : Settled s i t.log)
  | published (p : Publication) (hp : p ∈ t.publications) (h : Before s i p.listed t)
  | failed (l : List Event) (hl : .answered i 500 :: l <:+ t.log) (h : Before s i l t)

theorem Lasting.accounted : Lasting S s list i (Accounted s i) := by
  intro t t' hr hd
  obtain ⟨l, hl, hne⟩ := hr.adds.added
  cases hd with
  | settled h => exact .settled (hl ▸ h.append (request_ne hne))
  | published p hp h => exact .published p (hr.grows.subset hp) (Lasting.before _ t t' hr h)
  | failed l' hl' h =>
    exact .failed l' (hl'.trans ⟨l, hl.symm⟩) (Lasting.before _ t t' hr h)

theorem Settled.note {l : List Event} (h : Settled s i l) (hp : e.placed = none)
    (hw : e.written = none) : Settled s i (e :: l) := by
  intro e' l' hs hi hv
  obtain he | hs := List.suffix_cons_iff.1 hs
  · cases he
    exact absurd (view_note hp hw) hv
  · obtain ⟨l'', h₁, h₂, hne⟩ := h e' l' hs hi hv
    exact ⟨l'', h₁, h₂.trans (List.suffix_cons e l), hne⟩

theorem knowing_handler (hs : s.Loaded) (g : Gates) (q : Moderation) {w : World Event}
    (hk : Listed S s list t) (h : Aware s i (Each i (Idle s)) t.world w) :
    Sat (ModerateRely S s list i) (ModerateGuarantee S s list i)
      (fun _ => Knowing S s list i fun t => Settled s i t.log ∨ Rebuilt i t)
      (fun _ => Knowing S s list i fun _ => True) (q.handler S g i) t { t with world := w } := by
  have hsettled : Lasting S s list i fun t => Settled s i t.log := Lasting.log fun _ _ hl h =>
    h.append (request_ne hl)
  have hrebuilt : Lasting S s list i (Rebuilt i) := Lasting.rebuilt
  have hdone := hsettled.or hrebuilt
  unfold Moderation.handler
  refine (knowing_act stable_outcome hk (changes_change hs g q h)).seq fun out u₀ u h => ?_
  cases out with
  | some r => exact h.mono hdone.kept fun hk => ⟨hk.1, .inl (hk.2 rfl)⟩
  | none =>
    have h := h.mono Lasting.true.kept fun hk => ⟨hk.1, trivial⟩
    refine (knowing_tryRebuildList hs h).seq fun _ _ _ h => ?_
    have h := h.mono hdone.kept fun hk => ⟨hk.1, .inr hk.2⟩
    refine (knowing_wait h).seq fun _ _ _ h => ?_
    unfold Moderation.answer
    cases q.kind with
    | approve => exact h
    | reject => exact h
    | remove => exact h
    | edit => exact ⟨h.steps, fun u hu _ => ⟨.refl u, h.stable, h.stable _ u hu h.known⟩⟩
    | adminEdit => exact ⟨h.steps, fun u hu _ => ⟨.refl u, h.stable, h.stable _ u hu h.known⟩⟩

theorem Before.answered {l : List Event} (h : Before s i l t) (code : Nat) :
    Before s i l { t with world := t.world.emit (.answered i code) } :=
  Each.cons h fun _ hv => absurd (view_note rfl rfl) hv

theorem knowing_answered (h : Knowing S s list i P t₀ t) {code : Nat}
    (hp : (Settled s i t.log ∨ Rebuilt i t) ∨ code = 500) :
    Knowing S s list i (Accounted s i) t₀ { t with world := t.world.emit (.answered i code) } := by
  have hk := h.known.1
  have hsuffix : t.log <:+ .answered i code :: t.log := List.suffix_cons _ _
  have hkept : Listed S s list { t with world := t.world.emit (.answered i code) } :=
    ⟨hk.mirrors.note rfl rfl, fun p hp => ⟨(hk.histories p hp).1, (hk.histories p hp).2.trans hsuffix⟩,
      hk.unwritten, hk.written⟩
  have hown : ∀ e ∈ [Event.answered i code], ∀ j, requestOf e = some j → j = i := by
    intro e he j hj
    obtain rfl := List.mem_singleton.1 he
    exact (Option.some.inj hj).symm
  refine h.step .trans ⟨⟨⟨[.answered i code], rfl, hown⟩, fun _ => hkept⟩, List.suffix_rfl⟩
    Lasting.accounted.kept ⟨hkept, ?_⟩
  obtain (hsettled | ⟨p, hp, -, hsince⟩) | rfl := hp
  · exact .settled (hsettled.note rfl rfl)
  · exact .published p hp (hsince.before.answered code)
  · refine .failed t.log List.suffix_rfl (Before.answered ?_ 500)
    exact fun e l' hl _ _ => hl

theorem knowing_moderate (hs : s.Loaded) (g : Gates) (q : Moderation) (hk : Listed S s list t)
    (hfresh : ∀ e ∈ t.log, e.request ≠ i) {E : Fault → Publisher → Publisher → Prop} :
    Sat (ModerateRely S s list i) (ModerateGuarantee S s list i)
      (fun _ => Knowing S s list i (Accounted s i)) E (moderate S g i q) t t := by
  have hbegan : Aware s i (Each i (Idle s)) t.world (t.world.emit (.began i)) := by
    have hidle : Each i (Idle s) t.world.log := fun e l' hl hi =>
      absurd hi (hfresh e (hl.subset List.mem_cons_self))
    have h : Aware s i (Each i (Idle s)) t.world t.world := ⟨.refl _, hk.mirrors, stable_each i _, hidle⟩
    exact aware_step h rfl (hk.mirrors.note rfl rfl) rfl (view_note rfl rfl)
  unfold moderate
  refine (sat_bind _ _ _ _).2 ?_
  change Sat _ _ _ _ _ t { t with world := t.world.emit (.began i) }
  have hanswer : ∀ r : Response, Lasting S s list i fun t =>
      (Settled s i t.log ∨ Rebuilt i t) ∨ r.code = 500 := fun r =>
    ((Lasting.log fun _ _ hl h => h.append (request_ne hl)).or Lasting.rebuilt).or (Lasting.const _)
  have hh : Sat (ModerateRely S s list i) (ModerateGuarantee S s list i)
      (fun r => Knowing S s list i fun t => (Settled s i t.log ∨ Rebuilt i t) ∨ r.code = 500) E
      (MonadExcept.tryCatch (q.handler S g i) fun _ => return ⟨500, some "server error"⟩) t
      { t with world := t.world.emit (.began i) } := by
    rw [sat_tryCatch]
    refine (knowing_handler hs g q hk hbegan).mono (fun r _ _ h => ?_) fun _ _ _ h => ?_
    · exact h.mono (hanswer r).kept fun hk => ⟨hk.1, .inl hk.2⟩
    · exact h.mono (hanswer _).kept fun hk => ⟨hk.1, .inr rfl⟩
  exact hh.seq fun r u₀ u h => knowing_answered h h.known.2

end Publishing

section Agreement

variable {S : Instance} {s : Store} {list : List PublicNode} {t : Publisher}

/-- A list that was read after the last change says what there is to show. -/
theorem shows_current {p : Publication} {l : List Event} (hl : p.listed <:+ p.read) (hr : p.read <:+ l)
    (h : ∀ l', p.listed <:+ l' → l' <:+ l → view s l' = view s l) : p.shows s = (view s l).1 := by
  have hlisted := h p.listed List.suffix_rfl (hl.trans hr)
  have hread := h p.read hl hr
  have hshown : shown s p.read = shown s p.listed := congrArg Prod.snd (hread.trans hlisted.symm)
  rw [← hlisted]
  funext id
  rw [Publication.shows, hshown]
  rfl

/-- Where every change has been published, changed again or undone, the list agrees with the store. -/
theorem agrees_of_accounted (hs : s.Loaded) (hk : Listed S s list t)
    (hdone : ∀ e ∈ t.log, Accounted s e.request t) (hlist : t.publications = [] → Agrees S s list)
    (horder : InOrder s t.publications) (hharm : Harmless s t.log) : Agrees S t.world.store t.list := by
  rw [hk.mirrors.agrees_iff hs]
  have hcurrent : ∀ p ∈ t.publications,
      (∀ l', p.listed <:+ l' → l' <:+ t.log → view s l' = view s t.log) →
        p.shows s = (view s t.log).1 := fun p hp h =>
    shows_current (hk.histories p hp).1 (hk.histories p hp).2 h
  obtain hall | ⟨e, l', hl', hne, hafter⟩ := last_change (view s) t.log
  · cases hpub : t.publications with
    | nil =>
      have hstart := ((Mirrors.start hs).agrees_iff hs).1 (hlist hpub)
      rw [hk.unwritten hpub]
      exact hall [] List.nil_suffix ▸ hstart
    | cons q rest =>
      have hq : q ∈ t.publications := hpub ▸ List.mem_cons_self
      have hshows := hk.written q (by rw [hpub]; rfl)
      rwa [hcurrent q hq fun l' _ hl => hall l' hl] at hshows
  · have hlast := hafter (e :: l') List.suffix_rfl hl'
    cases hdone e (hl'.subset List.mem_cons_self) with
    | settled h =>
      obtain ⟨l'', h₁, h₂, hv⟩ := h e l' hl' rfl hne
      exact absurd ((hafter l'' h₁ h₂).trans hlast.symm) hv
    | failed l hl h =>
      exact absurd (hharm e.request l hl e l' (h e l' hl' rfl hne) rfl) hne
    | published p hp h =>
      have hep := h e l' hl' rfl hne
      have hpshows := hcurrent p hp fun l'' h₁ h₂ => hafter l'' (hep.trans h₁) h₂
      cases hpub : t.publications with
      | nil => rw [hpub] at hp; cases hp
      | cons q rest =>
        have hq : q ∈ t.publications := hpub ▸ List.mem_cons_self
        have hshows := hk.written q (by rw [hpub]; rfl)
        -- the list written last was read after the last change, or says what a later one says
        have hqshows : q.shows s = (view s t.log).1 := by
          obtain heq | hqe := List.suffix_or_suffix_of_suffix hl'
            ((hk.histories q hq).1.trans (hk.histories q hq).2)
          · exact hcurrent q hq fun l'' h₁ h₂ => hafter l'' (heq.trans h₁) h₂
          · by_cases hlen : q.listed.length = (e :: l').length
            · have heq : e :: l' <:+ q.listed := hqe.eq_of_length hlen ▸ List.suffix_rfl
              exact hcurrent q hq fun l'' h₁ h₂ => hafter l'' (heq.trans h₁) h₂
            · have hlt : q.listed.length < p.listed.length :=
                Nat.lt_of_lt_of_le (Nat.lt_of_le_of_ne hqe.length_le hlen) hep.length_le
              rw [hpub] at hp horder
              obtain rfl | hp := List.mem_cons.1 hp
              · exact absurd hlt (Nat.lt_irrefl _)
              · exact ((List.pairwise_cons.1 horder).1 p hp hlt).trans hpshows
        rwa [hqshows] at hshows

/-- Every request keeps what is known of the list. -/
def moderateContract (S : Instance) (s : Store) (list : List PublicNode) (hs : s.Loaded) (g : Gates) :
    Pool.Contract (moderate S g) fun _ => True where
  R := ModerateRely S s list
  G := ModerateGuarantee S s list
  Pre i t := Listed S s list t ∧ ∀ e ∈ t.log, e.request ≠ i
  Q i _ t := Accounted s i t
  E i _ t := Accounted s i t
  R_refl _ := .refl
  R_trans := .trans
  rely hij h := ⟨h.adds.mono fun _ he hj => hij (he _ hj).symm, h.grows⟩
  pre_stable {i t t'} h hr := by
    obtain ⟨l, hl, hne⟩ := hr.adds.added
    refine ⟨hr.adds.inv h.1, fun e he => ?_⟩
    rw [hl] at he
    exact (List.mem_append.1 he).elim (request_ne hne e) (h.2 e)
  q_stable h hr := Lasting.accounted _ _ hr h
  e_stable h hr := Lasting.accounted _ _ hr h
  sound i q t _ ht := (knowing_moderate hs g q ht.1 ht.2).mono
    (fun _ _ _ h => ⟨h.steps, h.known.2⟩) fun _ _ _ h => h

/-- The public list agrees with the store when all requests have been answered, in every run in which
lists are written in the order in which they were read, or say the same, and no request fails after
it has changed what there is to show. -/
theorem published_list_agrees (S : Instance) (s : Store) (hs : s.Loaded) (g : Gates)
    (list : List PublicNode) (moves : List (Move Moderation Success)) :
    let p := Pool.run (moderate S g) ⟨{ world := ⟨s, []⟩, list }, []⟩ moves
    p.Finished → (p.shared.publications = [] → Agrees S s list) →
      InOrder s p.shared.publications → Harmless s p.shared.log →
        Agrees S p.shared.world.store p.shared.list := by
  intro p hfinished hlist horder hharm
  have hstart : Listed S s list { world := ⟨s, []⟩, list } :=
    ⟨.start hs, nofun, fun _ => rfl, nofun⟩
  have hgood : (moderateContract S s list hs g).Good p := (Pool.Contract.Good.start
    (moderateContract S s list hs g) fun _ => ⟨hstart, fun _ he => absurd he List.not_mem_nil⟩).run
    fun _ _ => trivial
  refine agrees_of_accounted hs hgood.pre.1 (fun e he => ?_) hlist horder hharm
  have hi : e.request < p.calls.length := Nat.lt_of_not_le fun hle =>
    (hgood.fresh e.request hle).2 e he rfl
  cases hr : p.result e.request with
  | none => exact absurd hr (hfinished e.request hi)
  | some r =>
    cases r with
    | ok a => exact hgood.returned hr
    | error f => exact hgood.threw hr

/-- The call `i` gets its next `n` answers. -/
def succeeds (i n : Nat) : List (Move Moderation Success) :=
  List.replicate n (.resume i ⟨{ clock := 1 }, rfl⟩)

def listingId : Json := .obj [("id", .str "mainnet-dojo")]

theorem oneListing_loaded : oneListing.Loaded where
  toWellFormed := oneListing_wellFormed
  only r rec h := by
    cases r with
    | zero => cases h; rfl
    | succ r => cases h

/-- The server with one listing, and an empty list. -/
def moderated (moves : List (Move Moderation Success)) : Pool Publisher Success Fault Response :=
  Pool.run (moderate {} .lenient) ⟨{ world := ⟨oneListing, []⟩, list := [] }, []⟩ moves

def approvalMoves : List (Move Moderation Success) :=
  .call ⟨.approve, "maintainer", some listingId⟩ :: succeeds 0 46

theorem approval_answered : (moderated approvalMoves).shared.publications.length = 1 ∧
    ((moderated approvalMoves).shared.log.all fun
      | .answered _ code => code = 200
      | _ => true) = true ∧ (moderated approvalMoves).Finished := by
  decide +kernel

theorem published_list_agrees_approval :
    Agrees {} (moderated approvalMoves).shared.world.store (moderated approvalMoves).shared.list := by
  obtain ⟨hone, hcodes, hfinished⟩ := approval_answered
  have hlist : (moderated approvalMoves).shared.publications = [] → Agrees {} oneListing [] := by
    intro h
    rw [h] at hone
    cases hone
  have horder : InOrder oneListing (moderated approvalMoves).shared.publications := by
    obtain ⟨p, hp⟩ := List.length_eq_one_iff.1 hone
    rw [hp]
    exact List.pairwise_singleton _ p
  have hharm : Harmless oneListing (moderated approvalMoves).shared.log := by
    intro i l hl
    have hmem := List.all_eq_true.1 hcodes _ (hl.subset List.mem_cons_self)
    simp at hmem
  have hagrees : ∀ moves, (moderated moves).Finished →
      ((moderated moves).shared.publications = [] → Agrees {} oneListing []) →
      InOrder oneListing (moderated moves).shared.publications →
      Harmless oneListing (moderated moves).shared.log →
        Agrees {} (moderated moves).shared.world.store (moderated moves).shared.list :=
    published_list_agrees {} oneListing oneListing_loaded .lenient []
  exact hagrees approvalMoves hfinished hlist horder hharm

/-- A rejection that is answered while the rebuild of an approval has read the store and has not yet
written the list. -/
def overtakenMoves : List (Move Moderation Success) :=
  .call ⟨.approve, "maintainer", some listingId⟩ :: succeeds 0 21 ++
    .call ⟨.reject, "maintainer", some listingId⟩ :: succeeds 1 46 ++ succeeds 0 25

/-- A list that was read before the rejection is written after the list that was read after it. -/
theorem rejected_stays_published :
    ¬ ∀ (S : Instance) (s : Store), s.Loaded → ∀ (g : Gates) (list : List PublicNode)
      (moves : List (Move Moderation Success)),
      let p := Pool.run (moderate S g) ⟨{ world := ⟨s, []⟩, list }, []⟩ moves
      p.Finished → (p.shared.publications = [] → Agrees S s list) →
        Agrees S p.shared.world.store p.shared.list := by
  intro h
  have hshown : (moderated overtakenMoves).shared.publications.length = 2 ∧
      some "mainnet-dojo" ∈ (moderated overtakenMoves).shared.list.map PublicNode.id ∧
      (moderated overtakenMoves).shared.world.store.listed.all fun rec => !rec.published := by decide +kernel
  have hfinished : (moderated overtakenMoves).Finished := by decide +kernel
  have hlist : (moderated overtakenMoves).shared.publications = [] → Agrees {} oneListing [] := by
    intro hnone
    rw [hnone] at hshown
    cases hshown.1
  have hagrees : ∀ moves, (moderated moves).Finished →
      ((moderated moves).shared.publications = [] → Agrees {} oneListing []) →
        Agrees {} (moderated moves).shared.world.store (moderated moves).shared.list :=
    h {} oneListing oneListing_loaded .lenient []
  obtain hseed | ⟨rec, hrec, hpub, -⟩ := ((hagrees overtakenMoves hfinished hlist).ids _).1 hshown.2.1
  · cases hseed
  · have hno := List.all_eq_true.1 hshown.2.2 rec hrec
    rw [hpub] at hno
    cases hno

end Agreement

end Mise.Server
