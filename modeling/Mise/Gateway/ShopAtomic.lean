import Mise.Gateway.ShopRuns
import Mise.Gateway.ShopStore

set_option autoImplicit true

namespace Mise.Gateway.Shop

open Js Async Owned

/-- What the updates, newest first, have made of the state that the shop began with. -/
inductive Linked (W : Wallet) (s₀ : IdentityState) : List Update → IdentityState → Prop where
  | nil : Linked W s₀ [] s₀
  | cons (h : Linked W s₀ l c.before) (hc : c.operation.apply W c.before = .ok c.after) :
      Linked W s₀ (c :: l) c.after

/-- The text is of the state after just these updates, by the call that made the newest. -/
structure Reflects (W : Wallet) (s₀ : IdentityState) (d : Snapshot) (l : List Update) : Prop where
  linked : Linked W s₀ l d.state
  call : d.call = l.head?.map Update.call
  stamp : d.stamp = l.length

/-- Each rename puts the text of its own call in place, over no later one. -/
def InOrder (log : List Trace) : Prop := ∀ i, .renamed i false ∉ log

structure Inv (W : Wallet) (s₀ : IdentityState) (w : World) : Prop where
  linked : Linked W s₀ (updates w.log) w.current
  once : ((updates w.log).map Update.call).Nodup
  tmp : ∀ d, w.tmp = some (.text d) → ∃ l, l <:+ updates w.log ∧ Reflects W s₀ d l
  file : InOrder w.log → ∃ d l, w.file = .text d ∧ l <:+ updates w.log ∧ Reflects W s₀ d l ∧
    (∀ i b, .renamed i b ∈ w.log → ∃ c ∈ l, c.call = i) ∧
    ∀ i, d.call = some i → .renamed i true ∈ w.log

/-- The operations of a shop are atomic. -/
structure Atomic (W : Wallet) (s₀ : IdentityState) (p : Pool World Answer Failure Reply) : Prop where
  memory : Linked W s₀ (updates p.shared.log) p.shared.current
  success : ∀ i r, p.result i = some (.ok r) → ∃ c ∈ updates p.shared.log, c.call = i
  error : ∀ i e, p.result i = some (.error e) →
    (∀ c ∈ updates p.shared.log, c.call = i → c.after = c.before) ∧
    ∀ d, p.shared.file = .text d → d.call ≠ some i
  saved : p.Finished → ∃ d, p.shared.file = .text d ∧ d.state = p.shared.current

/-- The renames are in order, and no file operation fails but of a call that sets what is set already. -/
structure Orderly (log : List Trace) : Prop where
  renames : InOrder log
  failures : ∀ i, .failed i ∈ log → ∀ c ∈ updates log, c.call = i → c.after = c.before

section Linked

variable {W : Wallet} {s₀ s t : IdentityState} {l : List Update} {c : Update} {op : Operation}

theorem apply_keys (h : op.apply W s = .ok t) {k : String} (hk : (s.networks.get k).isSome) :
    (t.networks.get k).isSome := by
  have hassign : ∀ key b, ((assign s key b).networks.get k).isSome := by
    intro key b
    rw [assign, Table.get_set]
    split
    · rfl
    · exact hk
  cases op with
  | bindReceiver network code =>
    obtain ⟨key, b, c, address, -, rfl⟩ := bindReceiver_ok h
    exact hassign key _
  | setActive network =>
    obtain ⟨-, rfl⟩ := setActive_ok h
    exact hk
  | setDojo network dojo =>
    obtain ⟨key, b, -, rfl⟩ := setDojo_ok h
    exact hassign key _

/-- Once an operation has changed the state, its answer can be read from it. -/
def Answered (s : IdentityState) (op : Operation) : Prop :=
  match op with
  | .setActive _ => True
  | .bindReceiver network _ | .setDojo network _ =>
    ∃ key, propertyKey network = .ok key ∧ (s.networks.get key).isSome

theorem answered_apply (h : op.apply W s = .ok t) : Answered t op := by
  have hassign : ∀ key b, ((assign s key b).networks.get key).isSome := by
    intro key b
    rw [assign, Table.get_set, if_pos rfl]
    rfl
  cases op with
  | bindReceiver network code =>
    obtain ⟨key, b, c, address, hb, rfl⟩ := bindReceiver_ok h
    exact ⟨key, (lookUp_ok hb.found).1, hassign key _⟩
  | setActive network => trivial
  | setDojo network dojo =>
    obtain ⟨key, b, hb, rfl⟩ := setDojo_ok h
    exact ⟨key, (lookUp_ok hb).1, hassign key _⟩

theorem Answered.apply {op' : Operation} (ha : Answered s op) (h : op'.apply W s = .ok t) :
    Answered t op := by
  cases op with
  | setActive network => trivial
  | bindReceiver network code =>
    obtain ⟨key, hkey, hget⟩ := ha
    exact ⟨key, hkey, apply_keys h hget⟩
  | setDojo network dojo =>
    obtain ⟨key, hkey, hget⟩ := ha
    exact ⟨key, hkey, apply_keys h hget⟩

theorem Linked.answered (h : Linked W s₀ l s) (hc : c ∈ l) : Answered s c.operation := by
  induction h with
  | nil => cases hc
  | cons h hc' ih =>
    obtain rfl | hc := List.mem_cons.1 hc
    · exact answered_apply hc'
    · exact (ih hc).apply hc'

theorem Answered.reply (h : Answered s op) : ∃ r, op.reply s = .ok r := by
  cases op with
  | setActive network => exact ⟨_, rfl⟩
  | bindReceiver network code =>
    obtain ⟨key, hkey, -⟩ := h
    unfold Operation.reply
    dsimp only
    rw [hkey]
    exact ⟨_, rfl⟩
  | setDojo network dojo =>
    obtain ⟨key, hkey, hget⟩ := h
    obtain ⟨b, hb⟩ := Option.isSome_iff_exists.1 hget
    unfold Operation.reply Table.find
    dsimp only
    rw [hkey]
    simp only [ofThrow, Bind.bind, Except.bind]
    rw [hb]
    exact ⟨_, rfl⟩

theorem Linked.unique (h : Linked W s₀ l s) (h' : Linked W s₀ l t) : s = t := by
  cases h with
  | nil => cases h'; rfl
  | cons _ _ => cases h'; rfl

/-- Changes that change nothing may be left out. -/
theorem Linked.idle {l' : List Update} (h : Linked W s₀ (l' ++ l) s)
    (hl : ∀ c ∈ l', c.after = c.before) : Linked W s₀ l s := by
  induction l' generalizing s with
  | nil => exact h
  | cons c l' ih =>
    cases h with
    | cons h _ =>
      rw [hl c List.mem_cons_self]
      exact ih h fun c' hc' => hl c' (List.mem_cons_of_mem c hc')

end Linked

section Steps

variable {W : Wallet} {s₀ : IdentityState} {w w' : World} {d : Snapshot} {i : Nat}

theorem updates_suffix {log log' : List Trace} (h : log <:+ log') : updates log <:+ updates log' := by
  obtain ⟨l, rfl⟩ := h
  unfold updates
  rw [List.filterMap_append]
  exact List.suffix_append _ _

theorem InOrder.of_cons {log : List Trace} {e : Trace} (h : InOrder (e :: log)) : InOrder log :=
  fun i hi => h i (List.mem_cons_of_mem e hi)

/-- An event that is no change and no rename, and what may happen to the temporary file. -/
theorem Inv.quiet (h : Inv W s₀ w) {l : List Trace}
    (hl : ∀ e ∈ l, e.update = none ∧ ∀ i b, e ≠ .renamed i b)
    (ht : ∀ d, w'.tmp = some (.text d) → ∃ l, l <:+ updates w.log ∧ Reflects W s₀ d l)
    (hc : w'.current = w.current) (hf : w'.file = w.file) (hlog : w'.log = l ++ w.log) :
    Inv W s₀ w' := by
  have hupdates : updates w'.log = updates w.log := by
    unfold updates
    rw [hlog, List.filterMap_append, List.filterMap_eq_nil_iff.2 fun e he => (hl e he).1, List.nil_append]
  have hrenamed : ∀ i b, .renamed i b ∈ w'.log ↔ .renamed i b ∈ w.log := by
    intro i b
    rw [hlog, List.mem_append]
    constructor
    · rintro (hm | hm)
      · exact absurd rfl ((hl _ hm).2 i b)
      · exact hm
    · exact .inr
  constructor
  · rw [hupdates, hc]
    exact h.linked
  · rw [hupdates]
    exact h.once
  · rw [hupdates]
    exact ht
  · intro ho
    rw [hupdates, hf]
    obtain ⟨d, l, hd⟩ := h.file fun i hi => ho i ((hrenamed i false).2 hi)
    refine ⟨d, l, hd.1, hd.2.1, hd.2.2.1, fun i b hm => hd.2.2.2.1 i b ((hrenamed i b).1 hm),
      fun i hi => (hrenamed i true).2 (hd.2.2.2.2 i hi)⟩

theorem own_failed (i : Nat) (w : World) :
    Own World.log Trace.owner (Inv W s₀) i w (w.emit (.failed i)) := by
  refine ⟨⟨[.failed i], rfl, fun e he j hj => ?_⟩, fun h => ?_⟩
  · cases List.mem_singleton.1 he
    exact (Option.some.inj hj).symm
  · refine h.quiet (l := [.failed i]) (fun e he => ?_) h.tmp rfl rfl rfl
    cases List.mem_singleton.1 he
    exact ⟨rfl, fun _ _ => nofun⟩

theorem own_tmp (i : Nat) {c : Option Content}
    (hc : ∀ d, c = some (.text d) → ∃ l, l <:+ updates w.log ∧ Reflects W s₀ d l) :
    Own World.log Trace.owner (Inv W s₀) i w { w with tmp := c } :=
  ⟨⟨[], rfl, nofun⟩, fun h => h.quiet (l := []) nofun hc rfl rfl rfl⟩

theorem own_assign {op : Operation} {s : IdentityState} (hs : op.apply W w.current = .ok s)
    (hn : ∀ c ∈ updates w.log, c.call ≠ i) :
    Own World.log Trace.owner (Inv W s₀) i w
      { w with current := s, log := .updated ⟨i, op, w.current, s⟩ :: w.log } := by
  refine ⟨⟨[.updated ⟨i, op, w.current, s⟩], rfl, fun e he j hj => ?_⟩, fun h => ⟨?_, ?_, ?_, ?_⟩⟩
  · cases List.mem_singleton.1 he
    exact (Option.some.inj hj).symm
  · exact .cons (c := ⟨i, op, w.current, s⟩) h.linked hs
  · refine List.nodup_cons.2 ⟨fun hm => ?_, h.once⟩
    obtain ⟨c, hc, hi⟩ := List.mem_map.1 hm
    exact hn c hc hi
  · intro d hd
    obtain ⟨l, hl, hr⟩ := h.tmp d hd
    exact ⟨l, hl.trans (List.suffix_cons _ _), hr⟩
  · intro ho
    obtain ⟨d, l, hd, hl, hr, hrenamed, hcall⟩ := h.file ho.of_cons
    refine ⟨d, l, hd, hl.trans (List.suffix_cons _ _), hr, fun j b hm => ?_, fun j hj => ?_⟩
    · obtain he | hm := List.mem_cons.1 hm
      · cases he
      · exact hrenamed j b hm
    · exact List.mem_cons_of_mem _ (hcall j hj)

theorem Reflects.suffix {l l' l'' : List Update} {d d' : Snapshot} (h : Reflects W s₀ d l)
    (h' : Reflects W s₀ d' l') (hl : l <:+ l'') (hl' : l' <:+ l'') (hs : d.stamp ≤ d'.stamp) : l <:+ l' := by
  apply List.suffix_of_suffix_length_le hl hl'
  rw [← h.stamp, ← h'.stamp]
  exact hs

theorem own_rename {c : Content} (hc : w.tmp = some c) :
    Own World.log Trace.owner (Inv W s₀) i w
      { w with file := c, tmp := none, log := .renamed i (World.inOrder i c w.file) :: w.log } := by
  refine ⟨⟨[.renamed i (World.inOrder i c w.file)], rfl, fun e he j hj => ?_⟩, fun h => ⟨h.linked, h.once, nofun, ?_⟩⟩
  · cases List.mem_singleton.1 he
    exact (Option.some.inj hj).symm
  · intro ho
    have hflag : World.inOrder i c w.file = true := by
      by_contra hf
      rw [Bool.not_eq_true] at hf
      apply ho i
      dsimp only
      rw [hf]
      exact List.mem_cons_self
    obtain ⟨e, l, he, hl, hr, hrenamed, -⟩ := h.file ho.of_cons
    dsimp only
    rw [hflag]
    rw [he] at hflag
    cases c with
    | torn => cases hflag
    | text d =>
      obtain ⟨l', hl', hr'⟩ := h.tmp d hc
      obtain ⟨hcall, hstamp⟩ := Bool.and_eq_true_iff.1 hflag
      have hcall : d.call = some i := of_decide_eq_true hcall
      have hsub : l <:+ l' := hr.suffix hr' hl hl' (of_decide_eq_true hstamp)
      refine ⟨d, l', rfl, hl', hr', fun j b hm => ?_, fun j hj => ?_⟩
      · obtain hj | hm := List.mem_cons.1 hm
        · cases hj
          have hhead := hr'.call.symm.trans hcall
          obtain ⟨c, hc, hci⟩ := Option.map_eq_some_iff.1 hhead
          exact ⟨c, List.mem_of_mem_head? hc, hci⟩
        · obtain ⟨c, hc, hci⟩ := hrenamed j b hm
          exact ⟨c, hsub.subset hc, hci⟩
      · cases hcall.symm.trans hj
        exact List.mem_cons_self

end Steps

section Calls

variable {W : Wallet} {s₀ : IdentityState} {w₀ w : World} {d : Snapshot} {i : Nat} {op : Operation}

/-- Call `i` has changed the state. -/
def Updated (i : Nat) (op : Operation) (l : List Trace) : Prop :=
  ∃ c ∈ updates l, c.call = i ∧ c.operation = op

/-- Call `i` is about to put the text `d` in place. -/
structure Writing (W : Wallet) (s₀ : IdentityState) (i : Nat) (op : Operation) (d : Snapshot)
    (l : List Trace) : Prop where
  reflects : ∃ k, k <:+ updates l ∧ Reflects W s₀ d k
  updated : Updated i op l
  pending : ∀ b, .renamed i b ∉ l

def Saved (i : Nat) (op : Operation) (l : List Trace) : Prop := Updated i op l ∧ ∃ b, .renamed i b ∈ l

/-- Call `i` has failed, and its text is not in place. -/
def Lost (i : Nat) (l : List Trace) : Prop := .failed i ∈ l ∧ ∀ b, .renamed i b ∉ l

theorem updated_append (l l' : List Trace) (h : Updated i op l') : Updated i op (l ++ l') := by
  obtain ⟨c, hc, hi⟩ := h
  exact ⟨c, (updates_suffix (List.suffix_append l l')).subset hc, hi⟩

theorem stable_unnamed : Stable Trace.owner i fun l => ∀ b, .renamed i b ∉ l := by
  intro l l' hl h b hb
  obtain hb | hb := List.mem_append.1 hb
  · exact hl _ hb rfl
  · exact h b hb

theorem stable_writing : Stable Trace.owner i (Writing W s₀ i op d) := by
  intro l l' hl h
  obtain ⟨k, hk, hr⟩ := h.reflects
  exact ⟨⟨k, hk.trans (updates_suffix (List.suffix_append l l')), hr⟩, updated_append l l' h.updated,
    stable_unnamed l l' hl h.pending⟩

theorem stable_saved : Stable Trace.owner i (Saved i op) :=
  .of_append fun l l' h => ⟨updated_append l l' h.1, h.2.imp fun _ hb => List.mem_append_right l hb⟩

theorem stable_lost : Stable Trace.owner i (Lost i) := (Stable.mem _).and stable_unnamed

/-- Call `i`, by its segments. -/
abbrev Runs (W : Wallet) (s₀ : IdentityState) (i : Nat) (P : α → List Trace → Prop)
    (F : List Trace → Prop) (p : Store α) (w₀ w : World) : Prop :=
  Sat (Others World.log Trace.owner (Inv W s₀) i) (Own World.log Trace.owner (Inv W s₀) i)
    (fun a => Knows World.log Trace.owner (Inv W s₀) i (P a))
    (fun _ => Knows World.log Trace.owner (Inv W s₀) i F) p w₀ w

theorem runs_fileOp {P P' F : List Trace → Prop} {f : Answer → World → Bool × World}
    (hP' : Stable Trace.owner i P') (hF : Stable Trace.owner i F)
    (hstep : ∀ a w, P w.log → Own World.log Trace.owner (Inv W s₀) i w (f a w).2)
    (hdone : ∀ a w, P w.log → (f a w).1 = true → P' (f a w).2.log)
    (hfail : ∀ a w, P w.log → (f a w).1 = false → F (.failed i :: (f a w).2.log))
    (h : Knows World.log Trace.owner (Inv W s₀) i P w₀ w) :
    Runs W s₀ i (fun _ => P') F (fileOp i f) w₀ w := by
  simp only [Runs, fileOp, sat_bind, sat_wait, sat_updateGet]
  refine ⟨h.steps, fun t ht a => ?_⟩
  have hk := h.here.rely ht
  have hown := hstep a t hk.known
  cases hd : (f a t).1 with
  | true =>
    have hk' := hk.step hown hP' (hdone a t hk.known hd)
    exact ⟨hk'.steps, fun u hu _ => hk'.here.rely hu⟩
  | false =>
    have hk' := hk.step (hown.trans (own_failed i _)) hF (hfail a t hk.known hd)
    exact ⟨hk'.steps, fun u hu _ => hk'.here.rely hu⟩

theorem Writing.lost {l : List Trace} (h : Writing W s₀ i op d l) : Lost i (.failed i :: l) := by
  refine ⟨List.mem_cons_self, fun b hb => ?_⟩
  obtain hb | hb := List.mem_cons.1 hb
  · cases hb
  · exact h.pending b hb

theorem own_writeFile (a : Answer) (h : ∃ k, k <:+ updates w.log ∧ Reflects W s₀ d k) :
    Own World.log Trace.owner (Inv W s₀) i w (w.writeFile d a).2 := by
  unfold World.writeFile
  split
  · refine own_tmp i fun e he => ?_
    cases he
    exact h
  · dsimp only
    split
    · exact own_tmp i nofun
    · exact .refl w

theorem writeFile_log (a : Answer) : (w.writeFile d a).2.log = w.log := by
  unfold World.writeFile
  split
  · rfl
  · dsimp only
    split <;> rfl

theorem rename_cases (i : Nat) (a : Answer) (w : World) : w.rename i a = (false, w) ∨
    ∃ c, w.tmp = some c ∧ w.rename i a = (true,
      { w with file := c, tmp := none, log := .renamed i (World.inOrder i c w.file) :: w.log }) := by
  unfold World.rename
  split
  · next c _ hc => exact .inr ⟨c, hc, rfl⟩
  · exact .inl rfl

theorem runs_idle {ok : Answer → World → Bool}
    (h : Knows World.log Trace.owner (Inv W s₀) i (Writing W s₀ i op d) w₀ w) :
    Runs W s₀ i (fun _ => Writing W s₀ i op d) (Lost i) (fileOp i fun a w => (ok a w, w)) w₀ w :=
  runs_fileOp stable_writing stable_lost (fun _ w _ => .refl w) (fun _ _ hp _ => hp)
    (fun _ _ hp _ => hp.lost) h

theorem runs_writeFile (h : Knows World.log Trace.owner (Inv W s₀) i (Writing W s₀ i op d) w₀ w) :
    Runs W s₀ i (fun _ => Writing W s₀ i op d) (Lost i) (fileOp i (World.writeFile d)) w₀ w := by
  refine runs_fileOp stable_writing stable_lost ?_ ?_ ?_ h
  · intro a w hp
    exact own_writeFile a hp.reflects
  · intro a w hp _
    rw [writeFile_log]
    exact hp
  · intro a w hp _
    rw [writeFile_log]
    exact hp.lost

theorem runs_rename (h : Knows World.log Trace.owner (Inv W s₀) i (Writing W s₀ i op d) w₀ w) :
    Runs W s₀ i (fun _ => Saved i op) (Lost i) (fileOp i (World.rename i)) w₀ w := by
  refine runs_fileOp stable_saved stable_lost ?_ ?_ ?_ h
  · intro a w hp
    obtain he | ⟨c, hc, he⟩ := rename_cases i a w
    · rw [he]
      exact .refl w
    · rw [he]
      exact own_rename hc
  · intro a w hp hd
    obtain he | ⟨c, hc, he⟩ := rename_cases i a w
    · rw [he] at hd
      cases hd
    · rw [he]
      exact ⟨updated_append [_] w.log hp.updated, _, List.mem_cons_self⟩
  · intro a w hp hd
    obtain he | ⟨c, hc, he⟩ := rename_cases i a w
    · rw [he]
      exact hp.lost
    · rw [he] at hd
      cases hd

theorem runs_writeAtomic (h : Knows World.log Trace.owner (Inv W s₀) i (Writing W s₀ i op d) w₀ w) :
    Runs W s₀ i (fun _ => Saved i op) (Lost i) (writeAtomic i d) w₀ w :=
  (runs_idle h).seq fun _ _ _ h => (runs_writeFile h).seq fun _ _ _ h =>
    (runs_idle h).seq fun _ _ _ h => runs_rename h

/-- A call that ends in an error has changed nothing, or a file operation of it has failed. -/
def Refused (i : Nat) (l : List Trace) : Prop :=
  ((∀ c ∈ updates l, c.call ≠ i) ∨ .failed i ∈ l) ∧ ∀ b, .renamed i b ∉ l

theorem mem_updates {l : List Trace} {c : Update} (h : c ∈ updates l) : .updated c ∈ l := by
  obtain ⟨e, he, hc⟩ := List.mem_filterMap.1 h
  cases e with
  | updated c' =>
    cases hc
    exact he
  | renamed i b => cases hc
  | failed i => cases hc

theorem stable_refused : Stable Trace.owner i (Refused i) := by
  intro l l' hl h
  refine ⟨?_, stable_unnamed l l' hl h.2⟩
  obtain hn | hf := h.1
  · left
    intro c hc hi
    obtain hm | hm := List.mem_append.1 (mem_updates hc)
    · exact hl _ hm (congrArg some hi)
    · exact hn c (List.mem_filterMap.2 ⟨_, hm, rfl⟩) hi
  · exact .inr (List.mem_append_right l hf)

theorem runs_operate
    (h : Knows World.log Trace.owner (Inv W s₀) i (fun l => ∀ e ∈ l, e.owner ≠ some i) w w) :
    Runs W s₀ i (fun _ => Saved i op) (Refused i) (operate W i op) w w := by
  have hpending : ∀ b, .renamed i b ∉ w.log := fun b hb => h.known _ hb rfl
  have hn : ∀ c ∈ updates w.log, c.call ≠ i := fun c hc hi =>
    h.known _ (mem_updates hc) (congrArg some hi)
  simp only [Runs, operate, sat_bind, sat_updateGet]
  unfold World.assign
  cases hs : op.apply W w.current with
  | error f =>
    exact h.mono stable_refused fun _ => ⟨.inl hn, hpending⟩
  | ok s =>
    have hlinked := h.inv.linked
    have hwriting : Knows World.log Trace.owner (Inv W s₀) i
        (Writing W s₀ i op ⟨s, some i, (updates w.log).length + 1⟩) w
        { w with current := s, log := .updated ⟨i, op, w.current, s⟩ :: w.log } := by
      refine h.step (own_assign hs hn) stable_writing ⟨⟨_, List.suffix_rfl, ?_⟩, ?_, ?_⟩
      · exact ⟨.cons (c := ⟨i, op, w.current, s⟩) hlinked hs, rfl, rfl⟩
      · exact ⟨_, List.mem_cons_self, rfl, rfl⟩
      · intro b hb
        obtain hb | hb := List.mem_cons.1 hb
        · cases hb
        · exact hpending b hb
    have hwrites := (runs_writeAtomic hwriting).mono (fun _ _ _ h => h) fun _ _ _ he =>
      he.mono stable_refused fun hl => ⟨.inr hl.1, hl.2⟩
    simp only [saveState, sat_bind, sat_wait, sat_read]
    refine hwrites.mono (fun _ t₀ t ht => ?_) fun _ _ _ he => he
    refine ⟨ht.steps, fun u hu _ => ?_⟩
    have hu' := ht.here.rely hu
    refine ⟨hu'.steps, fun v hv _ => ?_⟩
    have hv' := hu'.rely hv
    obtain ⟨c, hc, hi, rfl⟩ := hv'.known.1
    obtain ⟨r, hr⟩ := (hv'.inv.linked.answered hc).reply
    rw [hr]
    exact hv'

end Calls

section Runs

variable {W : Wallet} {s₀ : IdentityState}

def atomicity (W : Wallet) (s₀ : IdentityState) : Pool.Contract (operate W) fun _ => True :=
  Owned.answering World.log Trace.owner (Inv W s₀) (fun i _ l => ∃ op, Saved i op l)
    (fun i _ => Refused i) fun _ op _ _ h => (runs_operate h).mono
      (fun _ _ _ hs => hs.mono (fun l l' hl ⟨op, h⟩ => ⟨op, stable_saved l l' hl h⟩) fun h => ⟨op, h⟩)
      fun _ _ _ he => he

theorem inv_opened (W : Wallet) (s₀ : IdentityState) (left : Bool) : Inv W s₀ (.opened s₀ left) := by
  constructor
  · exact .nil
  · exact List.nodup_nil
  · intro d hd
    unfold World.opened at hd
    cases left <;> cases hd
  · intro _
    refine ⟨⟨s₀, none, 0⟩, [], rfl, List.suffix_rfl, ⟨.nil, rfl, rfl⟩, fun i b hm => ?_, nofun⟩
    exact absurd hm List.not_mem_nil

theorem good_run (W : Wallet) (s₀ : IdentityState) (left : Bool) (moves : List (Move Operation Answer)) :
    (atomicity W s₀).Good (run W (.opened s₀ left) moves) := by
  have hstart : ∀ i, (atomicity W s₀).Pre i (.opened s₀ left) := fun i =>
    ⟨inv_opened W s₀ left, fun e he => absurd he List.not_mem_nil⟩
  exact (Pool.Contract.Good.start _ hstart).run fun _ _ => trivial

theorem Orderly.earlier {log log' : List Trace} (h : Orderly log') (hl : log <:+ log') : Orderly log :=
  ⟨fun i hi => h.renames i (hl.subset hi), fun i hi c hc =>
    h.failures i (hl.subset hi) c ((updates_suffix hl).subset hc)⟩

/-- A call that has changed the state in memory has put its text in place, or has changed nothing. -/
theorem settled_update {p : Pool World Answer Failure Reply} (hg : (atomicity W s₀).Good p)
    (h : Orderly p.shared.log) (hp : p.Finished) {c : Update} (hc : c ∈ updates p.shared.log) :
    c.after = c.before ∨ ∃ b, .renamed c.call b ∈ p.shared.log := by
  have hcall : c.call < p.calls.length := by
    by_contra hlt
    have hfresh : ∀ e ∈ p.shared.log, e.owner ≠ some c.call := (hg.fresh c.call (Nat.le_of_not_lt hlt)).2
    exact hfresh _ (mem_updates hc) rfl
  cases hr : p.result c.call with
  | none => exact absurd hr (hp c.call hcall)
  | some outcome =>
    cases outcome with
    | ok r =>
      obtain ⟨op, -, hb⟩ := (hg.returned hr).known
      exact .inr hb
    | error e =>
      obtain ⟨hn | hf, -⟩ := (hg.threw hr).known
      · exact absurd rfl (hn c hc)
      · exact .inl (h.failures c.call hf c hc rfl)

theorem atomic_run {p : Pool World Answer Failure Reply} (hg : (atomicity W s₀).Good p)
    (h : Orderly p.shared.log) : Atomic W s₀ p := by
  have hinv : Inv W s₀ p.shared := hg.pre.1
  obtain ⟨d, l, hd, ⟨l', hl⟩, hr, hrenamed, hcall⟩ := hinv.file h.renames
  constructor
  · exact hinv.linked
  · intro i r hres
    obtain ⟨op, ⟨c, hc, hi, -⟩, -⟩ := (hg.returned hres).known
    exact ⟨c, hc, hi⟩
  · intro i e hres
    obtain ⟨hupdated, hno⟩ := (hg.threw hres).known
    constructor
    · intro c hc hi
      obtain hn | hf := hupdated
      · exact absurd hi (hn c hc)
      · exact h.failures i hf c hc hi
    · intro d' hd' hi
      cases hd.symm.trans hd'
      exact hno true (hcall i hi)
  · intro hp
    refine ⟨d, hd, ?_⟩
    have hlinked := hinv.linked
    have honce := hinv.once
    rw [← hl] at hlinked honce
    have hidle : ∀ c ∈ l', c.after = c.before := by
      intro c hc
      have hmem : c ∈ updates p.shared.log := hl ▸ List.mem_append_left l hc
      obtain hsame | ⟨b, hb⟩ := settled_update hg h hp hmem
      · exact hsame
      · -- The file would be of this change too, and a call makes but one.
        obtain ⟨c', hc', hi⟩ := hrenamed c.call b hb
        rw [List.map_append] at honce
        exact absurd hi.symm ((List.nodup_append.1 honce).2.2 c.call (List.mem_map_of_mem hc) c'.call
          (List.mem_map_of_mem hc'))
    exact hr.linked.unique (hlinked.idle hidle)

/-- In a run whose renames are in order and in which no change fails to be saved, the operations are
atomic in every state that is reached. -/
theorem shop_atomic (W : Wallet) (s₀ : IdentityState) (left : Bool) (moves later : List (Move Operation Answer))
    (h : Orderly (run W (.opened s₀ left) (moves ++ later)).shared.log) :
    Atomic W s₀ (run W (.opened s₀ left) moves) := by
  have hg := good_run W s₀ left moves
  have hrest : run W (.opened s₀ left) (moves ++ later) =
      Pool.run (operate W) (run W (.opened s₀ left) moves) later := Pool.run_append _ _ moves later
  rw [hrest] at h
  refine atomic_run hg (h.earlier ?_)
  refine hg.path (P := fun w w' => w.log <:+ w'.log) (fun _ _ => trivial) (fun w => List.suffix_rfl)
    List.IsSuffix.trans ?_
  intro i w w' hstep
  obtain ⟨l, hl, -⟩ := hstep.added
  rw [hl]
  exact List.suffix_append _ _

section Instance

/-- A shop on both networks. -/
def bothNetworks : IdentityState where
  active := .str "bitcoin"
  createdAt := "2026"
  networks := { entries := [("bitcoin", {}), ("testnet4", {})] }

def toTestnet : Operation := .setActive (some (.str "testnet4"))

/-- Two requests that overlap, whose file operations do not. -/
def overlapping : List (Move Operation Answer) :=
  .call toTestnet :: .call (.setDojo (some (.str "bitcoin")) none) ::
    (List.replicate 10 (.resume 0 {}) ++ List.replicate 10 (.resume 1 {}))

theorem orderly_of_all {log : List Trace}
    (h : log.all (fun e => match e with
      | .updated _ => true
      | .renamed _ inOrder => inOrder
      | .failed _ => false) = true) : Orderly log := by
  rw [List.all_eq_true] at h
  exact ⟨fun i hi => absurd (h _ hi) (by simp), fun i hi => absurd (h _ hi) (by simp)⟩

theorem shop_atomic_overlapping :
    (run sampleWallet (.opened bothNetworks false) overlapping).Finished ∧
      ∃ d, (run sampleWallet (.opened bothNetworks false) overlapping).shared.file = .text d ∧
        d.state = (run sampleWallet (.opened bothNetworks false) overlapping).shared.current := by
  have hfinished : (run sampleWallet (.opened bothNetworks false) overlapping).Finished := by
    unfold overlapping toTestnet
    decide +kernel
  have horderly : Orderly (run sampleWallet (.opened bothNetworks false) (overlapping ++ [])).shared.log := by
    apply orderly_of_all
    unfold overlapping toTestnet
    decide +kernel
  exact ⟨hfinished, (shop_atomic sampleWallet bothNetworks false overlapping [] horderly).saved hfinished⟩

/-- The write of a text fails. The request is answered with an error, and the other network is active
all the same. -/
theorem failed_save_switches_network : ¬ ∀ moves : List (Move Operation Answer),
    Atomic sampleWallet bothNetworks (run sampleWallet (.opened bothNetworks false) moves) := by
  intro h
  have hrun := h [.call toTestnet, .resume 0 {}, .resume 0 {}, .resume 0 { ok := false }, .resume 0 {}]
  have hc := (hrun.error 0 .io rfl).1
    ⟨0, toTestnet, bothNetworks, { bothNetworks with active := .str "testnet4" }⟩ List.mem_cons_self rfl
  have hactive : Json.str "testnet4" = Json.str "bitcoin" := congrArg IdentityState.active hc
  exact absurd (Json.str.inj hactive) (by decide)

end Instance

end Runs

end Mise.Gateway.Shop
