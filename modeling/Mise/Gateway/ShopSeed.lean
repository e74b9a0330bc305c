import Mise.Gateway.ShopStart

set_option autoImplicit true

namespace Mise.Gateway.Start

open Js Shop Async Owned

section Load

variable {W : Wallet} {f : Option IdentityState} {s : IdentityState}

theorem reread_get (s : IdentityState) (k : String) : (reread s).networks.get k =
    (s.networks.get k).map fun b => { b with dojo := b.dojo.map Json.reparsed } := by
  rw [reread, Table.get_filterMap]
  cases s.networks.get k <;> rfl

theorem loaded_cases (h : Shop.loadOrCreate W f = .ok s) : s.networks =
    backfillAll W ((f.map IdentityState.networks).getD {}) ∧
      ∀ g ∈ f, networkNames.find? (disagrees W g) = none ∧ s = { g with networks := s.networks } := by
  cases f with
  | none =>
    cases h
    exact ⟨rfl, nofun⟩
  | some g =>
    rw [Shop.loadOrCreate] at h
    cases hd : networkNames.find? (disagrees W g) with
    | some n =>
      rw [hd] at h
      cases h
    | none =>
      rw [hd] at h
      cases h
      refine ⟨rfl, fun g' hg => ?_⟩
      cases hg
      exact ⟨hd, rfl⟩

theorem loaded_get (h : Shop.loadOrCreate W f = .ok s) {n : String} (hn : n ∈ networkNames) :
    s.networks.get n = some (filled W n (((f.map IdentityState.networks).getD {}).get n)) := by
  rw [(loaded_cases h).1, get_backfillAll, if_pos hn]

theorem loaded_agrees {derive : SeedDoc → Except Shop.Fault Wallet} {seed : SeedDoc}
    (hd : derive seed = .ok W) (h : Shop.loadOrCreate W f = .ok s) : agrees derive seed (some (reread s)) := by
  have hany : networkNames.any (disagrees W (reread s)) = false := ?_
  · unfold agrees
    rw [hd]
    dsimp only
    rw [hany]
    rfl
  rw [List.any_eq_false]
  intro n hn
  have hcode : ((reread s).networks.get n).bind NetworkIdentity.paymentCode =
      (filled W n (((f.map IdentityState.networks).getD {}).get n)).paymentCode := by
    rw [reread_get, loaded_get h hn]
    rfl
  unfold disagrees
  rw [hcode]
  cases f with
  | none => simp [filled, blankBlock]
  | some g =>
    have hagrees := List.find?_eq_none.1 ((loaded_cases h).2 g rfl).1 n hn
    unfold disagrees at hagrees
    rw [Option.map_some, Option.getD_some]
    cases hb : g.networks.get n with
    | none => simp [filled, blankBlock]
    | some b =>
      rw [hb, Option.bind_some] at hagrees
      have hkept : (filled W n (some b)).paymentCode = b.paymentCode := by
        unfold filled
        dsimp only
        split <;> rfl
      rw [hkept]
      exact hagrees

theorem loaded_grown (hW : ∀ n, (W.derived n).depositAddress ≠ "") (h : Shop.loadOrCreate W f = .ok s) :
    grew (some (reread s)) = false := by
  rw [grew, List.any_eq_false]
  intro n hn
  unfold lacks
  rw [reread_get, loaded_get h hn, Option.map_some]
  have hgiven : ∀ o, given (filled W n o).depositAddress := by
    intro o
    unfold filled
    cases o with
    | none => simp [blankBlock, given, hW]
    | some b =>
      dsimp only
      split
      · next hb => exact hb
      · simp [given, hW]
  simp [hgiven]

/-- The later file has everything that the earlier one has; a block without a deposit address may gain
one. -/
def Kept (s t : Option IdentityState) : Prop :=
  ∀ f ∈ s.map reread, ∃ g ∈ t.map reread, g.active = f.active ∧ g.createdAt = f.createdAt ∧
    ∀ k b, f.networks.get k = some b → ∃ b', g.networks.get k = some b' ∧
      (b' = b ∨ given b.depositAddress = false ∧ b' = { b with depositAddress := b'.depositAddress })

theorem Kept.refl (s : Option IdentityState) : Kept s s :=
  fun f hf => ⟨f, hf, rfl, rfl, fun _ b hb => ⟨b, hb, .inl rfl⟩⟩

theorem loaded_kept {state : Option IdentityState} (h : Shop.loadOrCreate W (state.map reread) = .ok s) :
    Kept state (some s) := by
  intro f hf
  obtain ⟨e, he, rfl⟩ := Option.map_eq_some_iff.1 hf
  subst he
  obtain ⟨hnetworks, hrest⟩ := loaded_cases h
  obtain ⟨-, hs⟩ := hrest _ rfl
  refine ⟨reread s, rfl, ?_, ?_, fun k b hb => ?_⟩
  · rw [hs, reread, reread]
    exact Json.reparsed_reparsed _
  · rw [hs]
    rfl
  · have hdojo : b.dojo.map Json.reparsed = b.dojo := by
      rw [reread_get] at hb
      obtain ⟨c, hc, rfl⟩ := Option.map_eq_some_iff.1 hb
      rw [Option.map_map]
      congr 1
      funext v
      exact Json.reparsed_reparsed v
    rw [reread_get, hnetworks, get_backfillAll]
    change (reread e).networks.get k = some b at hb
    simp only [Option.map_some, Option.getD_some, hb]
    split
    · refine ⟨_, rfl, ?_⟩
      unfold filled
      dsimp only
      cases hgiven : given b.depositAddress with
      | true => exact .inl (by rw [if_pos rfl, hdojo])
      | false => exact .inr ⟨rfl, by rw [if_neg Bool.false_ne_true]; dsimp only; rw [hdojo]⟩
    · exact ⟨_, rfl, .inl (by dsimp only; rw [hdojo])⟩

end Load

variable {derive : SeedDoc → Except Shop.Fault Wallet} {state : Option IdentityState}

/-- Start `i` goes by the seed: it has read it, or put it in place. -/
def Uses (i : Nat) (seed : SeedDoc) (l : List Trace) : Prop :=
  .found i seed ∈ l ∨ ∃ b, .seeded i seed b ∈ l

/-- A new seed is only put where there is none, and where it derives the codes in the state file. -/
def Fitting (l : List Trace) : Prop := ∀ i seed, .seeded i seed false ∉ l

/-- What the starts have done to a directory that began with the state file `state`. -/
structure Facts (derive : SeedDoc → Except Shop.Fault Wallet) (state : Option IdentityState) (w : World) :
    Prop where
  uses : ∀ i seed, Uses i seed w.log → w.seed = some seed
  fits : ∀ i seed b, .seeded i seed b ∈ w.log → agrees derive seed (state.map reread)
  file : (w.state = state ∧ ∀ i s, .saved i s ∉ w.log) ∨ ∃ i s, .saved i s ∈ w.log ∧ w.state = some s
  saved : ∀ i s, .saved i s ∈ w.log → ∃ seed W, w.seed = some seed ∧ derive seed = .ok W ∧
    Shop.loadOrCreate W (state.map reread) = .ok s
  checked : ∀ i seed f, .checked i seed f ∈ w.log →
    f = state.map reread ∨ ∃ j t, .saved j t ∈ w.log ∧ f = some (reread t)
  refuses : ∀ i seed f, .checked i seed f ∈ w.log → agrees derive seed f = false →
    (∀ t, .saved i t ∉ w.log) ∧ ∀ seed' b, .seeded i seed' b ∉ w.log

def Inv (derive : SeedDoc → Except Shop.Fault Wallet) (state : Option IdentityState) (w : World) : Prop :=
  Fitting w.log → Facts derive state w

/-- The shop has one seed, in the state `w'` that follows `w`: the identities that a start has returned
are the seed's, what was recorded in the state file is still there, and a start whose seed does not
derive a recorded code has written nothing and returns nothing. -/
structure OneSeed (derive : SeedDoc → Except Shop.Fault Wallet) (w : World)
    (p : Pool World Answer Failure Loaded) : Prop where
  identities : ∀ i r, p.result i = some (.ok r) →
    ∃ seed, p.shared.seed = some seed ∧ derive seed = .ok r.identities
  kept : Kept w.state p.shared.state
  refused : ∀ i seed f, .checked i seed f ∈ p.shared.log → agrees derive seed f = false →
    (∀ t, .saved i t ∉ p.shared.log) ∧ (∀ seed' b, .seeded i seed' b ∉ p.shared.log) ∧
      ∀ r, p.result i ≠ some (.ok r)

section Steps

variable {w : World} {i : Nat} {seed : SeedDoc} {W : Wallet} {f : Option IdentityState} {s : IdentityState}

theorem Fitting.of_cons {l : List Trace} {e : Trace} (h : Fitting (e :: l)) : Fitting l :=
  fun i seed hm => h i seed (List.mem_cons_of_mem e hm)

theorem uses_append (l l' : List Trace) (h : Uses i seed l') : Uses i seed (l ++ l') :=
  h.imp (List.mem_append_right l) fun ⟨b, hb⟩ => ⟨b, List.mem_append_right l hb⟩

theorem own_event {w' : World} {e : Trace} (he : e.owner = some i) (hlog : w'.log = e :: w.log)
    (h : Facts derive state w → Fitting (e :: w.log) → Facts derive state w') :
    Own World.log Trace.owner (Inv derive state) i w w' := by
  refine ⟨⟨[e], hlog, fun e' he' j hj => ?_⟩, fun hw ho => ?_⟩
  · cases List.mem_singleton.1 he'
    exact Option.some.inj (hj.symm.trans he)
  · rw [hlog] at ho
    exact h (hw ho.of_cons) ho

theorem own_readSeed (i : Nat) (w : World) :
    Own World.log Trace.owner (Inv derive state) i w (w.readSeed i).2 := by
  unfold World.readSeed
  split
  · exact .refl w
  · next seed hseed =>
    refine own_event (e := .found i seed) rfl rfl fun h _ => ?_
    constructor
    · intro j seed' hu
      obtain hf | ⟨b, hb⟩ := hu
      · obtain he | hf := List.mem_cons.1 hf
        · cases he
          exact hseed
        · exact h.uses j seed' (.inl hf)
      · obtain he | hb := List.mem_cons.1 hb
        · cases he
        · exact h.uses j seed' (.inr ⟨b, hb⟩)
    · simpa using h.fits
    · simpa using h.file
    · simpa using h.saved
    · simpa using h.checked
    · simpa using h.refuses

theorem own_readState (hu : Uses i seed w.log) (hn : ∀ t, .saved i t ∉ w.log) :
    Own World.log Trace.owner (Inv derive state) i w (w.readState i seed).2 := by
  refine own_event (e := .checked i seed w.file) rfl rfl fun h _ => ?_
  have hfile : w.file = state.map reread ∨ ∃ j t, .saved j t ∈ w.log ∧ w.file = some (reread t) := by
    obtain ⟨hs, -⟩ | ⟨j, t, ht, hs⟩ := h.file
    · exact .inl (congrArg _ hs)
    · exact .inr ⟨j, t, ht, congrArg _ hs⟩
  constructor
  · intro j seed' hu
    apply h.uses j seed'
    simpa [Uses, World.readState] using hu
  · simpa [World.readState] using h.fits
  · simpa [World.readState] using h.file
  · simpa [World.readState] using h.saved
  · intro j seed' g hm
    have hsaved : ∀ j t, .saved j t ∈ w.log → .saved j t ∈ (w.readState i seed).2.log :=
      fun _ _ ht => List.mem_cons_of_mem _ ht
    obtain he | hm := List.mem_cons.1 hm
    · cases he
      exact hfile.imp_right fun ⟨j, t, ht, hf⟩ => ⟨j, t, hsaved j t ht, hf⟩
    · exact (h.checked j seed' g hm).imp_right fun ⟨j, t, ht, hf⟩ => ⟨j, t, hsaved j t ht, hf⟩
  · intro j seed' g hm hno
    have hold : .checked j seed' g ∈ w.log → (∀ t, .saved j t ∉ w.log) ∧ ∀ seed'' b, .seeded j seed'' b ∉ w.log :=
      fun hm => h.refuses j seed' g hm hno
    have hnew : (∀ t, .saved j t ∉ w.log) ∧ ∀ seed'' b, .seeded j seed'' b ∉ w.log := by
      obtain he | hm := List.mem_cons.1 hm
      · cases he
        refine ⟨hn, fun seed'' b hb => ?_⟩
        -- A start that has made the seed finds no state that it does not derive.
        obtain rfl := Option.some.inj ((h.uses i seed'' (.inr ⟨b, hb⟩)).symm.trans (h.uses i seed hu))
        obtain hf | ⟨j, t, ht, hf⟩ := hfile
        · rw [hf, h.fits i _ b hb] at hno
          cases hno
        · obtain ⟨seed', W, hs, hW, hload⟩ := h.saved j t ht
          obtain rfl := Option.some.inj (hs.symm.trans (h.uses i _ hu))
          rw [hf, loaded_agrees hW hload] at hno
          cases hno
      · exact hold hm
    simpa [World.readState] using hnew

theorem own_putSeed (hn : ∀ e ∈ w.log, e.owner ≠ some i) :
    Own World.log Trace.owner (Inv derive state) i w (w.putSeed derive i seed) := by
  refine own_event (e := .seeded i seed (w.seed.isNone && agrees derive seed w.file)) rfl rfl fun h ho => ?_
  have hflag : (w.seed.isNone && agrees derive seed w.file) = true := by
    by_contra hf
    rw [Bool.not_eq_true] at hf
    apply ho i seed
    rw [hf]
    exact List.mem_cons_self
  obtain ⟨hnone, hagrees⟩ := Bool.and_eq_true_iff.1 hflag
  have hnone : w.seed = none := Option.isNone_iff_eq_none.1 hnone
  have hunused : ∀ j seed', ¬ Uses j seed' w.log := by
    intro j seed' hu
    have hs := h.uses j seed' hu
    rw [hnone] at hs
    cases hs
  have hunsaved : ∀ j t, .saved j t ∉ w.log := by
    intro j t ht
    obtain ⟨seed', W, hs, -⟩ := h.saved j t ht
    rw [hnone] at hs
    cases hs
  have hstate : w.state = state := by
    obtain ⟨hs, -⟩ | ⟨j, t, ht, -⟩ := h.file
    · exact hs
    · exact absurd ht (hunsaved j t)
  constructor
  · intro j seed' hu
    obtain hf | ⟨b, hb⟩ := hu
    · obtain he | hf := List.mem_cons.1 hf
      · cases he
      · exact absurd (.inl hf) (hunused j seed')
    · obtain he | hb := List.mem_cons.1 hb
      · cases he
        rfl
      · exact absurd (.inr ⟨b, hb⟩) (hunused j seed')
  · intro j seed' b hb
    obtain he | hb := List.mem_cons.1 hb
    · cases he
      rw [World.file, hstate] at hagrees
      exact hagrees
    · exact absurd (.inr ⟨b, hb⟩) (hunused j seed')
  · refine .inl ⟨hstate, fun j t ht => ?_⟩
    obtain he | ht := List.mem_cons.1 ht
    · cases he
    · exact hunsaved j t ht
  · intro j t ht
    obtain he | ht := List.mem_cons.1 ht
    · cases he
    · exact absurd ht (hunsaved j t)
  · simpa [World.putSeed] using h.checked
  · intro j seed' g hm hno
    obtain he | hm := List.mem_cons.1 hm
    · cases he
    · have hold := h.refuses j seed' g hm hno
      refine ⟨fun t ht => ?_, fun seed'' b hb => ?_⟩
      · obtain he | ht := List.mem_cons.1 ht
        · cases he
        · exact hold.1 t ht
      · obtain he | hb := List.mem_cons.1 hb
        · cases he
          exact hn _ hm rfl
        · exact hold.2 seed'' b hb

theorem own_putState (hW : ∀ n, (W.derived n).depositAddress ≠ "") (hu : Uses i seed w.log)
    (hd : derive seed = .ok W) (hf : .checked i seed f ∈ w.log) (hs : Shop.loadOrCreate W f = .ok s)
    (hg : grew f = true) (ha : ∀ seed g, .checked i seed g ∈ w.log → agrees derive seed g) :
    Own World.log Trace.owner (Inv derive state) i w (w.putState i s) := by
  refine own_event (e := .saved i s) rfl rfl fun h _ => ?_
  have hload : Shop.loadOrCreate W (state.map reread) = .ok s := by
    obtain rfl | ⟨j, t, ht, rfl⟩ := h.checked i seed f hf
    · exact hs
    · -- The state that another start has made does not grow.
      obtain ⟨seed', W', hs', hW', hload⟩ := h.saved j t ht
      obtain rfl := Option.some.inj (hs'.symm.trans (h.uses i seed hu))
      cases hd.symm.trans hW'
      rw [loaded_grown hW hload] at hg
      cases hg
  constructor
  · intro j seed' hu
    apply h.uses j seed'
    simpa [Uses, World.putState] using hu
  · simpa [World.putState] using h.fits
  · exact .inr ⟨i, s, List.mem_cons_self, rfl⟩
  · intro j t ht
    obtain he | ht := List.mem_cons.1 ht
    · cases he
      exact ⟨seed, W, h.uses i seed hu, hd, hload⟩
    · exact h.saved j t ht
  · intro j seed' g hm
    obtain he | hm := List.mem_cons.1 hm
    · cases he
    · exact (h.checked j seed' g hm).imp_right fun ⟨j, t, ht, hf⟩ =>
        ⟨j, t, List.mem_cons_of_mem _ ht, hf⟩
  · intro j seed' g hm hno
    obtain he | hm := List.mem_cons.1 hm
    · cases he
    · have hold := h.refuses j seed' g hm hno
      refine ⟨fun t ht => ?_, fun seed'' b hb => ?_⟩
      · obtain he | ht := List.mem_cons.1 ht
        · cases he
          rw [ha seed' g hm] at hno
          cases hno
        · exact hold.1 t ht
      · obtain he | hb := List.mem_cons.1 hb
        · cases he
        · exact hold.2 seed'' b hb

end Steps

section Calls

variable {w₀ w : World} {i : Nat} {seed : SeedDoc} {W : Wallet} {f : Option IdentityState}
  {s : IdentityState}

/-- Start `i` goes by the seed, and has not read the state file yet. -/
structure Going (i : Nat) (seed : SeedDoc) (l : List Trace) : Prop where
  uses : Uses i seed l
  unchecked : ∀ seed f, .checked i seed f ∉ l
  unsaved : ∀ t, .saved i t ∉ l

/-- It has read the state file, which is `f`. -/
structure Checking (i : Nat) (seed : SeedDoc) (f : Option IdentityState) (l : List Trace) : Prop where
  uses : Uses i seed l
  checked : .checked i seed f ∈ l
  only : ∀ seed' g, .checked i seed' g ∈ l → seed' = seed ∧ g = f

/-- What the log of start `i` has once it has read the seed file. -/
def Sought (i : Nat) : Option SeedDoc → List Trace → Prop
  | none, l => ∀ e ∈ l, e.owner ≠ some i
  | some seed, l => Going i seed l

/-- What is left in the log of a start that has returned `r`. -/
def Returned (derive : SeedDoc → Except Shop.Fault Wallet) (i : Nat) (r : Loaded) (l : List Trace) : Prop :=
  ∃ seed f, derive seed = .ok r.identities ∧ Checking i seed f l ∧ agrees derive seed f

theorem stable_going : Stable Trace.owner i (Going i seed) := by
  intro l l' hl h
  refine ⟨uses_append l l' h.uses, fun seed' f hm => ?_, fun t hm => ?_⟩
  · obtain hm | hm := List.mem_append.1 hm
    · exact hl _ hm rfl
    · exact h.unchecked seed' f hm
  · obtain hm | hm := List.mem_append.1 hm
    · exact hl _ hm rfl
    · exact h.unsaved t hm

theorem stable_checking : Stable Trace.owner i (Checking i seed f) := by
  intro l l' hl h
  refine ⟨uses_append l l' h.uses, List.mem_append_right l h.checked, fun seed' g hm => ?_⟩
  obtain hm | hm := List.mem_append.1 hm
  · exact absurd rfl (hl _ hm)
  · exact h.only seed' g hm

theorem stable_returned {r : Loaded} : Stable Trace.owner i (Returned derive i r) := by
  rintro l l' hl ⟨seed, f, hd, hc, ha⟩
  exact ⟨seed, f, hd, stable_checking l l' hl hc, ha⟩

abbrev Knowing (derive : SeedDoc → Except Shop.Fault Wallet) (state : Option IdentityState) (i : Nat)
    (P : List Trace → Prop) : World → World → Prop := Knows World.log Trace.owner (Inv derive state) i P

/-- Start `i`, by its segments. -/
abbrev Runs (derive : SeedDoc → Except Shop.Fault Wallet) (state : Option IdentityState) (i : Nat)
    (P : α → List Trace → Prop) (p : Process α) (w₀ w : World) : Prop :=
  Owned.Keeps World.log Trace.owner (Inv derive state) i (fun a => Knowing derive state i (P a)) p w₀ w

theorem runs_readJSON {P : List Trace → Prop} {Q : α → List Trace → Prop} {r : World → α × World}
    (hQ : ∀ x, Stable Trace.owner i (Q x))
    (hstep : ∀ w, P w.log → Own World.log Trace.owner (Inv derive state) i w (r w).2)
    (hdone : ∀ w, P w.log → Q (r w).1 (r w).2.log) (h : Knowing derive state i P w₀ w) :
    Runs derive state i (fun x => Q x.1) (readJSON r) w₀ w := by
  simp only [Runs, readJSON, sat_bind, sat_wait, sat_updateGet]
  refine ⟨h.steps, fun t ht a => ?_⟩
  have hk := h.here.rely ht
  cases a.ok with
  | true =>
    have hk' := hk.step (hstep t hk.known) (hQ _) (hdone t hk.known)
    exact ⟨hk'.steps, fun u hu b => hk'.here.rely hu⟩
  | false => exact ⟨hk.steps, fun u hu b => (hk.rely hu).ends _⟩

theorem runs_fileOp {P P' : List Trace → Prop} {g : World → World} (hP' : Stable Trace.owner i P')
    (hstep : ∀ w, P w.log → Own World.log Trace.owner (Inv derive state) i w (g w))
    (hdone : ∀ w, P w.log → P' (g w).log) (h : Knowing derive state i P w₀ w) :
    Runs derive state i (fun _ => P') (fileOp g) w₀ w := by
  simp only [Runs, fileOp, sat_bind, sat_wait, sat_update]
  refine ⟨h.steps, fun t ht a => ?_⟩
  have hk := h.here.rely ht
  cases a.ok with
  | true =>
    have hk' := hk.step (hstep t hk.known) hP' (hdone t hk.known)
    exact ⟨hk'.steps, fun u hu b => hk'.here.rely hu⟩
  | false => exact ⟨hk.steps, fun u hu b => (hk.rely hu).ends _⟩

theorem runs_writeAtomic {P P' : List Trace → Prop} {g : World → World} (hP' : Stable Trace.owner i P')
    (hstep : ∀ w, P w.log → Own World.log Trace.owner (Inv derive state) i w (g w))
    (hdone : ∀ w, P w.log → P' (g w).log) (h : Knowing derive state i P w₀ w) :
    Runs derive state i (fun _ => P') (writeAtomic g) w₀ w := by
  have hidle {w₀ w : World} (h : Knowing derive state i P w₀ w) :
      Runs derive state i (fun _ => P) (fileOp id) w₀ w :=
    runs_fileOp h.stable (fun w _ => .refl w) (fun _ hp => hp) h
  exact (hidle h).seq fun _ _ _ h => (hidle h).seq fun _ _ _ h => (hidle h).seq fun _ _ _ h =>
    runs_fileOp hP' hstep hdone h

theorem runs_load (hderive : ∀ seed W, derive seed = .ok W → ∀ n, (W.derived n).depositAddress ≠ "")
    (created : Bool) (h : Knowing derive state i (Going i seed) w₀ w) :
    Runs derive state i (Returned derive i) (load derive i seed created) w₀ w := by
  unfold load
  cases hd : derive seed with
  | error f => exact h.ends _
  | ok W =>
    have hread := runs_readJSON (Q := Checking i seed) (r := World.readState i seed)
      (fun _ => stable_checking) (fun w hp => own_readState hp.uses hp.unsaved) (fun w hp => ?_) h
    · refine hread.seq fun x t₀ t ht => ?_
      obtain ⟨f, a⟩ := x
      dsimp only
      cases hs : Shop.loadOrCreate W f with
      | error e => exact ht.ends _
      | ok s =>
        have hagrees : agrees derive seed f := by
          unfold agrees
          rw [hd]
          cases f with
          | none => rfl
          | some g =>
            have hnone := ((loaded_cases hs).2 g rfl).1
            simpa using List.find?_eq_none.1 hnone
        have hreturns {t₀ t : World} (ht : Knowing derive state i (Checking i seed f) t₀ t) :
            Knowing derive state i (Returned derive i ⟨W, s, created⟩) t₀ t :=
          ht.mono stable_returned fun hc => ⟨seed, f, hd, hc, hagrees⟩
        dsimp only
        cases hg : grew f with
        | false => exact hreturns ht
        | true =>
          refine (runs_writeAtomic stable_checking (fun w hp => ?_) (fun w hp => ?_) ht).seq
            fun _ _ _ ht => hreturns ht
          · refine own_putState (hderive seed W hd) hp.uses hd hp.checked hs hg fun seed' g hm => ?_
            obtain ⟨rfl, rfl⟩ := hp.only seed' g hm
            exact hagrees
          · refine ⟨uses_append [_] w.log hp.uses, List.mem_cons_of_mem _ hp.checked, fun seed' g hm => ?_⟩
            obtain he | hm := List.mem_cons.1 hm
            · cases he
            · exact hp.only seed' g hm
    · refine ⟨uses_append [_] w.log hp.uses, List.mem_cons_self, fun seed' g hm => ?_⟩
      obtain he | hm := List.mem_cons.1 hm
      · cases he
        exact ⟨rfl, rfl⟩
      · exact absurd hm (hp.unchecked seed' g)

theorem going_of_fresh {l : List Trace} {e : Trace} (hn : ∀ e ∈ l, e.owner ≠ some i)
    (hu : Uses i seed (e :: l)) (he : ∀ seed f, e ≠ .checked i seed f) (hs : ∀ t, e ≠ .saved i t) :
    Going i seed (e :: l) := by
  refine ⟨hu, fun seed' f hm => ?_, fun t hm => ?_⟩
  · obtain rfl | hm := List.mem_cons.1 hm
    · exact he seed' f rfl
    · exact hn _ hm rfl
  · obtain rfl | hm := List.mem_cons.1 hm
    · exact hs t rfl
    · exact hn _ hm rfl

theorem runs_loadOrCreate
    (hderive : ∀ seed W, derive seed = .ok W → ∀ n, (W.derived n).depositAddress ≠ "") (c : Unit)
    (h : Knowing derive state i (fun l => ∀ e ∈ l, e.owner ≠ some i) w₀ w) :
    Runs derive state i (Returned derive i) (loadOrCreate derive i c) w₀ w := by
  have hfresh : Stable Trace.owner i fun l => ∀ e ∈ l, e.owner ≠ some i := h.stable
  have hread := runs_readJSON (Q := Sought i) (r := World.readSeed i) (fun x => ?_) (fun w _ => own_readSeed i w) (fun w hp => ?_) h
  · refine hread.seq fun x t₀ t ht => ?_
    obtain ⟨found, a⟩ := x
    cases found with
    | some seed => exact runs_load hderive false ht
    | none =>
      refine (runs_writeAtomic stable_going (fun w hp => own_putSeed hp) (fun w hp => ?_) ht).seq
        fun _ _ _ ht => runs_load hderive true ht
      exact going_of_fresh hp (.inr ⟨_, List.mem_cons_self⟩) (fun _ _ he => by cases he)
        fun _ he => by cases he
  · cases x with
    | none => exact hfresh
    | some seed => exact stable_going
  · unfold World.readSeed
    cases hs : w.seed with
    | none => exact hp
    | some seed =>
      exact going_of_fresh hp (.inl List.mem_cons_self) (fun _ _ he => by cases he)
        fun _ he => by cases he

end Calls

section Runs

variable {seed₀ : Option SeedDoc} {w : World} {p : Pool World Answer Failure Loaded}

def starting (hderive : ∀ seed W, derive seed = .ok W → ∀ n, (W.derived n).depositAddress ≠ "")
    (state : Option IdentityState) : Pool.Contract (loadOrCreate derive) fun _ => True :=
  Owned.answering World.log Trace.owner (Inv derive state) (Returned derive) (fun _ _ _ => True)
    fun _ c _ _ h => runs_loadOrCreate hderive c h

theorem inv_fresh : Inv derive state { seed := seed₀, state } := by
  intro _
  constructor
  · rintro i seed (h | ⟨b, h⟩)
    · exact absurd h List.not_mem_nil
    · exact absurd h List.not_mem_nil
  · exact fun i seed b h => absurd h List.not_mem_nil
  · exact .inl ⟨rfl, fun i s h => List.not_mem_nil h⟩
  · exact fun i s h => absurd h List.not_mem_nil
  · exact fun i seed f h => absurd h List.not_mem_nil
  · exact fun i seed f h => absurd h List.not_mem_nil

theorem good_run (hderive : ∀ seed W, derive seed = .ok W → ∀ n, (W.derived n).depositAddress ≠ "")
    (moves : List (Move Unit Answer)) : (starting hderive state).Good (run derive seed₀ state moves) := by
  have hstart : ∀ i, (starting hderive state).Pre i { seed := seed₀, state } := fun i =>
    ⟨inv_fresh, fun e he => absurd he List.not_mem_nil⟩
  exact (Pool.Contract.Good.start _ hstart).run fun _ _ => trivial

theorem Facts.kept {w' : World} (h : Facts derive state w) (h' : Facts derive state w')
    (hl : w.log <:+ w'.log) : Kept w.state w'.state := by
  have hmade : ∀ {i s}, .saved i s ∈ w'.log → ∃ seed W, w'.seed = some seed ∧ derive seed = .ok W ∧
    Shop.loadOrCreate W (state.map reread) = .ok s := h'.saved _ _
  obtain ⟨hs, -⟩ | ⟨i, s, hsaved, hs⟩ := h.file
  · obtain ⟨hs', -⟩ | ⟨j, t, ht, hs'⟩ := h'.file
    · rw [hs, hs']
      exact .refl state
    · obtain ⟨seed, W, -, -, hload⟩ := hmade ht
      rw [hs, hs']
      exact loaded_kept hload
  · obtain ⟨-, hno⟩ | ⟨j, t, ht, hs'⟩ := h'.file
    · exact absurd (hl.subset hsaved) (hno i s)
    · obtain ⟨seed, W, hseed, hd, hload⟩ := hmade (hl.subset hsaved)
      obtain ⟨seed', W', hseed', hd', hload'⟩ := hmade ht
      obtain rfl := Option.some.inj (hseed.symm.trans hseed')
      cases hd.symm.trans hd'
      cases hload.symm.trans hload'
      rw [hs, hs']
      exact .refl _

/-- In a run whose new seeds are fitting, the shop has one seed. -/
theorem shop_has_one_seed
    (hderive : ∀ seed W, derive seed = .ok W → ∀ n, (W.derived n).depositAddress ≠ "")
    (seed₀ : Option SeedDoc) (state : Option IdentityState) (moves later : List (Move Unit Answer))
    (h : Fitting (run derive seed₀ state (moves ++ later)).shared.log) :
    OneSeed derive (run derive seed₀ state moves).shared (run derive seed₀ state (moves ++ later)) := by
  have hg : (starting hderive state).Good (run derive seed₀ state moves) := good_run hderive moves
  have hrest : run derive seed₀ state (moves ++ later) =
      Pool.run (loadOrCreate derive) (run derive seed₀ state moves) later := Pool.run_append _ _ moves later
  rw [hrest] at h ⊢
  have hg' : (starting hderive state).Good
      (Pool.run (loadOrCreate derive) (run derive seed₀ state moves) later) := hg.run fun _ _ => trivial
  have hlog : (run derive seed₀ state moves).shared.log <:+
      (Pool.run (loadOrCreate derive) (run derive seed₀ state moves) later).shared.log := by
    refine hg.path (P := fun w w' => w.log <:+ w'.log) (fun _ _ => trivial) (fun w => List.suffix_rfl)
      List.IsSuffix.trans ?_
    intro i w w' hstep
    obtain ⟨l, hl, -⟩ := hstep.added
    rw [hl]
    exact List.suffix_append _ _
  have hfacts : Facts derive state (run derive seed₀ state moves).shared :=
    hg.pre.1 fun i seed hm => h i seed (hlog.subset hm)
  have hfacts' : Facts derive state
      (Pool.run (loadOrCreate derive) (run derive seed₀ state moves) later).shared := hg'.pre.1 h
  constructor
  · intro i r hr
    obtain ⟨seed, f, hd, hc, -⟩ := (hg'.returned hr).known
    exact ⟨seed, hfacts'.uses i seed hc.uses, hd⟩
  · exact hfacts.kept hfacts' hlog
  · intro i seed f hm hno
    obtain ⟨hsaved, hseeded⟩ := hfacts'.refuses i seed f hm hno
    refine ⟨hsaved, hseeded, fun r hr => ?_⟩
    obtain ⟨seed', f', -, hc, ha⟩ := (hg'.returned hr).known
    obtain ⟨rfl, rfl⟩ := hc.only seed f hm
    rw [ha] at hno
    cases hno

section Instance

/-- A seed whose identities are named after its words. -/
def named (seed : SeedDoc) : Except Shop.Fault Wallet :=
  .ok {
    createdAt := seed.createdAt
    derived n := {
      paymentCode := "PM8T" ++ seed.mnemonic ++ n
      notificationAddress := "1" ++ seed.mnemonic ++ n
      depositAddress := "bc1q" ++ seed.mnemonic ++ n }
    notificationAddress _ _ := .error "Invalid payment code" }

theorem named_addresses (seed : SeedDoc) (W : Wallet) (h : named seed = .ok W) (n : String) :
    (W.derived n).depositAddress ≠ "" := by
  cases h
  intro hempty
  have hlist := congrArg String.toList hempty
  simp only [String.toList_append] at hlist
  cases hlist

/-- The first start makes the seed, and a second one finds it. -/
def oneAfterAnother : List (Move Unit Answer) :=
  .call () :: List.replicate 20 (.resume 0 { mnemonic := "abandon", now := "2026" }) ++
    .call () :: List.replicate 4 (.resume 1 {})

theorem shop_has_one_seed_started : (run named none none oneAfterAnother).Finished ∧
    OneSeed named {} (run named none none oneAfterAnother) := by
  have hfinished : (run named none none oneAfterAnother).Finished := by
    unfold oneAfterAnother
    decide +kernel
  have hlog : (run named none none ([] ++ oneAfterAnother)).shared.log.all (fun e => match e with
      | .seeded _ _ fits => fits
      | _ => true) = true := by
    unfold oneAfterAnother
    decide +kernel
  rw [List.all_eq_true] at hlog
  have hfitting : Fitting (run named none none ([] ++ oneAfterAnother)).shared.log := fun i seed hm =>
    absurd (hlog _ hm) (by simp)
  exact ⟨hfinished, shop_has_one_seed named_addresses none none [] oneAfterAnother hfitting⟩

/-- Two first starts overlap: both find no seed. What the first returns is derived from a seed that the
second replaces. -/
theorem overlapping_starts_orphan_identities : ¬ ∀ moves : List (Move Unit Answer),
    OneSeed named {} (run named none none moves) := by
  intro h
  have hrun := h (.call () :: .call () :: .resume 0 {} :: .resume 1 {} ::
    (List.replicate 19 (.resume 0 { mnemonic := "abandon", now := "2026" }) ++
      List.replicate 9 (.resume 1 { mnemonic := "zoo", now := "2026" })))
  obtain ⟨seed, hseed, hd⟩ := hrun.identities 0 _ rfl
  cases hseed
  have hcode := congrArg (fun W => W.toOption.map fun W => (W.derived "").paymentCode) hd
  exact absurd hcode (by decide)

end Instance

end Runs

end Mise.Gateway.Start
