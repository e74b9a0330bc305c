import Mise.Server.Tally

set_option autoImplicit true

namespace Mise.Server

open Js

/-- An id that the server makes of a network and a slug. -/
structure NodeId where
  network : Network
  slug : String

def NodeId.text (id : NodeId) : String := id.network.text ++ "-" ++ id.slug

theorem NodeId.plain (id : NodeId) : id.text ∉ objectPrototype := by
  have hdash : '-' ∈ id.text.toList := by simp [text, String.toList_append]
  have hno : ∀ k ∈ objectPrototype, '-' ∉ k.toList := by decide
  exact fun h => hno _ h hdash

/-- A completed rebuild, or a completed cycle that has reached a node. -/
inductive HistoryStep where
  | rebuild (ids approved : List String) (pending : Table PendingNode) (now : Int)
  | update (nodes : List (String × NodeProbe)) (now : Int)

namespace HistoryStep

def ids : HistoryStep → List String
  | rebuild ids _ _ _ => ids
  | update nodes _ => nodes.map Prod.fst

/-- The time that the step stamps. -/
def stamp : HistoryStep → Int
  | rebuild _ _ _ now => now
  | update _ now => isoSec now

def apply (H : HistoryRules) : HistoryStep → HistoryFiles → HistoryFiles
  | rebuild ids approved pending now, f => f.rebuild H ids approved pending now
  | update nodes now, f => f.update H nodes now

end HistoryStep

/-- The files after these steps, newest first. -/
def afterSteps (H : HistoryRules) (f : HistoryFiles) : List HistoryStep → HistoryFiles
  | [] => f
  | st :: earlier => st.apply H (afterSteps H f earlier)

/-- The step is a cycle at the time `now` that finds this of the node. -/
def HistoryStep.Finds (id : String) (now : Int) (x : NodeProbe) : HistoryStep → Prop
  | rebuild .. => False
  | update nodes t => t = now ∧ (id, x) ∈ nodes

/-- What a step may write of a node: a row of its own, or the last row again. -/
structure RowRule (ρ : Type) where
  adds : HistoryStep → ρ → Prop
  grows : HistoryStep → ρ → ρ → Prop

/-- A cycle adds the check that it has made. -/
def checkRule (id : String) : RowRule HistoryCheck where
  adds st k := ∃ now x, st.Finds id now x ∧ k = ⟨now / 60000, x.up, x.holder⟩
  grows _ _ _ := False

/-- A cycle counts its check in the row of its day, which it may have to add. -/
def dayRule (id : String) : RowRule DailyRow where
  adds st r := ∃ now x, st.Finds id now x ∧ r = DailyRow.count { d := now / 86400000 } x
  grows st r r' := ∃ now x, st.Finds id now x ∧ r.d = now / 86400000 ∧ r' = r.count x

/-- What one step makes of the rows of a node. -/
inductive RowStep (R : RowRule ρ) (w : Nat) (st : HistoryStep) : List ρ → List ρ → Prop
  | idle (l : List ρ) : RowStep R w st l l
  | add (l : List ρ) (h : R.adds st r) : RowStep R w st l (trimTo w (l ++ [r]))
  | grow (l : List ρ) (h : R.grows st r r') : RowStep R w st (l ++ [r]) (trimTo w (l ++ [r']))

/-- What these steps, newest first, make of the rows `old`. -/
def Recorded (R : RowRule ρ) (w : Nat) (old : List ρ) : List HistoryStep → List ρ → Prop
  | [], new => new = old
  | st :: later, new => ∃ mid, Recorded R w old later mid ∧ RowStep R w st mid new

/-- All rows but the last are the same, and the last has at most gone on. -/
def LastGrown (same : ρ → ρ → Prop) (old new : List ρ) : Prop :=
  new = old ∨ ∃ l r r', old = l ++ [r] ∧ new = l ++ [r'] ∧ same r r'

/-- Rows that follow on from the rows `old`: these are there in their order, but for the last each as
it was, with at most `n` later ones after them, and none is dropped from the front unless `w` rows
stay. -/
def FollowOn (same : ρ → ρ → Prop) (n w : Nat) (old new : List ρ) : Prop :=
  ∃ old' more dropped, LastGrown same old old' ∧ more.length ≤ n ∧
    dropped ++ new = old' ++ more ∧ (dropped = [] ∨ w ≤ new.length)

/-- The same day, with more checks counted. -/
def DailyRow.Continued (r r' : DailyRow) : Prop :=
  ∃ probes : List NodeProbe, r' = probes.foldl DailyRow.count r

section Absence

variable (first : Stamp) (id : String)

/-- The id was unlisted at each of these steps from one at the time `t` on, or at all of them, and
the file had it stamped with `t` before. -/
def AbsentSince (t : Int) : List HistoryStep → Prop
  | [] => first = .at t
  | st :: earlier => id ∉ st.ids ∧ (st.stamp = t ∨ AbsentSince t earlier)

/-- At the step the id has been unlisted at every step over more than the grace period. -/
def Expired (grace : Int) (st : HistoryStep) (earlier : List HistoryStep) : Prop :=
  id ∉ st.ids ∧ ∃ t, AbsentSince first id t earlier ∧ grace < st.stamp - t

/-- The bucket of an id is never lost before the grace period is over, and a step that lists the id
clears its stamp and keeps its rows. `bucket` says what the file has of the id. -/
structure HistoryKept (R : RowRule ρ) (same : ρ → ρ → Prop) (w : Nat) (grace : Int)
    (bucket : List HistoryStep → Option (Bucket ρ)) : Prop where
  kept : ∀ later earlier b, bucket earlier = some b →
    (∀ l st e, later = l ++ st :: e → ¬ Expired first id grace st (e ++ earlier)) →
    ∃ b', bucket (later ++ earlier) = some b' ∧ Recorded R w b.rows later b'.rows ∧
      FollowOn same later.length w b.rows b'.rows
  relisted : ∀ st earlier, id ∈ st.ids → ∃ b', bucket (st :: earlier) = some b' ∧
    b'.retired = .absent ∧ ∀ b, bucket earlier = some b → RowStep R w st b.rows b'.rows

end Absence

section Rows

variable {R : RowRule ρ} {same : ρ → ρ → Prop} {w n : Nat} {st : HistoryStep}
  {old old' mid new more dropped l : List ρ} {id : String} {x : NodeProbe}

theorem trimTo_split (w : Nat) (l : List ρ) :
    ∃ dropped, dropped ++ trimTo w l = l ∧ (dropped = [] ∨ w ≤ (trimTo w l).length) := by
  refine ⟨l.take (l.length - w), List.take_append_drop _ l, ?_⟩
  by_cases hl : l.length ≤ w
  · left
    rw [Nat.sub_eq_zero_of_le hl, List.take_zero]
  · right
    rw [length_trimTo]
    omega

theorem LastGrown.grow (h : LastGrown same old (l ++ [r])) (hr : same r r')
    (ht : ∀ {r r' r''}, same r r' → same r' r'' → same r r'') : LastGrown same old (l ++ [r']) := by
  obtain rfl | ⟨k, q, q', rfl, he, hq⟩ := h
  · exact .inr ⟨l, r, r', rfl, rfl, hr⟩
  · obtain ⟨rfl, hrq⟩ := List.append_inj' he rfl
    cases hrq
    exact .inr ⟨l, q, r', rfl, rfl, ht hq hr⟩

theorem FollowOn.refl (same : ρ → ρ → Prop) (w : Nat) (l : List ρ) : FollowOn same 0 w l l :=
  ⟨l, [], [], .inl rfl, Nat.le_refl 0, (List.append_nil l).symm, .inl rfl⟩

theorem FollowOn.trim (h : LastGrown same old old') (hn : m.length ≤ n)
    (he : d ++ l = old' ++ m) (hw : d = [] ∨ w ≤ l.length) : FollowOn same n w old (trimTo w l) := by
  obtain ⟨front, hfront, hfull⟩ := trimTo_split w l
  refine ⟨old', m, d ++ front, h, hn, ?_, ?_⟩
  · rw [List.append_assoc, hfront, he]
  · obtain rfl | hw := hw
    · exact hfull
    · right
      rw [length_trimTo]
      omega

theorem FollowOn.step (hg : ∀ {r r'}, R.grows st r r' → same r r')
    (ht : ∀ {r r' r''}, same r r' → same r' r'' → same r r'') (h : FollowOn same n w old mid)
    (hs : RowStep R w st mid new) : FollowOn same (n + 1) w old new := by
  obtain ⟨old', more, dropped, hold, hn, he, hw⟩ := h
  cases hs with
  | idle => exact ⟨old', more, dropped, hold, Nat.le_succ_of_le hn, he, hw⟩
  | add _ hr =>
    apply FollowOn.trim (m := more ++ [_]) (d := dropped) hold
    · rw [List.length_append]
      exact Nat.succ_le_succ hn
    · rw [← List.append_assoc, he, List.append_assoc]
    · obtain hw | hw := hw
      · exact .inl hw
      · right
        rw [List.length_append]
        exact Nat.le_add_right_of_le hw
  | @grow r r' l hr =>
    have hw : dropped = [] ∨ w ≤ (l ++ [r']).length := by
      rw [List.length_append] at hw ⊢
      exact hw
    rw [← List.append_assoc] at he
    -- the last row is one that a step has added, or the last of the old ones
    cases more using List.reverseRecOn with
    | nil =>
      rw [List.append_nil] at he
      subst he
      apply FollowOn.trim (m := []) (d := dropped) (hold.grow (hg hr) ht)
      · exact Nat.zero_le _
      · rw [List.append_nil, List.append_assoc]
      · exact hw
    | append_singleton more q =>
      rw [← List.append_assoc] at he
      obtain ⟨hfront, -⟩ := List.append_inj' he rfl
      apply FollowOn.trim (m := more ++ [r']) (d := dropped) hold
      · rw [List.length_append] at hn ⊢
        exact Nat.le_succ_of_le hn
      · rw [← List.append_assoc, hfront, List.append_assoc]
      · exact hw

theorem Recorded.followOn (hg : ∀ {st r r'}, R.grows st r r' → same r r')
    (ht : ∀ {r r' r''}, same r r' → same r' r'' → same r r'') {later : List HistoryStep}
    (h : Recorded R w old later new) : FollowOn same later.length w old new := by
  induction later generalizing new with
  | nil =>
    cases h
    exact .refl same w old
  | cons st later ih =>
    obtain ⟨mid, hmid, hs⟩ := h
    exact (ih hmid).step hg ht hs

theorem DailyRow.Continued.trans {r r' r'' : DailyRow} (h : r.Continued r') (h' : r'.Continued r'') :
    r.Continued r'' := by
  obtain ⟨probes, rfl⟩ := h
  obtain ⟨more, rfl⟩ := h'
  exact ⟨probes ++ more, (List.foldl_append ..).symm⟩

theorem continued_of_grows {r r' : DailyRow} (h : (dayRule id).grows st r r') : r.Continued r' := by
  obtain ⟨now, x, -, -, rfl⟩ := h
  exact ⟨[x], rfl⟩

theorem rowStep_addCheck {nodes : List (String × NodeProbe)} (w : Nat) (now : Int)
    (hx : (id, x) ∈ nodes) (l : List HistoryCheck) :
    RowStep (checkRule id) w (.update nodes now) l (addCheck w (now / 60000) x l) :=
  .add l ⟨now, x, ⟨rfl, hx⟩, rfl⟩

theorem rowStep_addDay {nodes : List (String × NodeProbe)} (w : Nat) (now : Int)
    (hx : (id, x) ∈ nodes) (l : List DailyRow) :
    RowStep (dayRule id) w (.update nodes now) l (addDay w (now / 86400000) x l) := by
  have hadd : (dayRule id).adds (.update nodes now) (DailyRow.count { d := now / 86400000 } x) :=
    ⟨now, x, ⟨rfl, hx⟩, rfl⟩
  cases l using List.reverseRecOn with
  | nil => exact .add [] hadd
  | append_singleton l rec =>
    rw [addDay, countDay_concat]
    split
    · next hday => exact .grow l ⟨now, x, ⟨rfl, hx⟩, hday, rfl⟩
    · exact .add (l ++ [rec]) hadd

end Rows

/-- What one step does to the bucket of an id. -/
structure BucketStep (R : RowRule ρ) (w : Nat) (grace : Int) (id : String) (st : HistoryStep)
    (old new : Option (Bucket ρ)) : Prop where
  listed : id ∈ st.ids → ∃ b', new = some b' ∧ b'.retired = .absent ∧
    ∀ b, old = some b → RowStep R w st b.rows b'.rows
  unlisted : id ∉ st.ids → new = old.bind (Bucket.retire false st.stamp grace)

section Runs

variable {R : RowRule ρ} {same : ρ → ρ → Prop} {w : Nat} {grace : Int} {id : String}
  {bucket : List HistoryStep → Option (Bucket ρ)}

theorem absentSince_stamp
    (hstep : ∀ st earlier, BucketStep R w grace id st (bucket earlier) (bucket (st :: earlier)))
    (steps : List HistoryStep) (hb : bucket steps = some b) (ht : b.retired = .at t) :
    AbsentSince (((bucket []).map Bucket.retired).getD .absent) id t steps := by
  induction steps generalizing b with
  | nil =>
    rw [AbsentSince, hb]
    exact ht
  | cons st earlier ih =>
    by_cases hid : id ∈ st.ids
    · obtain ⟨b', hb', hr, -⟩ := (hstep st earlier).listed hid
      cases hb.symm.trans hb'
      cases hr.symm.trans ht
    · refine ⟨hid, ?_⟩
      have hnew := hb.symm.trans ((hstep st earlier).unlisted hid)
      cases hold : bucket earlier with
      | none =>
        rw [hold] at hnew
        cases hnew
      | some b₀ =>
        rw [hold, Option.bind_some, Bucket.retire] at hnew
        simp only [Bool.false_eq_true, if_false] at hnew
        split at hnew
        · cases hnew
          cases ht
          exact .inl rfl
        · split at hnew
          · cases hnew
          · cases hnew
            exact .inr (ih hold ht)

theorem BucketStep.kept (h : BucketStep R w grace id st (some b) new)
    (hno : id ∈ st.ids ∨ ∀ t, b.retired = .at t → ¬ grace < st.stamp - t) :
    ∃ b', new = some b' ∧ RowStep R w st b.rows b'.rows := by
  by_cases hid : id ∈ st.ids
  · obtain ⟨b', hb', -, hrows⟩ := h.listed hid
    exact ⟨b', hb', hrows b rfl⟩
  · have hno := hno.resolve_left hid
    have hnew := h.unlisted hid
    rw [Option.bind_some, Bucket.retire] at hnew
    simp only [Bool.false_eq_true, if_false] at hnew
    split at hnew
    · exact ⟨_, hnew, .idle _⟩
    · split at hnew
      · next hgone =>
        cases hb : b.retired with
        | absent | unusable =>
          rw [hb] at hgone
          cases hgone
        | «at» t =>
          rw [hb] at hgone
          have hlt : t < st.stamp - grace := of_decide_eq_true hgone
          exact absurd (by omega) (hno t hb)
      · exact ⟨b, hnew, .idle _⟩

theorem history_kept (hg : ∀ {st r r'}, R.grows st r r' → same r r')
    (ht : ∀ {r r' r''}, same r r' → same r' r'' → same r r'')
    (hstep : ∀ st earlier, BucketStep R w grace id st (bucket earlier) (bucket (st :: earlier))) :
    HistoryKept (((bucket []).map Bucket.retired).getD .absent) id R same w grace bucket where
  kept later earlier b hb hno := by
    suffices hkept : ∃ b', bucket (later ++ earlier) = some b' ∧ Recorded R w b.rows later b'.rows by
      obtain ⟨b', hb', hrows⟩ := hkept
      exact ⟨b', hb', hrows, hrows.followOn hg ht⟩
    induction later with
    | nil => exact ⟨b, hb, rfl⟩
    | cons st later ih =>
      obtain ⟨b₁, hb₁, hrows⟩ := ih fun l st' e hl => hno (st :: l) st' e (congrArg (st :: ·) hl)
      have hs := hstep st (later ++ earlier)
      rw [hb₁] at hs
      have hexp := hno [] st later rfl
      obtain ⟨b', hb', hrows'⟩ := hs.kept (by
        by_cases hid : id ∈ st.ids
        · exact .inl hid
        · refine .inr fun t hat hlt => hexp ⟨hid, t, ?_, hlt⟩
          exact absentSince_stamp hstep (later ++ earlier) hb₁ hat)
      exact ⟨b', hb', b₁.rows, hrows, hrows'⟩
  relisted st earlier hid := (hstep st earlier).listed hid

end Runs

section Files

variable (H : HistoryRules) (f : HistoryFiles) (id : NodeId)

/-- What the two files have of an id after these steps. -/
def histAfter (steps : List HistoryStep) : Option (Bucket HistoryCheck) :=
  (afterSteps H f steps).hist.get id.text

def dailyAfter (steps : List HistoryStep) : Option (Bucket DailyRow) :=
  (afterSteps H f steps).daily.get id.text

variable {R : RowRule ρ} {w : Nat} {m : Table (Bucket ρ)}

theorem bucketStep_rebuild (seed : String → List ρ) (ids approved : List String)
    (pending : Table PendingNode) (now grace : Int) (m : Table (Bucket ρ)) :
    BucketStep R w grace id.text (.rebuild ids approved pending now) (m.get id.text)
      ((rebuildHistory seed ids now grace m).get id.text) where
  listed hid := by
    have hid : id.text ∈ ids := hid
    rw [get_rebuildHistory id.plain, if_pos hid]
    refine ⟨_, rfl, rfl, fun b hb => ?_⟩
    rw [hb]
    exact .idle _
  unlisted hid := by
    have hid : id.text ∉ ids := hid
    rw [get_rebuildHistory id.plain, if_neg hid]
    rfl

theorem bucketStep_update {record : NodeProbe → List ρ → List ρ}
    {nodes : List (String × NodeProbe)} {now : Int}
    (hrecord : ∀ x, (id.text, x) ∈ nodes → ∀ l, RowStep R w (.update nodes now) l (record x l))
    (grace : Int) (m : Table (Bucket ρ)) :
    BucketStep R w grace id.text (.update nodes now) (m.get id.text)
      ((recordHistory record nodes (isoSec now) grace m).get id.text) := by
  obtain ⟨hn, hg⟩ | ⟨r, hmem, hg⟩ := get_recordHistory id.plain record nodes (isoSec now) grace m
  · exact ⟨fun hid => absurd hid hn, fun _ => hg⟩
  · refine ⟨fun _ => ⟨_, hg, rfl, fun b hb => ?_⟩, fun hn => absurd (List.mem_map_of_mem hmem) hn⟩
    rw [hb]
    exact hrecord r hmem b.rows

theorem bucketStep_hist (st : HistoryStep) (earlier : List HistoryStep) :
    BucketStep (checkRule id.text) H.window H.grace id.text st (histAfter H f id earlier)
      (histAfter H f id (st :: earlier)) := by
  cases st with
  | rebuild ids approved pending now =>
    exact bucketStep_rebuild id _ ids approved pending now H.grace _
  | update nodes now =>
    exact bucketStep_update id (fun _ hx l => rowStep_addCheck _ now hx l) H.grace _

theorem bucketStep_daily (st : HistoryStep) (earlier : List HistoryStep) :
    BucketStep (dayRule id.text) H.retention H.grace id.text st (dailyAfter H f id earlier)
      (dailyAfter H f id (st :: earlier)) := by
  cases st with
  | rebuild ids approved pending now =>
    exact bucketStep_rebuild id _ ids approved pending now H.grace _
  | update nodes now =>
    exact bucketStep_update id (fun _ hx l => rowStep_addDay _ now hx l) H.grace _

/-- The rows that the two files have of an id survive every step, but for trimming to the window,
unless the id has been unlisted at every step over more than the grace period: each step adds one row
or counts further in the row of its day and leaves all the others alone. A step that lists the id
clears its stamp. -/
theorem history_survives (H : HistoryRules) (f : HistoryFiles) (id : NodeId) :
    HistoryKept (((f.hist.get id.text).map Bucket.retired).getD .absent) id.text
        (checkRule id.text) Eq H.window H.grace (histAfter H f id) ∧
      HistoryKept (((f.daily.get id.text).map Bucket.retired).getD .absent) id.text
        (dayRule id.text) DailyRow.Continued H.retention H.grace (dailyAfter H f id) := by
  have hnever {st : HistoryStep} {r r' : HistoryCheck} (h : (checkRule id.text).grows st r r') : r = r' :=
    h.elim
  exact ⟨history_kept hnever .trans (bucketStep_hist H f id),
    history_kept continued_of_grows .trans (bucketStep_daily H f id)⟩

end Files

end Mise.Server
