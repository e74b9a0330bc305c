import Mise.Server.Reliability

set_option autoImplicit true

namespace Mise.Server

/-- What a cycle has found of a node, and when. -/
structure Reading where
  now : Int
  probe : NodeProbe

namespace Reading

def minute (x : Reading) : Int := x.now / 60000

def day (x : Reading) : Int := x.now / 86400000

def check (x : Reading) : HistoryCheck := ⟨x.minute, x.probe.up, x.probe.holder⟩

end Reading

/-- The checks that the readings leave, newest first. -/
def checksAfter (window : Nat) (log : List Reading) : List HistoryCheck :=
  log.foldr (fun x => addCheck window x.minute x.probe) []

def daysAfter (retention : Nat) (log : List Reading) : List DailyRow :=
  log.foldr (fun x => addDay retention x.day x.probe) []

/-- The row says of the readings of its day how many there are, how many answered, and the last
height. -/
structure DailyRow.Counts (r : DailyRow) (log : List Reading) : Prop where
  within : r.up ≤ r.total
  total : r.total = log.countP fun x => x.day = r.d
  up : r.up = log.countP fun x => x.day = r.d ∧ x.probe.up
  close : r.close = (log.filter fun x => x.day = r.d).findSome? fun x => x.probe.height

/-- The rows have the days of the readings in order, and count them. -/
structure Tallied (days : List DailyRow) (log : List Reading) : Prop where
  dated : days.Pairwise fun r r' => r.d < r'.d
  counted : ∀ r ∈ days, r.Counts log
  observed : ∀ r ∈ days, ∃ x ∈ log, x.day = r.d
  complete : ∀ x ∈ log, ∃ r ∈ days, r.d = x.day

/-- What the two files are to say of a node after these readings, newest first. -/
structure RollUps (window retention : Nat) (log : List Reading) (checks : List HistoryCheck)
    (days : List DailyRow) : Prop where
  ordered : checks.Pairwise fun k k' => k.t ≤ k'.t
  windowed : checks.length ≤ window
  newest : checks = trimTo window (log.reverse.map Reading.check)
  dated : days.Pairwise fun r r' => r.d < r'.d
  retained : days.length ≤ retention
  counted : ∀ r ∈ days, r.Counts log
  observed : ∀ r ∈ days, ∃ x ∈ log, x.day = r.d
  latest : ∀ x ∈ log, (∃ r ∈ days, r.d = x.day) ∨
    days.length = retention ∧ ∀ r ∈ days, x.day < r.d

section Trim

variable {n : Nat} {l : List ρ}

theorem length_trimTo (n : Nat) (l : List ρ) : (trimTo n l).length = min n l.length := by
  rw [trimTo, List.length_drop]
  omega

theorem trimTo_zero (l : List ρ) : trimTo 0 l = [] := List.drop_length

theorem trimTo_nil (n : Nat) : trimTo n ([] : List ρ) = [] := List.drop_nil

theorem trimTo_trimTo {m : Nat} (hm : m ≤ n) (l : List ρ) : trimTo m (trimTo n l) = trimTo m l := by
  rw [trimTo, length_trimTo, trimTo, List.drop_drop, trimTo]
  congr 1
  omega

theorem trimTo_concat (hn : 0 < n) (l : List ρ) (r : ρ) :
    trimTo n (l ++ [r]) = trimTo (n - 1) l ++ [r] := by
  have hlength : l.length + 1 - n = l.length - (n - 1) := by omega
  rw [trimTo, List.length_append, List.length_singleton, hlength,
    List.drop_append_of_le_length (Nat.sub_le _ _)]
  rfl

/-- What is trimmed before a row is added would be trimmed after. -/
theorem trimTo_append (n : Nat) (l : List ρ) (r : ρ) :
    trimTo n (trimTo n l ++ [r]) = trimTo n (l ++ [r]) := by
  obtain rfl | hn := Nat.eq_zero_or_pos n
  · rw [trimTo_zero, trimTo_zero]
  · rw [trimTo_concat hn, trimTo_concat hn, trimTo_trimTo (Nat.sub_le _ _)]

end Trim

section Days

variable {days : List DailyRow} {log : List Reading} {x : Reading} {r : DailyRow}

theorem countDay_concat (today : Int) (p : NodeProbe) (days : List DailyRow) (rec : DailyRow) :
    countDay today p (days ++ [rec]) =
      if rec.d = today then days ++ [rec.count p]
      else days ++ [rec] ++ [DailyRow.count { d := today } p] := by
  induction days with
  | nil => rfl
  | cons r days ih =>
    have hcons : countDay today p (r :: (days ++ [rec])) = r :: countDay today p (days ++ [rec]) := by
      apply countDay.eq_3
      simp
    rw [List.cons_append, hcons, ih]
    split
    · rfl
    · rfl

/-- A day that is trimmed before the next reading would be trimmed after. -/
theorem addDay_trimTo (n : Nat) (today : Int) (p : NodeProbe) (days : List DailyRow) :
    addDay n today p (trimTo n days) = trimTo n (countDay today p days) := by
  rw [addDay]
  obtain rfl | hn := Nat.eq_zero_or_pos n
  · rw [trimTo_zero, trimTo_zero]
  · cases days using List.reverseRecOn with
    | nil => rw [trimTo_nil]
    | append_singleton days rec =>
      rw [trimTo_concat hn, countDay_concat, countDay_concat]
      split
      · rw [trimTo_concat hn, trimTo_concat hn, trimTo_trimTo (Nat.le_refl _)]
      · rw [← trimTo_concat hn, trimTo_append]

/-- The days of the readings, none of them trimmed. -/
def allDays (log : List Reading) : List DailyRow :=
  log.foldr (fun x => countDay x.day x.probe) []

theorem checksAfter_eq (window : Nat) (log : List Reading) :
    checksAfter window log = trimTo window (log.reverse.map Reading.check) := by
  induction log with
  | nil => exact (trimTo_nil window).symm
  | cons x log ih =>
    have hcons : checksAfter window (x :: log) =
      trimTo window (checksAfter window log ++ [x.check]) := rfl
    rw [hcons, ih, trimTo_append, List.reverse_cons, List.map_append]
    rfl

theorem daysAfter_eq (retention : Nat) (log : List Reading) :
    daysAfter retention log = trimTo retention (allDays log) := by
  induction log with
  | nil => exact (trimTo_nil retention).symm
  | cons x log ih =>
    have hcons : daysAfter retention (x :: log) =
      addDay retention x.day x.probe (daysAfter retention log) := rfl
    rw [hcons, ih, addDay_trimTo]
    rfl

theorem DailyRow.Counts.other (h : r.Counts log) (hx : x.day ≠ r.d) : r.Counts (x :: log) where
  within := h.within
  total := by
    rw [List.countP_cons, decide_eq_false hx, h.total]
    rfl
  up := by
    rw [List.countP_cons, decide_eq_false fun hand => hx hand.1, h.up]
    rfl
  close := by
    rw [List.filter_cons_of_neg (by simpa using hx), h.close]

theorem DailyRow.Counts.count (h : r.Counts log) (hx : r.d = x.day) :
    (r.count x.probe).Counts (x :: log) where
  within := by
    have hle := h.within
    rw [DailyRow.count]
    dsimp only
    split
    · omega
    · omega
  total := by
    have hd : (r.count x.probe).d = r.d := rfl
    rw [List.countP_cons, hd, decide_eq_true hx.symm, DailyRow.count, h.total]
    rfl
  up := by
    rw [List.countP_cons, DailyRow.count, h.up]
    cases hup : x.probe.up with
    | true => simp [hx]
    | false => simp
  close := by
    have hd : (r.count x.probe).d = x.day := hx
    rw [hd, List.filter_cons_of_pos (by simp), List.findSome?_cons, DailyRow.count, h.close, hx]
    cases x.probe.height with
    | some height => rfl
    | none => rfl

theorem counts_new {day : Int} (h : ∀ x ∈ log, x.day ≠ day) :
    DailyRow.Counts { d := day } log where
  within := Nat.le_refl _
  total := by
    symm
    rw [List.countP_eq_zero]
    intro x hx
    simpa using h x hx
  up := by
    symm
    rw [List.countP_eq_zero]
    intro x hx
    simp [h x hx]
  close := by
    have hnone : (log.filter fun x => x.day = day) = [] := by
      rw [List.filter_eq_nil_iff]
      intro x hx
      simpa using h x hx
    rw [hnone]
    rfl

theorem Reading.day_mono {x y : Reading} (h : y.now ≤ x.now) : y.day ≤ x.day :=
  Int.ediv_le_ediv (by decide) h

theorem Tallied.before (h : Tallied (days ++ [r]) log) : ∀ r' ∈ days, r'.d < r.d := by
  intro r' hr'
  exact (List.pairwise_append.1 h.dated).2.2 r' hr' r List.mem_cons_self

/-- The next reading is counted in the last row, where that is of its day. -/
theorem Tallied.again (h : Tallied (days ++ [r]) log) (hx : r.d = x.day) :
    Tallied (days ++ [r.count x.probe]) (x :: log) where
  dated := by
    have hd := h.dated
    rw [List.pairwise_append] at hd ⊢
    refine ⟨hd.1, List.pairwise_singleton _ _, ?_⟩
    intro r' hr' r'' hr''
    rw [List.mem_singleton.1 hr'']
    exact h.before r' hr'
  counted := by
    intro r' hr'
    obtain hr' | hr' := List.mem_append.1 hr'
    · apply DailyRow.Counts.other
      · exact h.counted r' (List.mem_append_left _ hr')
      · have hlt := h.before r' hr'
        omega
    · rw [List.mem_singleton.1 hr']
      exact (h.counted r (List.mem_append_right _ List.mem_cons_self)).count hx
  observed := by
    intro r' hr'
    obtain hr' | hr' := List.mem_append.1 hr'
    · obtain ⟨y, hy, hd⟩ := h.observed r' (List.mem_append_left _ hr')
      exact ⟨y, List.mem_cons_of_mem x hy, hd⟩
    · rw [List.mem_singleton.1 hr']
      exact ⟨x, List.mem_cons_self, hx.symm⟩
  complete := by
    have hlast : r.count x.probe ∈ days ++ [r.count x.probe] :=
      List.mem_append_right _ List.mem_cons_self
    intro y hy
    obtain rfl | hy := List.mem_cons.1 hy
    · exact ⟨_, hlast, hx⟩
    · obtain ⟨r', hr', hd⟩ := h.complete y hy
      obtain hr' | hr' := List.mem_append.1 hr'
      · exact ⟨r', List.mem_append_left _ hr', hd⟩
      · refine ⟨_, hlast, ?_⟩
        rw [List.mem_singleton.1 hr'] at hd
        exact hd

theorem Tallied.later (h : Tallied days log) (hx : ∀ r ∈ days, r.d < x.day) :
    Tallied (days ++ [DailyRow.count { d := x.day } x.probe]) (x :: log) where
  dated := by
    rw [List.pairwise_append]
    refine ⟨h.dated, List.pairwise_singleton _ _, ?_⟩
    intro r hr r' hr'
    rw [List.mem_singleton.1 hr']
    exact hx r hr
  counted := by
    intro r hr
    obtain hr | hr := List.mem_append.1 hr
    · apply (h.counted r hr).other
      have hlt := hx r hr
      omega
    · rw [List.mem_singleton.1 hr]
      apply DailyRow.Counts.count
      · apply counts_new
        intro y hy hday
        obtain ⟨r', hr', hd⟩ := h.complete y hy
        have hlt := hx r' hr'
        omega
      · rfl
  observed := by
    intro r hr
    obtain hr | hr := List.mem_append.1 hr
    · obtain ⟨y, hy, hd⟩ := h.observed r hr
      exact ⟨y, List.mem_cons_of_mem x hy, hd⟩
    · rw [List.mem_singleton.1 hr]
      exact ⟨x, List.mem_cons_self, rfl⟩
  complete := by
    intro y hy
    obtain rfl | hy := List.mem_cons.1 hy
    · exact ⟨_, List.mem_append_right _ List.mem_cons_self, rfl⟩
    · obtain ⟨r, hr, hd⟩ := h.complete y hy
      exact ⟨r, List.mem_append_left _ hr, hd⟩

theorem Tallied.cons (h : Tallied days log) (hx : ∀ y ∈ log, y.now ≤ x.now) :
    Tallied (countDay x.day x.probe days) (x :: log) := by
  have hle : ∀ r ∈ days, r.d ≤ x.day := by
    intro r hr
    obtain ⟨y, hy, hd⟩ := h.observed r hr
    rw [← hd]
    exact Reading.day_mono (hx y hy)
  cases days using List.reverseRecOn with
  | nil => exact h.later fun r hr => absurd hr List.not_mem_nil
  | append_singleton days r =>
    rw [countDay_concat]
    split
    · next hd => exact h.again hd
    · next hd =>
      apply h.later
      intro r' hr'
      have hlast := hle r (List.mem_append_right _ List.mem_cons_self)
      obtain hr' | hr' := List.mem_append.1 hr'
      · have hlt := h.before r' hr'
        omega
      · rw [List.mem_singleton.1 hr']
        omega

theorem tallied_allDays (h : log.Pairwise fun x y => y.now ≤ x.now) : Tallied (allDays log) log := by
  induction log with
  | nil =>
    constructor
    · exact .nil
    · exact fun r hr => absurd hr List.not_mem_nil
    · exact fun r hr => absurd hr List.not_mem_nil
    · exact fun x hx => absurd hx List.not_mem_nil
  | cons x log ih =>
    rw [List.pairwise_cons] at h
    exact (ih h.2).cons h.1

theorem Tallied.latest (h : Tallied days log) (n : Nat) (hx : x ∈ log) :
    (∃ r ∈ trimTo n days, r.d = x.day) ∨
      (trimTo n days).length = n ∧ ∀ r ∈ trimTo n days, x.day < r.d := by
  obtain ⟨r, hr, hd⟩ := h.complete x hx
  have hsplit : days.take (days.length - n) ++ trimTo n days = days :=
    List.take_append_drop _ days
  rw [← hsplit] at hr
  obtain hr | hr := List.mem_append.1 hr
  · right
    constructor
    · have hpos := List.length_pos_of_mem hr
      rw [List.length_take] at hpos
      rw [length_trimTo]
      omega
    · intro r' hr'
      have hdated := h.dated
      rw [← hsplit, List.pairwise_append] at hdated
      rw [← hd]
      exact hdated.2.2 r hr r' hr'
  · exact .inl ⟨r, hr, hd⟩

/-- The files roll up readings that come in the order of their times. -/
theorem rollUps_after (window retention : Nat) (h : log.Pairwise fun x y => y.now ≤ x.now) :
    RollUps window retention log (checksAfter window log) (daysAfter retention log) := by
  have htallied := tallied_allDays h
  have hdays := daysAfter_eq retention log
  have hsub : (daysAfter retention log).Sublist (allDays log) := by
    rw [hdays]
    exact List.drop_sublist _ _
  constructor
  · have hchecks : (log.reverse.map Reading.check).Pairwise fun k k' => k.t ≤ k'.t := by
      rw [List.pairwise_map, List.pairwise_reverse]
      exact h.imp fun hle => Int.ediv_le_ediv (by decide) hle
    rw [checksAfter_eq]
    exact hchecks.sublist (List.drop_sublist _ _)
  · rw [checksAfter_eq, length_trimTo]
    exact Nat.min_le_left _ _
  · exact checksAfter_eq window log
  · exact htallied.dated.sublist hsub
  · rw [hdays, length_trimTo]
    exact Nat.min_le_left _ _
  · exact fun r hr => htallied.counted r (hsub.subset hr)
  · exact fun r hr => htallied.observed r (hsub.subset hr)
  · intro x hx
    rw [hdays]
    exact htallied.latest retention hx

end Days

end Mise.Server
