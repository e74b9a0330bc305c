import Mise.Js.Replace

set_option autoImplicit true

namespace Mise.Js

/-! Paths with `/`, as the `path` module of Node takes them. -/

/-- What a segment does to the segments before it, which stand last first. -/
def addSegment (relative : Bool) (acc : List Text) (segment : Text) : List Text :=
  if segment = [] ∨ segment = ['.'] then acc
  else if segment = ['.', '.'] then
    match acc with
    | [] => if relative then [segment] else []
    | top :: rest => if top = segment then segment :: acc else rest
  else segment :: acc

def segmentsOf (relative : Bool) (path : Text) : List Text :=
  ((path.splitOn '/').foldl (addSegment relative) []).reverse

/-- `path.normalize` -/
def normalize (path : Text) : Text :=
  let absolute := path.head? = some '/'
  let trailing := path.getLast? = some '/'
  let text := ['/'].intercalate (segmentsOf (!absolute) path)
  if path = [] then ['.']
  else if text = [] then (if absolute then ['/'] else if trailing then ['.', '/'] else ['.'])
  else (if absolute then ['/'] else []) ++ text ++ (if trailing then ['/'] else [])

/-- `path.join` -/
def join (parts : List Text) : Text :=
  let parts := parts.filter (· ≠ [])
  if parts = [] then ['.'] else normalize (['/'].intercalate parts)

/-- Segments, each after a slash. -/
def rooted (segments : List Text) : Text := segments.flatMap ('/' :: ·)

/-- A segment that stands for itself. -/
structure PlainSegment (s : Text) : Prop where
  ne_nil : s ≠ []
  ne_here : s ≠ ['.']
  ne_above : s ≠ ['.', '.']
  no_slash : '/' ∉ s

instance (s : Text) : Decidable (PlainSegment s) :=
  decidable_of_iff (s ≠ [] ∧ s ≠ ['.'] ∧ s ≠ ['.', '.'] ∧ '/' ∉ s)
    ⟨fun h => ⟨h.1, h.2.1, h.2.2.1, h.2.2.2⟩, fun h => ⟨h.1, h.2, h.3, h.4⟩⟩

section Join

variable {path s : Text} {segments : List Text}

theorem rooted_append (l l' : List Text) : rooted (l ++ l') = rooted l ++ rooted l' :=
  List.flatMap_append

theorem slash_intercalate (s : Text) (l : List Text) :
    '/' :: ['/'].intercalate (s :: l) = rooted (s :: l) := by
  induction l generalizing s with
  | nil =>
    rw [List.intercalate_singleton, rooted, List.flatMap_singleton]
  | cons s' l ih =>
    rw [List.intercalate_cons_cons, List.append_assoc, List.singleton_append, ih]
    rfl

theorem intercalate_rooted (s : Text) (l : List Text) :
    ['/'].intercalate (s :: l) = s ++ rooted l := by
  have h := slash_intercalate s l
  exact (List.cons.inj h).2

theorem addSegment_plain (h : PlainSegment s) (relative : Bool) (acc : List Text) :
    addSegment relative acc s = s :: acc := by
  unfold addSegment
  rw [if_neg (not_or.2 ⟨h.ne_nil, h.ne_here⟩), if_neg h.ne_above]

theorem foldl_plain (h : ∀ s ∈ segments, PlainSegment s) (relative : Bool) (acc : List Text) :
    segments.foldl (addSegment relative) acc = segments.reverse ++ acc := by
  induction segments generalizing acc with
  | nil => rfl
  | cons s l ih =>
    rw [List.foldl_cons, addSegment_plain (h s List.mem_cons_self),
      ih fun s' hs' => h s' (List.mem_cons_of_mem s hs'), List.reverse_cons, List.append_assoc]
    rfl

theorem splitOn_slash_append (x y : Text) :
    (x ++ '/' :: y).splitOn '/' = x.splitOn '/' ++ y.splitOn '/' :=
  List.splitOnP_append_cons x y (beq_self_eq_true '/')

theorem splitOn_segment (h : '/' ∉ s) : s.splitOn '/' = [s] :=
  List.splitOnP_eq_singleton fun c hc => by
    rw [beq_eq_false_iff_ne]
    rintro rfl
    exact h hc

theorem splitOn_rooted (h : ∀ s ∈ segments, '/' ∉ s) (path : Text) :
    (path ++ rooted segments).splitOn '/' = path.splitOn '/' ++ segments := by
  induction segments generalizing path with
  | nil =>
    rw [rooted, List.flatMap_nil, List.append_nil, List.append_nil]
  | cons s l ih =>
    have hs := h s List.mem_cons_self
    have hrooted : rooted (s :: l) = '/' :: (s ++ rooted l) := rfl
    rw [hrooted, splitOn_slash_append, ih fun s' hs' => h s' (List.mem_cons_of_mem s hs'),
      splitOn_segment hs]
    rfl

theorem segmentsOf_rooted (h : ∀ s ∈ segments, PlainSegment s) (relative : Bool) (path : Text) :
    segmentsOf relative (path ++ rooted segments) = segmentsOf relative path ++ segments := by
  rw [segmentsOf, splitOn_rooted fun s hs => (h s hs).no_slash, List.foldl_append, foldl_plain h,
    List.reverse_append,
    List.reverse_reverse]
  rfl

/-- Segments that are joined to an absolute path follow what it comes to. -/
theorem join_absolute (hs : PlainSegment s) (h : ∀ s ∈ segments, PlainSegment s) (path : Text) :
    join (('/' :: path) :: (segments ++ [s])) =
      rooted (segmentsOf false ('/' :: path)) ++ rooted (segments ++ [s]) := by
  have hall : ∀ s' ∈ segments ++ [s], PlainSegment s' := by
    intro s' hs'
    rcases List.mem_append.1 hs' with hs' | hs'
    · exact h s' hs'
    · rw [List.mem_singleton.1 hs']
      exact hs
  have hfilter : (('/' :: path) :: (segments ++ [s])).filter (· ≠ []) =
      ('/' :: path) :: (segments ++ [s]) := by
    rw [List.filter_eq_self]
    intro s' hs'
    rcases List.mem_cons.1 hs' with rfl | hs'
    · rfl
    · exact decide_eq_true (hall s' hs').ne_nil
  have hlast : ('/' :: path ++ rooted (segments ++ [s])).getLast? ≠ some '/' := by
    have hsplit : '/' :: path ++ rooted (segments ++ [s]) =
        ('/' :: path ++ rooted segments ++ ['/']) ++ s := by
      rw [rooted_append, rooted, rooted, List.flatMap_singleton]
      simp
    rw [hsplit, List.getLast?_append_of_ne_nil _ hs.ne_nil]
    exact fun hc => hs.no_slash (List.mem_of_getLast? hc)
  have hne : segmentsOf false ('/' :: path) ++ (segments ++ [s]) ≠ [] := by simp
  have hrooted : rooted (segments ++ [s]) = rooted segments ++ '/' :: s := by
    rw [rooted_append, rooted, rooted, List.flatMap_singleton]
  rw [join, hfilter, if_neg (List.cons_ne_nil _ _), intercalate_rooted, normalize]
  have hhead : ('/' :: path ++ rooted (segments ++ [s])).head? = some '/' := rfl
  simp only [hhead, decide_true, Bool.not_true, segmentsOf_rooted hall]
  obtain ⟨t, l, hl⟩ := List.exists_cons_of_ne_nil hne
  have hroot := slash_intercalate t l
  rw [← hl, rooted_append] at hroot
  have hpath : '/' :: path ++ rooted (segments ++ [s]) ≠ [] := List.cons_ne_nil _ _
  rw [if_neg hpath, if_neg, if_pos trivial, if_neg hlast, List.append_nil]
  · exact hroot
  · intro hnil
    have hlen := congrArg List.length hroot
    have hpos := List.length_pos_of_ne_nil hs.ne_nil
    rw [hnil, hrooted, List.length_append, List.length_append, List.length_cons, List.length_cons,
      List.length_nil] at hlen
    omega

theorem mem_segmentsOf {relative : Bool} (h : s ∈ segmentsOf relative path) :
    s ∈ path.splitOn '/' := by
  have hfold : ∀ l acc : List Text, s ∈ l.foldl (addSegment relative) acc → s ∈ l ∨ s ∈ acc := by
    intro l
    induction l with
    | nil => exact fun acc hs => .inr hs
    | cons t l ih =>
      intro acc hs
      rcases ih _ hs with hs | hs
      · exact .inl (List.mem_cons_of_mem t hs)
      · unfold addSegment at hs
        split at hs
        · exact .inr hs
        · split at hs
          · split at hs
            · split at hs
              · exact .inl (List.mem_singleton.1 hs ▸ List.mem_cons_self)
              · cases hs
            · split at hs
              · rcases List.mem_cons.1 hs with rfl | hs
                · exact .inl List.mem_cons_self
                · exact .inr hs
              · exact .inr (List.mem_cons_of_mem _ hs)
          · rcases List.mem_cons.1 hs with rfl | hs
            · exact .inl List.mem_cons_self
            · exact .inr hs
  rcases hfold _ _ (List.mem_reverse.1 h) with hs | hs
  · exact hs
  · cases hs

theorem mem_rooted {c : Char} (h : c ∈ rooted segments) : c = '/' ∨ ∃ s ∈ segments, c ∈ s := by
  obtain ⟨s, hs, hc⟩ := List.mem_flatMap.1 h
  rcases List.mem_cons.1 hc with rfl | hc
  · exact .inl rfl
  · exact .inr ⟨s, hs, hc⟩

theorem mem_of_mem_splitOn {c : Char} (hs : s ∈ path.splitOn '/') (hc : c ∈ s) : c ∈ path := by
  have hpath : ['/'].intercalate (path.splitOn '/') = path := List.intercalate_splitOn '/'
  obtain ⟨t, l, hl⟩ := List.exists_cons_of_ne_nil (List.splitOn_ne_nil '/' path)
  rw [hl, intercalate_rooted] at hpath
  rw [hl] at hs
  rw [← hpath, List.mem_append]
  rcases List.mem_cons.1 hs with rfl | hs
  · exact .inl hc
  · exact .inr (List.mem_flatMap.2 ⟨s, hs, List.mem_cons_of_mem _ hc⟩)

theorem mem_rooted_segmentsOf {relative : Bool} {c : Char}
    (h : c ∈ rooted (segmentsOf relative path)) : c = '/' ∨ c ∈ path := by
  rcases mem_rooted h with hc | ⟨s, hs, hc⟩
  · exact .inl hc
  · exact .inr (mem_of_mem_splitOn (mem_segmentsOf hs) hc)

theorem addSegment_kept {acc : List Text} (hacc : ∀ s ∈ acc, PlainSegment s) (hs : '/' ∉ s) :
    ∀ t ∈ addSegment false acc s, PlainSegment t := by
  unfold addSegment
  split
  · exact hacc
  · next hplain =>
    split
    · cases acc with
      | nil => exact fun t ht => absurd ht List.not_mem_nil
      | cons top rest =>
        dsimp only
        split
        · next htop habove =>
          rw [htop] at habove
          exact absurd habove (hacc top List.mem_cons_self).ne_above
        · exact fun t ht => hacc t (List.mem_cons_of_mem top ht)
    · next habove =>
      intro t ht
      rcases List.mem_cons.1 ht with rfl | ht
      · exact ⟨fun h => hplain (.inl h), fun h => hplain (.inr h), habove, hs⟩
      · exact hacc t ht

theorem foldl_kept {l acc : List Text} (hl : ∀ s ∈ l, '/' ∉ s) (hacc : ∀ s ∈ acc, PlainSegment s) :
    ∀ s ∈ l.foldl (addSegment false) acc, PlainSegment s := by
  induction l generalizing acc with
  | nil => exact hacc
  | cons s l ih =>
    apply ih fun t ht => hl t (List.mem_cons_of_mem s ht)
    exact addSegment_kept hacc (hl s List.mem_cons_self)

theorem not_slash_of_mem_splitOn (hs : s ∈ path.splitOn '/') : '/' ∉ s := by
  induction path generalizing s with
  | nil =>
    rw [List.splitOn_nil, List.mem_singleton] at hs
    rw [hs]
    exact List.not_mem_nil
  | cons c path ih =>
    rw [List.splitOn_eq_splitOnP, List.splitOnP_cons_eq_if_modifyHead] at hs
    split at hs
    · rcases List.mem_cons.1 hs with rfl | hs
      · exact List.not_mem_nil
      · exact ih hs
    · next hc =>
      obtain ⟨t, l, hl⟩ := List.exists_cons_of_ne_nil (List.splitOnP_ne_nil (· == '/') path)
      rw [hl, List.modifyHead_cons] at hs
      rw [List.splitOn_eq_splitOnP, hl] at ih
      rcases List.mem_cons.1 hs with rfl | hs
      · intro hm
        rcases List.mem_cons.1 hm with rfl | hm
        · exact hc rfl
        · exact ih List.mem_cons_self hm
      · exact ih (List.mem_cons_of_mem t hs)

theorem foldl_above {acc : List Text} (h : ∀ s ∈ acc, PlainSegment s) :
    (List.replicate acc.length ['.', '.']).foldl (addSegment false) acc = [] := by
  induction acc with
  | nil => rfl
  | cons top rest ih =>
    have hstep : addSegment false (top :: rest) ['.', '.'] = rest := if_neg (h top List.mem_cons_self).ne_above
    rw [List.length_cons, List.replicate_succ, List.foldl_cons, hstep]
    exact ih fun s hs => h s (List.mem_cons_of_mem top hs)

theorem segmentsOf_plain (path : Text) : ∀ s ∈ segmentsOf false path, PlainSegment s := by
  intro s hs
  have hnone : ∀ s ∈ ([] : List Text), PlainSegment s := fun _ hs => absurd hs List.not_mem_nil
  exact foldl_kept (fun s hs => not_slash_of_mem_splitOn hs) hnone s (List.mem_reverse.1 hs)

/-- A path from the root, of its segments. -/
def absolute (segments : List Text) : Text := if segments = [] then ['/'] else rooted segments

theorem intercalate_ne_nil (h : ∀ s ∈ segments, PlainSegment s) (hne : segments ≠ []) :
    ['/'].intercalate segments ≠ [] := by
  obtain ⟨s, l, rfl⟩ := List.exists_cons_of_ne_nil hne
  rw [intercalate_rooted]
  exact List.append_ne_nil_of_left_ne_nil (h s List.mem_cons_self).ne_nil _

theorem normalize_absolute (hhead : path.head? = some '/') (hlast : path.getLast? ≠ some '/') :
    normalize path = absolute (segmentsOf false path) := by
  have hne : path ≠ [] := by
    rintro rfl
    cases hhead
  rw [normalize, if_neg hne, absolute]
  simp only [hhead, hlast, decide_true, Bool.not_true]
  by_cases hs : segmentsOf false path = []
  · rw [hs]
    rfl
  · rw [if_neg hs, if_neg (intercalate_ne_nil (segmentsOf_plain path) hs)]
    obtain ⟨s, l, hl⟩ := List.exists_cons_of_ne_nil hs
    rw [hl, ← slash_intercalate]
    exact List.append_nil _

theorem splitOn_rooted_nil (h : ∀ s ∈ segments, '/' ∉ s) :
    (rooted segments).splitOn '/' = [] :: segments := splitOn_rooted h []

theorem segmentsOf_self (h : ∀ s ∈ segments, PlainSegment s) :
    segmentsOf false (rooted segments) = segments := segmentsOf_rooted h false []

theorem rooted_getLast (h : ∀ s ∈ segments, PlainSegment s) :
    (rooted segments).getLast? ≠ some '/' := by
  cases segments using List.reverseRecOn with
  | nil => decide
  | append_singleton l s =>
    have hs := h s (List.mem_append_right l List.mem_cons_self)
    rw [rooted_append, rooted, rooted, List.flatMap_singleton,
      List.getLast?_append_of_ne_nil _ (List.cons_ne_nil _ _), List.getLast?_cons_of_ne_nil hs.ne_nil]
    exact fun hc => hs.no_slash (List.mem_of_getLast? hc)

theorem normalize_rooted (h : ∀ s ∈ segments, PlainSegment s) :
    normalize (absolute segments) = absolute segments := by
  rw [absolute]
  split
  · decide
  · next hne =>
    have hhead : (rooted segments).head? = some '/' := by
      obtain ⟨s, l, rfl⟩ := List.exists_cons_of_ne_nil hne
      rfl
    rw [normalize_absolute hhead (rooted_getLast h), segmentsOf_self h, absolute, if_neg hne]

example : join ["/srv//./a/../b/".toList, "server".toList] = "/srv/b/server".toList := by
  decide +kernel

end Join

end Mise.Js
