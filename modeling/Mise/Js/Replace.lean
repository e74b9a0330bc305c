import Mise.Js.Value

set_option autoImplicit true

namespace Mise.Js

abbrev Text := List Char

/-- A pattern at one place of a text: what stands for the match, and the length of the match, which
is never empty. -/
abbrev Pattern := Text → Option (Text × Nat)

/-- The first `n` characters have been matched already. -/
def replaceFrom (m : Pattern) : Nat → Text → Text
  | _, [] => []
  | n + 1, _ :: s => replaceFrom m n s
  | 0, c :: s =>
    match m (c :: s) with
    | some (new, n) => new ++ replaceFrom m (n - 1) s
    | none => c :: replaceFrom m 0 s

/-- `s.replace(m, …)` for a global pattern. -/
def replaceAll (m : Pattern) (s : Text) : Text := replaceFrom m 0 s

variable {m : Pattern} {s t new : Text}

theorem replaceFrom_eq (m : Pattern) (n : Nat) (s : Text) :
    replaceFrom m n s = replaceAll m (s.drop n) := by
  induction s generalizing n with
  | nil => rw [List.drop_nil, replaceAll, replaceFrom, replaceFrom]
  | cons c s ih =>
    cases n with
    | zero => rfl
    | succ n => rw [replaceFrom, ih, List.drop_succ_cons]

theorem replaceAll_nil : replaceAll m [] = [] := rfl

theorem replaceAll_cons (h : m (c :: s) = none) :
    replaceAll m (c :: s) = c :: replaceAll m s := by
  rw [replaceAll, replaceFrom, h]
  rfl

theorem replaceAll_match (h : m (c :: s) = some (new, n)) (hn : 0 < n) :
    replaceAll m (c :: s) = new ++ replaceAll m ((c :: s).drop n) := by
  obtain ⟨k, rfl⟩ : ∃ k, n = k + 1 := ⟨n - 1, by omega⟩
  rw [replaceAll, replaceFrom, h, List.drop_succ_cons, ← replaceFrom_eq]
  rfl

theorem replaceAll_append_match (h : m (t ++ s) = some (new, t.length)) (ht : t ≠ []) :
    replaceAll m (t ++ s) = new ++ replaceAll m s := by
  cases t with
  | nil => exact absurd rfl ht
  | cons c t =>
    rw [List.cons_append] at h ⊢
    rw [replaceAll_match h (Nat.succ_pos _), ← List.cons_append, List.drop_left]

theorem replaceAll_append (h : ∀ c ∈ t, ∀ s, m (c :: s) = none) :
    replaceAll m (t ++ s) = t ++ replaceAll m s := by
  induction t with
  | nil => rfl
  | cons c t ih =>
    have hrest := ih fun c' hc' => h c' (List.mem_cons_of_mem _ hc')
    rw [List.cons_append, replaceAll_cons (h c List.mem_cons_self _), hrest, List.cons_append]

theorem length_replaceAll_le (h : ∀ s new n, m s = some (new, n) → 0 < n ∧ new.length ≤ n)
    (hfit : ∀ s new n, m s = some (new, n) → n ≤ s.length) (s : Text) :
    (replaceAll m s).length ≤ s.length := by
  induction hl : s.length using Nat.strong_induction_on generalizing s with
  | _ l ih =>
    subst hl
    cases s with
    | nil => exact le_rfl
    | cons c s =>
      cases hm : m (c :: s) with
      | none =>
        have hs := ih s.length (by simp) s rfl
        rw [replaceAll_cons hm, List.length_cons, List.length_cons]
        omega
      | some r =>
        obtain ⟨new, n⟩ := r
        obtain ⟨hpos, hnew⟩ := h _ _ _ hm
        have hn := hfit _ _ _ hm
        have hdrop : ((c :: s).drop n).length = (c :: s).length - n := List.length_drop
        have hrest := ih _ (by omega) ((c :: s).drop n) rfl
        rw [replaceAll_match hm hpos, List.length_append]
        omega

theorem replaceAll_subset (h : ∀ s new n, m s = some (new, n) → new ⊆ s) (s : Text) :
    replaceAll m s ⊆ s := by
  suffices ∀ n s, replaceFrom m n s ⊆ s from this 0 s
  intro n s
  induction s generalizing n with
  | nil => exact fun c hc => absurd hc (by rw [replaceFrom]; exact List.not_mem_nil)
  | cons c s ih =>
    cases n with
    | succ n => exact List.Subset.trans (ih n) (List.subset_cons_self c s)
    | zero =>
      rw [replaceFrom]
      split
      · next new n hm =>
        exact List.append_subset.2 ⟨h _ _ _ hm, List.Subset.trans (ih _) (List.subset_cons_self c s)⟩
      · exact List.cons_subset_cons c (ih 0)

theorem splitOn_line {line : Text} (h : '\n' ∉ line) : line.splitOn '\n' = [line] :=
  List.splitOnP_eq_singleton fun c hc => by
    rw [beq_eq_false_iff_ne]
    rintro rfl
    exact h hc

theorem splitOn_append (u v : Text) : (u ++ '\n' :: v).splitOn '\n' = u.splitOn '\n' ++ v.splitOn '\n' :=
  List.splitOnP_append_cons u v (beq_self_eq_true '\n')

theorem alphanum_all (p : Char → Bool)
    (hall : (List.range 123).all (fun n => !(Char.ofNat n).isAlphanum || p (Char.ofNat n)) = true)
    (h : c.isAlphanum = true) : p c = true := by
  have hlt : c.toNat < 123 := by
    delta Char.isAlphanum Char.isAlpha Char.isUpper Char.isLower Char.isDigit at h
    simp only [Bool.or_eq_true, decide_eq_true_eq, Bool.and_eq_true, UInt32.le_iff_toNat_le] at h
    rw [Char.toNat]
    grind
  have hc := List.all_eq_true.1 hall c.toNat (List.mem_range.2 hlt)
  rw [Char.ofNat_toNat, h] at hc
  exact hc

/-- White space at both ends is left out. -/
def trimmed (s : Text) : Text := (trimStart (trimStart s).reverse).reverse

theorem mem_trimmed (h : c ∈ trimmed s) : c ∈ s := by
  have hstart : ∀ {l : Text}, c ∈ trimStart l → c ∈ l := fun hc => (List.dropWhile_sublist _).subset hc
  exact hstart (List.mem_reverse.1 (hstart (List.mem_reverse.1 h)))

end Mise.Js
