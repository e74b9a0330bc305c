import Mise.Server.Updates

set_option autoImplicit true

namespace Mise.Server.Updates

open Js

/-- What `apply-update` writes to `version.json` where it has been given a version. -/
def versionMark (version built : String) : Option Json :=
  if version = "" then none else some (.obj [("commit", .str (slice 7 version)), ("built", .str built)])

/-- The name of a commit, in full. -/
structure IsSha (s : String) : Prop where
  length : s.toList.length = 40
  hex : ∀ c ∈ s.toList, '0' ≤ c ∧ c ≤ '9' ∨ 'a' ≤ c ∧ c ≤ 'f'

/-- The commit of a release's tag. -/
def shaOf (tagSha : TagSha) (r : Json) : Option String :=
  match r.get "tag_name" with
  | .ok name => tagSha.get name
  | .error _ => none

section Marks

variable {s S C : String} {h : Host}

theorem takeUnits_take {cs : List Char} (h : ∀ c ∈ cs, units c = 1) (n : Nat) :
    takeUnits n cs = cs.take n := by
  induction cs generalizing n with
  | nil =>
    rw [List.take_nil]
    rfl
  | cons c cs ih =>
    have hc := h c List.mem_cons_self
    have hcs := ih fun d hd => h d (List.mem_cons_of_mem c hd)
    cases n with
    | zero => simp [takeUnits, hc]
    | succ n => simp [takeUnits, hc, hcs n]

theorem IsSha.units (hs : IsSha s) (hc : c ∈ s.toList) : Js.units c = 1 := by
  have hval : c.val < 0x10000 := by
    rcases hs.hex c hc with ⟨-, hle⟩ | ⟨-, hle⟩
    · exact Nat.lt_of_le_of_lt (show c.val.toNat ≤ 57 from hle) (by decide)
    · exact Nat.lt_of_le_of_lt (show c.val.toNat ≤ 102 from hle) (by decide)
  exact if_pos hval

theorem IsSha.slice (hs : IsSha s) : (slice 7 s).toList = s.toList.take 7 := by
  rw [Js.slice, String.toList_ofList, takeUnits_take fun c hc => hs.units hc]

theorem IsSha.slice_length (hs : IsSha s) : (Js.slice 7 s).toList.length = 7 := by
  rw [hs.slice, List.length_take, hs.length]
  rfl

/-- Lower case leaves the letters of a commit's name as they are. -/
structure Host.Lowers (h : Host) : Prop where
  hex : ∀ s, (∀ c ∈ s.toList, '0' ≤ c ∧ c ≤ '9' ∨ 'a' ≤ c ∧ c ≤ 'f') → h.toLowerCase s = s

theorem sameCommit_mark (hh : h.Lowers) (hC : IsSha C) (hS : IsSha S) :
    sameCommit h (some C) (slice 7 S) = true ↔ slice 7 C = slice 7 S := by
  have hne : C ≠ "" := by
    rintro rfl
    have hlength := hC.length
    cases hlength
  have hmark : h.toLowerCase (slice 7 S) = slice 7 S := by
    apply hh.hex
    intro c hc
    rw [hS.slice] at hc
    exact hS.hex c (List.mem_of_mem_take hc)
  have hlong : startsWith (slice 7 S) C = false := by
    rw [startsWith, decide_eq_false_iff_not]
    intro hprefix
    have hle := hprefix.length_le
    rw [hC.length, hS.slice_length] at hle
    exact absurd hle (by decide)
  have hsame : sameCommit h (some C) (slice 7 S) = startsWith C (slice 7 S) := by
    rw [sameCommit.eq_3 h _ C hne]
    rw [hmark, hh.hex C hC.hex, hlong, Bool.or_false]
  rw [hsame, startsWith, decide_eq_true_iff, List.prefix_iff_eq_take, hS.slice_length, ← hC.slice]
  exact ⟨fun he => (String.toList_injective he).symm, fun he => congrArg String.toList he.symm⟩

end Marks

section Reports

variable {h : Host} {S commit : String} {tags : TagSha × Option String} {version compare : Json}
  {list : List Json} {now : Int} {r : Report}

theorem runningIndex_eq {tagSha : TagSha} {index : Option Nat}
    (hindex : runningIndex h tagSha commit list = .ok index) :
    index = list.findIdx? fun r => sameCommit h (shaOf tagSha r) commit := by
  induction list generalizing index with
  | nil =>
    cases hindex
    rfl
  | cons r list ih =>
    rw [runningIndex] at hindex
    cases hname : r.get "tag_name" with
    | error e =>
      rw [hname] at hindex
      cases hindex
    | ok name =>
      have hsha : shaOf tagSha r = tagSha.get name := by
        rw [shaOf, hname]
      rw [hname] at hindex
      rw [List.findIdx?_cons, hsha]
      cases hsame : sameCommit h (tagSha.get name) commit with
      | true =>
        simp [bind, Except.bind, hsame, pure, Except.pure] at hindex
        simp [hindex]
      | false =>
        cases hrest : runningIndex h tagSha commit list with
        | error e => simp [bind, Except.bind, hsame, hrest] at hindex
        | ok rest =>
          simp [bind, Except.bind, hsame, hrest, pure, Except.pure] at hindex
          rw [← ih hrest, ← hindex]
          simp

theorem of_bind_ok {x : Except ε α} {f : α → Except ε β} (h : (x >>= f) = .ok b) :
    ∃ a, x = .ok a ∧ f a = .ok b := by
  cases x with
  | error e => cases h
  | ok a => exact ⟨a, rfl, h⟩

theorem report_ok (hr : report h version compare (.arr list) commit tags now = .ok r) :
    ∃ index, runningIndex h tags.1 commit list = .ok index ∧ r.releasesBehindApprox = index.isNone ∧
      ∀ n, index = some n → r.releasesBehind = some n := by
  rw [report] at hr
  obtain ⟨list', hlist, hr⟩ := of_bind_ok hr
  cases hlist
  obtain ⟨index, hindex, hr⟩ := of_bind_ok hr
  obtain ⟨built, -, hr⟩ := of_bind_ok hr
  obtain ⟨builtAt, -, hr⟩ := of_bind_ok hr
  refine ⟨index, hindex, ?_⟩
  -- A count is there in each of the three cases, and the rest of the report does not look at it.
  have hfields : ∃ behind, r.releasesBehindApprox = index.isNone ∧ r.releasesBehind = behind ∧
      ∀ n, index = some n → behind = some n := by
    dsimp only at hr
    split at hr
    all_goals
      obtain ⟨behind, hbehind, hr⟩ := of_bind_ok hr
      obtain ⟨aheadBy, -, hr⟩ := of_bind_ok hr
      obtain ⟨deployed, -, hr⟩ := of_bind_ok hr
      obtain ⟨since, -, hr⟩ := of_bind_ok hr
      obtain ⟨status, -, hr⟩ := of_bind_ok hr
      cases hr
      refine ⟨behind, rfl, rfl, fun n hn => ?_⟩
    · cases hbehind
      exact hn
    · cases hn
    · cases hn
  obtain ⟨behind, happrox, hbehind, hn⟩ := hfields
  exact ⟨happrox, fun n h => hbehind.trans (hn n h)⟩

/-- The check goes on from the mark that an update has left. -/
theorem versionMark_commit (hS : IsSha S) (hversion : versionMark S built = some version) :
    ∃ deployed, version.get "commit" = .ok deployed ∧ undeployed deployed = false ∧
      (deployed.getD .null).text = .ok (slice 7 S) := by
  rw [versionMark] at hversion
  split at hversion
  · cases hversion
  · cases hversion
    refine ⟨some (.str (slice 7 S)), rfl, ?_, rfl⟩
    have hlength := hS.slice_length
    have hempty : slice 7 S ≠ "" := by
      intro he
      rw [he] at hlength
      cases hlength
    have hdev : slice 7 S ≠ "dev" := by
      intro he
      rw [he] at hlength
      cases hlength
    simp [undeployed, truthy, Json.truthy, hempty, hdev]

/-- An instance that has been updated to the commit of a release is told how many releases it is
behind from the tags, and never more than there are; it is told too few only where a newer release's
commit begins with the same seven letters. -/
theorem installed_release (hh : h.Lowers) (hS : IsSha S) (hversion : versionMark S built = some version) :
    (∃ deployed, version.get "commit" = .ok deployed ∧ undeployed deployed = false ∧
      (deployed.getD .null).text = .ok (slice 7 S)) ∧
    ∀ compare list tags now r, (∀ rel ∈ list, ∀ C, shaOf tags.1 rel = some C → IsSha C) →
      report h version compare (.arr list) (slice 7 S) tags now = .ok r →
      ∀ n rel, list[n]? = some rel → shaOf tags.1 rel = some S →
        r.releasesBehindApprox = false ∧ ∃ k ≤ n, r.releasesBehind = some k ∧
          (k = n ↔ ∀ m < n, ∀ newer C, list[m]? = some newer → shaOf tags.1 newer = some C →
            slice 7 C ≠ slice 7 S) := by
  refine ⟨versionMark_commit hS hversion, ?_⟩
  intro compare list tags now r htags hr n rel hn hrel
  obtain ⟨index, hindex, happrox, hbehind⟩ := report_ok hr
  have hfirst := runningIndex_eq hindex
  have hsame : ∀ (m : Nat) newer C, list[m]? = some newer → shaOf tags.1 newer = some C →
      (sameCommit h (shaOf tags.1 newer) (slice 7 S) = true ↔ slice 7 C = slice 7 S) := by
    intro m newer C hm hC
    rw [hC]
    exact sameCommit_mark hh (htags newer (List.mem_of_getElem? hm) C hC) hS
  have hrelSame := (hsame n rel S hn hrel).2 rfl
  cases hk : index with
  | none =>
    rw [hk] at hfirst
    have hnone := List.findIdx?_eq_none_iff.1 hfirst.symm rel (List.mem_of_getElem? hn)
    rw [hrelSame] at hnone
    cases hnone
  | some k =>
    rw [hk] at hfirst happrox
    obtain ⟨hlt, hpk, hmin⟩ := List.findIdx?_eq_some_iff_getElem.1 hfirst.symm
    have hle : k ≤ n := by
      by_contra hlt'
      obtain ⟨hlen, hget⟩ := List.getElem?_eq_some_iff.1 hn
      have hnot := hmin n (by omega)
      rw [hget, hrelSame] at hnot
      exact hnot rfl
    refine ⟨happrox, k, hle, hbehind k hk, ?_⟩
    constructor
    · rintro rfl m hm newer C hnewer hC he
      obtain ⟨hlen, hget⟩ := List.getElem?_eq_some_iff.1 hnewer
      have hnot := hmin m hm
      rw [hget] at hnot
      exact hnot ((hsame m newer C hnewer hC).2 he)
    · intro hno
      by_contra hne
      cases hC : shaOf tags.1 list[k] with
      | none =>
        rw [hC] at hpk
        cases hpk
      | some C =>
        have hget : list[k]? = some list[k] := List.getElem?_eq_getElem hlt
        have he := (hsame k list[k] C hget hC).1 hpk
        exact hno k (by omega) list[k] C hget hC he

def sampleHost : Host where
  toLowerCase := id
  parseDate s := if s = "2025-01-01T00:00:00Z" then some 1735689600000 else none
  toISOString _ := "1970-01-01T00:00:00.000Z"

/-- The commit that is installed. -/
def sampleSha : String := "0a1b2c3d4e5f60718293a4b5c6d7e8f901234567"

/-- A commit whose name begins in another way, and one whose name begins alike. -/
def otherSha : String := "f9e8d7c6b5a4f3e2d1c0b9a8f7e6d5c4b3a2f1e0"
def twinSha : String := "0a1b2c3fffffffffffffffffffffffffffffffff"

/-- The installed release and a newer one. -/
def sampleReleases : List Json :=
  [.obj [("tag_name", .str "v2.0.0")], .obj [("tag_name", .str "v1.0.0")]]

def sampleMark : Json := .obj [("commit", .str "0a1b2c3"), ("built", .str "2025-01-01T00:00:00Z")]

/-- The report where the newer release has this commit. -/
def sampleReport (newer : String) : Except Throw Report :=
  report sampleHost sampleMark (.obj [("ahead_by", .num "7"), ("status", .str "ahead")])
    (.arr sampleReleases) (slice 7 sampleSha)
    ([(.str "v2.0.0", newer), (.str "v1.0.0", sampleSha)], none) 0

theorem sampleShas (hs : s ∈ [sampleSha, otherSha, twinSha]) : IsSha s := by
  have hlength : ∀ s ∈ [sampleSha, otherSha, twinSha], s.toList.length = 40 := by decide +kernel
  have hhex : ∀ s ∈ [sampleSha, otherSha, twinSha], s.toList.all fun c =>
      decide ('0' ≤ c ∧ c ≤ '9' ∨ 'a' ≤ c ∧ c ≤ 'f') := by decide +kernel
  exact ⟨hlength s hs, by simpa using hhex s hs⟩

theorem sampleReport_ok (s : String) (hs : s ∈ [sampleSha, otherSha, twinSha]) :
    ∃ r, sampleReport s = .ok r := by
  have hok : ∀ s ∈ [sampleSha, otherSha, twinSha], (sampleReport s).isOk = true := by decide +kernel
  cases hr : sampleReport s with
  | ok r => exact ⟨r, rfl⟩
  | error e =>
    have hs := hok s hs
    rw [hr] at hs
    cases hs

theorem shaOf_sampleReleases (hrel : rel ∈ sampleReleases) (hC : shaOf
    [(.str "v2.0.0", newer), (.str "v1.0.0", sampleSha)] rel = some C) : C = newer ∨ C = sampleSha := by
  obtain rfl | hrel := List.mem_cons.1 hrel
  · exact .inl (Option.some.inj hC).symm
  · cases List.mem_singleton.1 hrel
    exact .inr (Option.some.inj hC).symm

/-- One release behind, and told so unless the newer commit's name begins alike. -/
theorem installed_release_sample :
    (∃ r, sampleReport otherSha = .ok r ∧ r.releasesBehindApprox = false ∧
      r.releasesBehind = some 1) ∧
    ∃ r, sampleReport twinSha = .ok r ∧ r.releasesBehindApprox = false ∧ r.releasesBehind = some 0 := by
  have hversion : versionMark sampleSha "2025-01-01T00:00:00Z" = some sampleMark := by
    rw [versionMark, if_neg (by decide +kernel)]
    have hslice : slice 7 sampleSha = "0a1b2c3" := by decide +kernel
    rw [hslice, sampleMark]
  have hsample := (installed_release (h := sampleHost) ⟨fun _ _ => rfl⟩ (sampleShas (by simp))
    hversion).2
  have hplace : ∀ newer ∈ [sampleSha, otherSha, twinSha], ∀ r, sampleReport newer = .ok r →
      r.releasesBehindApprox = false ∧ ∃ k ≤ 1, r.releasesBehind = some k ∧
        (k = 1 ↔ slice 7 newer ≠ slice 7 sampleSha) := by
    intro newer hs r hr
    obtain ⟨happrox, k, hk, hbehind, hiff⟩ := hsample _ sampleReleases _ 0 r (by
      intro rel hrel C hC
      obtain rfl | rfl := shaOf_sampleReleases hrel hC
      · exact sampleShas hs
      · exact sampleShas (by simp)) hr 1 _ rfl rfl
    refine ⟨happrox, k, hk, hbehind, hiff.trans ⟨fun h => h 0 (by decide) _ newer rfl rfl, ?_⟩⟩
    intro hne m hm rel C hrel hC
    obtain rfl : m = 0 := by omega
    cases hrel
    cases hC
    exact hne
  obtain ⟨r, hr⟩ := sampleReport_ok otherSha (by simp)
  obtain ⟨r', hr'⟩ := sampleReport_ok twinSha (by simp)
  obtain ⟨happrox, k, hk, hbehind, hiff⟩ := hplace otherSha (by simp) r hr
  obtain ⟨happrox', k', hk', hbehind', hiff'⟩ := hplace twinSha (by simp) r' hr'
  have hother : slice 7 otherSha ≠ slice 7 sampleSha := by decide +kernel
  have htwin : slice 7 twinSha = slice 7 sampleSha := by decide +kernel
  refine ⟨⟨r, hr, happrox, ?_⟩, r', hr', happrox', ?_⟩
  · rw [hbehind, hiff.2 hother]
  · have hne : k' ≠ 1 := fun h => hiff'.1 h htwin
    obtain rfl : k' = 0 := by omega
    exact hbehind'

end Reports

end Mise.Server.Updates
