import Mathlib.Data.List.DropRight
import Mise.Js.Path
import Mise.Server.BlockText

set_option autoImplicit true

namespace Mise.DevServer

open Js Server

/-- What stands at a path; a file may be one that cannot be read. -/
inductive Found where
  | directory
  | file (body : Option (List UInt8))

/-- `TYPES` -/
def types : List (Text × Text) :=
  [(".html".toList, "text/html; charset=utf-8".toList), (".css".toList, "text/css; charset=utf-8".toList),
    (".js".toList, "text/javascript; charset=utf-8".toList),
    (".mjs".toList, "text/javascript; charset=utf-8".toList),
    (".json".toList, "application/json; charset=utf-8".toList),
    (".webmanifest".toList, "application/manifest+json".toList),
    (".md".toList, "text/markdown; charset=utf-8".toList), (".svg".toList, "image/svg+xml".toList),
    (".png".toList, "image/png".toList), (".woff2".toList, "font/woff2".toList),
    (".ico".toList, "image/x-icon".toList), (".txt".toList, "text/plain; charset=utf-8".toList)]

/-- `path.extname`, of a path without a slash at its end. -/
def extname (path : Text) : Text :=
  let base := path.rtakeWhile (· ≠ '/')
  if base = ['.', '.'] ∨ (base.rdropWhile (· ≠ '.')).dropLast = [] then []
  else '.' :: base.rtakeWhile (· ≠ '.')

inductive Reply where
  | served (type cache : Text) (body : List UInt8)
  | forbidden
  | notFound
  | failed

/-- The decoded path of a request, with the name of the page for that of a directory. -/
def withIndex (rel : Text) : Text :=
  if rel.getLast? = some '/' then rel ++ "index.html".toList else rel

def fileOf (root rel : Text) : Text := normalize (join [root, rel])

/-- The answer to a request, for the path that is decoded from its URL, if it can be. -/
def answer (root : Text) (stat : Text → Option Found) (pathname : Option Text) : Reply :=
  match pathname with
  | none => .failed
  | some pathname =>
    let rel := withIndex pathname
    let file := fileOf root rel
    if !root.isPrefixOf file then .forbidden
    else match stat file with
      | none | some .directory => .notFound
      | some (.file none) => .failed
      | some (.file (some body)) =>
        let type := types.lookup ((extname file).map Char.toLower)
        let cache := if "/data/".toList <:+: rel then "no-store" else "no-cache"
        .served (type.getD "application/octet-stream".toList) cache.toList body

section Reach

variable {segments : List Text} {rel : Text}

/-- The segments that a path leads to from others. -/
def reach (segments : List Text) (rel : Text) : List Text :=
  ((rel.splitOn '/').foldl (addSegment false) segments.reverse).reverse

theorem withIndex_getLast (rel : Text) : (withIndex rel).getLast? ≠ some '/' := by
  rw [withIndex]
  split
  · rw [List.getLast?_append_of_ne_nil _ (by decide)]
    decide
  · next h => exact h

theorem reach_plain (h : ∀ s ∈ segments, PlainSegment s) (rel : Text) :
    ∀ s ∈ reach segments rel, PlainSegment s := by
  intro s hs
  have hreverse : ∀ s ∈ segments.reverse, PlainSegment s := fun s hs => h s (List.mem_reverse.1 hs)
  exact foldl_kept (fun s hs => not_slash_of_mem_splitOn hs) hreverse s (List.mem_reverse.1 hs)

theorem segmentsOf_below (h : ∀ s ∈ segments, PlainSegment s) (rel : Text) :
    segmentsOf false (rooted segments ++ '/' :: rel) = reach segments rel := by
  have hfirst : addSegment false [] [] = [] := rfl
  rw [segmentsOf, splitOn_slash_append, splitOn_rooted_nil fun s hs => (h s hs).no_slash,
    List.foldl_append, List.foldl_cons, hfirst,
    foldl_plain h, List.append_nil]
  rfl

theorem fileOf_eq (h : ∀ s ∈ segments, PlainSegment s) (hne : segments ≠ [])
    (hrel : rel.getLast? ≠ some '/') : fileOf (rooted segments) rel = absolute (reach segments rel) := by
  obtain ⟨s, l, hl⟩ := List.exists_cons_of_ne_nil hne
  have hhead : ∀ t : Text, (rooted segments ++ t).head? = some '/' := by
    intro t
    rw [hl]
    rfl
  have hroot : rooted segments ≠ [] := by
    rw [hl]
    exact List.cons_ne_nil _ _
  cases rel with
  | nil =>
    have hreach : reach segments [] = segments := by
      rw [reach, List.splitOn_nil]
      exact List.reverse_reverse segments
    have hfilter : [rooted segments, []].filter (· ≠ []) = [rooted segments] := by simp [hroot]
    have hjoin : join [rooted segments, []] = normalize (rooted segments) := by
      rw [join, hfilter, if_neg (List.cons_ne_nil _ _), List.intercalate_singleton]
    have habsolute : rooted segments = absolute segments := by rw [absolute, if_neg hne]
    rw [fileOf, hjoin, hreach, habsolute, normalize_rooted h, normalize_rooted h]
  | cons c rel =>
    have hfilter : [rooted segments, c :: rel].filter (· ≠ []) = [rooted segments, c :: rel] := by
      simp [hroot]
    have hjoin : join [rooted segments, c :: rel] = normalize (rooted segments ++ '/' :: c :: rel) := by
      rw [join, hfilter, if_neg (List.cons_ne_nil _ _), List.intercalate_cons_cons,
        List.intercalate_singleton, List.append_assoc]
      rfl
    have hlast : (rooted segments ++ '/' :: c :: rel).getLast? ≠ some '/' := by
      rw [List.getLast?_append_of_ne_nil _ (List.cons_ne_nil _ _),
        List.getLast?_cons_of_ne_nil (List.cons_ne_nil _ _)]
      exact hrel
    rw [fileOf, hjoin, normalize_absolute (hhead _) hlast, normalize_rooted (segmentsOf_plain _),
      segmentsOf_below h]

/-- Segments that lead to a place in a directory, or to one beside it whose name goes on after that of
the directory: a file there (where `rest` is empty), or a place in a directory there. -/
def Beside (segments t : List Text) : Prop :=
  ∃ above name more rest, segments = above ++ [name] ∧ t = above ++ (name ++ more) :: rest

theorem prefix_segment {s x : Text} {l : List Text} (hs : '/' ∉ s) (h : s <+: x ++ rooted l) : s <+: x := by
  cases l with
  | nil =>
    have hnil : x ++ rooted [] = x := List.append_nil x
    rw [hnil] at h
    exact h
  | cons y l => exact (prefix_append_stop hs).1 h

theorem rooted_prefix_iff {t : List Text} (h : ∀ s ∈ segments, PlainSegment s) (hne : segments ≠ [])
    (ht : ∀ s ∈ t, PlainSegment s) : rooted segments <+: rooted t ↔ Beside segments t := by
  constructor
  · intro hp
    induction segments generalizing t with
    | nil => exact absurd rfl hne
    | cons s l ih =>
      cases t with
      | nil => exact absurd (List.prefix_nil.1 hp) (List.cons_ne_nil _ _)
      | cons x t =>
        have hs := h s List.mem_cons_self
        have hx := ht x List.mem_cons_self
        have hp' : s ++ rooted l <+: x ++ rooted t := (List.cons_prefix_cons.1 hp).2
        obtain ⟨more, rfl⟩ := prefix_segment hs.no_slash ((List.prefix_append s _).trans hp')
        cases l with
        | nil => exact ⟨[], s, more, t, rfl, rfl⟩
        | cons s' l =>
          rw [List.append_assoc, List.prefix_append_right_inj] at hp'
          have hmore : more = [] := by
            cases more with
            | nil => rfl
            | cons d more =>
              have hd : '/' = d := (List.cons_prefix_cons.1 hp').1
              rw [← hd] at hx
              exact absurd (List.mem_append_right s List.mem_cons_self) hx.no_slash
          subst hmore
          obtain ⟨above, name, more, rest, hl, htl⟩ := ih (fun s hs => h s (List.mem_cons_of_mem _ hs))
            (List.cons_ne_nil _ _) (fun s hs => ht s (List.mem_cons_of_mem _ hs)) hp'
          rw [hl, htl, List.append_nil]
          exact ⟨s :: above, name, more, rest, rfl, rfl⟩
  · rintro ⟨above, name, more, rest, rfl, rfl⟩
    have hrooted : rooted (above ++ (name ++ more) :: rest) =
        rooted (above ++ [name]) ++ (more ++ rooted rest) := by
      simp [rooted]
    rw [hrooted]
    exact List.prefix_append _ _

end Reach

section Served

variable {segments t : List Text} {file : Text} {stat : Text → Option Found}

theorem answer_served_iff {pathname : Text} {body : List UInt8} :
    (∃ type cache, answer (rooted segments) stat (some pathname) = .served type cache body) ↔
      rooted segments <+: fileOf (rooted segments) (withIndex pathname) ∧
        stat (fileOf (rooted segments) (withIndex pathname)) = some (.file (some body)) := by
  simp only [answer]
  split
  · next h =>
    rw [Bool.not_eq_true'] at h
    constructor
    · rintro ⟨type, cache, hreply⟩
      cases hreply
    · rintro ⟨hp, -⟩
      rw [List.isPrefixOf_iff_prefix.2 hp] at h
      cases h
  · next h =>
    rw [Bool.not_eq_true', Bool.not_eq_false, List.isPrefixOf_iff_prefix] at h
    split
    · next hs => simp [hs]
    · next hs => simp [hs]
    · next hs => simp [hs]
    · next content hs => simp [hs, h, Reply.served.injEq]

/-- The way to any place, up from the root first. -/
def wayTo (segments t : List Text) : Text := rooted (List.replicate segments.length ['.', '.'] ++ t)

theorem reach_wayTo (h : ∀ s ∈ segments, PlainSegment s) (ht : ∀ s ∈ t, PlainSegment s) :
    reach segments (wayTo segments t) = t := by
  have hslash : ∀ s ∈ List.replicate segments.length ['.', '.'] ++ t, '/' ∉ s := by
    intro s hs
    rcases List.mem_append.1 hs with hs | hs
    · rw [List.eq_of_mem_replicate hs]
      decide
    · exact (ht s hs).no_slash
  have hfirst : addSegment false segments.reverse [] = segments.reverse := rfl
  have hplain : ∀ s ∈ segments.reverse, PlainSegment s := fun s hs => h s (List.mem_reverse.1 hs)
  have habove := foldl_above hplain
  rw [List.length_reverse] at habove
  rw [reach, wayTo, splitOn_rooted_nil hslash, List.foldl_cons, hfirst, List.foldl_append, habove,
    foldl_plain ht, List.append_nil, List.reverse_reverse]

/-- The files that some request is answered with are those in the root, the files beside it whose names
begin with its own, and those in the directories beside it whose names do. -/
theorem fetched_iff (h : ∀ s ∈ segments, PlainSegment s) (hne : segments ≠ []) (file : Text)
    (body : List UInt8) :
    (∃ pathname type cache, pathname.head? = some '/' ∧
      fileOf (rooted segments) (withIndex pathname) = file ∧
      answer (rooted segments) stat (some pathname) = .served type cache body) ↔
    stat file = some (.file (some body)) ∧
      ∃ t, (∀ s ∈ t, PlainSegment s) ∧ file = rooted t ∧ Beside segments t := by
  constructor
  · rintro ⟨pathname, type, cache, -, rfl, hanswer⟩
    obtain ⟨hp, hstat⟩ := answer_served_iff.1 ⟨type, cache, hanswer⟩
    refine ⟨hstat, reach segments (withIndex pathname), reach_plain h _, ?_⟩
    rw [fileOf_eq h hne (withIndex_getLast pathname)] at hp ⊢
    rw [absolute] at hp ⊢
    split at hp
    · obtain ⟨s, l, rfl⟩ := List.exists_cons_of_ne_nil hne
      have hs := List.prefix_nil.1 (List.cons_prefix_cons.1 hp).2
      exact absurd (List.append_eq_nil_iff.1 hs).1 (h s List.mem_cons_self).ne_nil
    · next hreach =>
      rw [if_neg hreach]
      exact ⟨rfl, (rooted_prefix_iff h hne (reach_plain h _)).1 hp⟩
  · rintro ⟨hstat, t, ht, rfl, hbeside⟩
    have hne' : t ≠ [] := by
      obtain ⟨above, name, more, rest, -, rfl⟩ := hbeside
      exact List.append_ne_nil_of_right_ne_nil above (List.cons_ne_nil _ _)
    have hlast : (wayTo segments t).getLast? ≠ some '/' := by
      have hrooted : rooted t ≠ [] := by
        obtain ⟨s, l, rfl⟩ := List.exists_cons_of_ne_nil hne'
        exact List.cons_ne_nil _ _
      rw [wayTo, rooted_append, List.getLast?_append_of_ne_nil _ hrooted]
      exact rooted_getLast ht
    have hindex : withIndex (wayTo segments t) = wayTo segments t := if_neg hlast
    have hfile : fileOf (rooted segments) (withIndex (wayTo segments t)) = rooted t := by
      rw [hindex, fileOf_eq h hne hlast, reach_wayTo h ht, absolute, if_neg hne']
    have hhead : (wayTo segments t).head? = some '/' := by
      obtain ⟨s, l, rfl⟩ := List.exists_cons_of_ne_nil hne
      rfl
    have hserved : ∃ type cache, answer (rooted segments) stat (some (wayTo segments t)) =
        .served type cache body := by
      rw [answer_served_iff, hfile]
      exact ⟨(rooted_prefix_iff h hne ht).2 hbeside, hstat⟩
    obtain ⟨type, cache, hanswer⟩ := hserved
    exact ⟨wayTo segments t, type, cache, hhead, hfile, hanswer⟩

/-- A file of another directory, which a slash that is written as `%2F` leads to. -/
theorem fetched_iff_sample : ∃ pathname type cache, pathname.head? = some '/' ∧
    fileOf "/var/www/mise".toList (withIndex pathname) = "/var/www/mise-keys/key".toList ∧
    answer "/var/www/mise".toList
      (fun file => if file = "/var/www/mise-keys/key".toList then some (.file (some [])) else none)
      (some pathname) = .served type cache [] := by
  have hplain : ∀ s ∈ ["var".toList, "www".toList, "mise".toList], PlainSegment s := by decide
  have ht : ∀ s ∈ ["var".toList, "www".toList, "mise-keys".toList, "key".toList], PlainSegment s := by
    decide
  refine (fetched_iff hplain (List.cons_ne_nil _ _) "/var/www/mise-keys/key".toList []).2 ⟨if_pos rfl, _, ht, rfl, ?_⟩
  exact ⟨["var".toList, "www".toList], "mise".toList, "-keys".toList, ["key".toList], rfl, rfl⟩

end Served

end Mise.DevServer
