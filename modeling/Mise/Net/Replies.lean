import Mathlib.Data.List.Induction
import Mise.Net.Serve

set_option autoImplicit true

namespace Mise.Net
open Js

/-- The text that an event adds. -/
def Event.added : Event → Text
  | .data chunk => Utf8.decode chunk
  | .answer _ _ => []

/-- The text ends with a line, if it is not empty. -/
def Ended (u : Text) : Prop := u = [] ∨ ∃ v, u = v ++ ['\n']

theorem requests_ended {u : Text} (h : Ended u) (v : Text) :
    requests (u ++ v) = requests u ++ requests v := by
  obtain rfl | ⟨w, rfl⟩ := h
  · rfl
  · rw [List.append_assoc, List.singleton_append, requests_append]

namespace Conn

/-- What holds of a connection that is not destroyed, after it has received the text: the requests are
those of the text up to the buffer, and each has one reply or waits for it. -/
structure Sound (text : Text) (c : Conn) : Prop where
  alive : c.destroyed = false
  perm : (c.written.map Prod.fst ++ c.waiting).Perm (List.range c.read.length)
  sorted : c.waiting.Pairwise (· < ·)
  taken : ∃ u, text = u ++ c.buf ∧ Ended u ∧ c.read = requests u

/-- The replies so far answer the requests in their order. -/
def InOrder (c : Conn) : Prop := c.written.map Prod.fst = List.range c.written.length

theorem reply_alive {c : Conn} (h : c.destroyed = false) (k : Nat) (out : Text) :
    c.reply k out = { c with written := c.written ++ [(k, out)] } := by
  rw [reply, h]
  exact if_neg Bool.false_ne_true

section Sound

variable {text line rest out : Text} {c : Conn}

theorem Sound.waiting_lt (h : Sound text c) : ∀ k ∈ c.waiting, k < c.read.length := by
  intro k hk
  exact List.mem_range.1 (h.perm.subset (List.mem_append_right _ hk))

theorem Sound.take (h : Sound text c) (hl : takeLine c.buf = some (line, rest)) :
    ∃ u, text = u ++ rest ∧ Ended u ∧ requests u = c.read ++ if trimmed line = [] then [] else [line] := by
  obtain ⟨u, htext, hended, hread⟩ := h.taken
  obtain ⟨hbuf, hline⟩ := takeLine_some hl
  refine ⟨u ++ (line ++ ['\n']), ?_, .inr ⟨u ++ line, ?_⟩, ?_⟩
  · rw [htext, hbuf]
    simp
  · simp
  · rw [requests_ended hended, requests_line hline, hread]

theorem Sound.blank (h : Sound text c) (hl : takeLine c.buf = some (line, rest))
    (hb : trimmed line = []) : Sound text { c with buf := rest } := by
  obtain ⟨u, htext, hended, hread⟩ := h.take hl
  rw [if_pos hb, List.append_nil] at hread
  exact ⟨h.alive, h.perm, h.sorted, u, htext, hended, hread.symm⟩

theorem range_succ_perm {l : List Nat} {n : Nat} (h : l.Perm (List.range n)) :
    (l ++ [n]).Perm (List.range (n + 1)) := by
  rw [List.range_succ]
  exact h.append_right [n]

theorem Sound.call (h : Sound text c) (hl : takeLine c.buf = some (line, rest))
    (hb : trimmed line ≠ []) : Sound text
      { c with buf := rest, read := c.read ++ [line], waiting := c.waiting ++ [c.read.length] } := by
  obtain ⟨u, htext, hended, hread⟩ := h.take hl
  rw [if_neg hb] at hread
  refine ⟨h.alive, ?_, ?_, u, htext, hended, hread.symm⟩
  · rw [List.length_append, List.length_singleton, ← List.append_assoc]
    exact range_succ_perm h.perm
  · apply List.pairwise_append.2
    refine ⟨h.sorted, List.pairwise_singleton _ _, ?_⟩
    intro k hk n hn
    rw [List.mem_singleton.1 hn]
    exact h.waiting_lt k hk

theorem Sound.error (h : Sound text c) (hl : takeLine c.buf = some (line, rest))
    (hb : trimmed line ≠ []) : Sound text
      ({ c with buf := rest, read := c.read ++ [line] }.reply c.read.length o) := by
  obtain ⟨u, htext, hended, hread⟩ := h.take hl
  rw [if_neg hb] at hread
  rw [reply_alive (c := { c with buf := rest, read := c.read ++ [line] }) h.alive]
  refine ⟨h.alive, ?_, h.sorted, u, htext, hended, hread.symm⟩
  rw [List.length_append, List.length_singleton, List.map_append, List.append_assoc]
  apply List.Perm.trans _ (range_succ_perm h.perm)
  rw [List.append_assoc]
  exact List.perm_append_comm.append_left _

theorem Sound.answer {k : Nat} (h : Sound text c) (hk : k ∈ c.waiting) :
    Sound text ({ c with waiting := c.waiting.erase k }.reply k o) := by
  rw [reply_alive (c := { c with waiting := c.waiting.erase k }) h.alive]
  refine ⟨h.alive, ?_, h.sorted.sublist List.erase_sublist, h.taken⟩
  rw [List.map_append, List.append_assoc]
  apply List.Perm.trans _ h.perm
  exact (List.perm_cons_erase hk).symm.append_left _

theorem Sound.data (h : Sound text c) (more : Text) :
    Sound (text ++ more) { c with buf := c.buf ++ more } := by
  obtain ⟨u, htext, hended, hread⟩ := h.taken
  exact ⟨h.alive, h.perm, h.sorted, u, by rw [htext, List.append_assoc], hended, hread⟩

end Sound

section Lines

variable (numberText : String → String) (syntaxError : Text → Text) {text : Text} {c : Conn}

theorem lines_keeps {P : Conn → Prop}
    (hblank : ∀ c line rest, P c → takeLine c.buf = some (line, rest) → trimmed line = [] →
      P { c with buf := rest })
    (hcall : ∀ c line rest, P c → takeLine c.buf = some (line, rest) → trimmed line ≠ [] →
      P { c with buf := rest, read := c.read ++ [line], waiting := c.waiting ++ [c.read.length] })
    (herror : ∀ c line rest, P c → takeLine c.buf = some (line, rest) → trimmed line ≠ [] →
      P ({ c with buf := rest, read := c.read ++ [line] }.reply c.read.length (syntaxError line)))
    (n : Nat) (h : P c) : P (c.lines numberText syntaxError n) := by
  induction n generalizing c with
  | zero => exact h
  | succ n ih =>
    rw [lines]
    cases hl : takeLine c.buf with
    | none => exact h
    | some x =>
      obtain ⟨line, rest⟩ := x
      dsimp only
      split
      · next hb => exact ih (hblank c line rest h hl hb)
      · next hb =>
        split
        · exact hcall c line rest h hl hb
        · exact ih (herror c line rest h hl hb)

theorem Sound.lines (h : Sound text c) (n : Nat) : Sound text (c.lines numberText syntaxError n) :=
  lines_keeps numberText syntaxError (fun _ _ _ h hl hb => h.blank hl hb)
    (fun _ _ _ h hl hb => h.call hl hb) (fun _ _ _ h hl hb => h.error hl hb) n h

/-- An activation that does not await the handler leaves no line in the buffer. -/
theorem lines_idle (n : Nat) (hn : c.buf.length < n)
    (h : (c.lines numberText syntaxError n).waiting = []) :
    '\n' ∉ (c.lines numberText syntaxError n).buf := by
  induction n generalizing c with
  | zero => exact absurd hn (Nat.not_lt_zero _)
  | succ n ih =>
    rw [Conn.lines] at h ⊢
    cases hl : takeLine c.buf with
    | none => exact takeLine_none hl
    | some x =>
      obtain ⟨line, rest⟩ := x
      have hlen := congrArg List.length (takeLine_some hl).1
      rw [List.length_append, List.length_cons] at hlen
      rw [hl] at h
      dsimp only at h ⊢
      split at h
      · next hb =>
        rw [if_pos hb]
        exact ih (by dsimp only; omega) h
      · next hb =>
        rw [if_neg hb]
        split at h
        · exact absurd h (by simp)
        · next hp =>
          rw [if_neg hp]
          refine ih ?_ h
          have hbuf : ({ c with buf := rest, read := c.read ++ [line] }.reply c.read.length
              (syntaxError line)).buf = rest := by
            rw [reply]
            split <;> rfl
          rw [hbuf]
          omega

theorem Sound.activation (h : Sound text c) : Sound text (c.activation numberText syntaxError) :=
  h.lines numberText syntaxError _

theorem activation_idle (h : (c.activation numberText syntaxError).waiting = []) :
    '\n' ∉ (c.activation numberText syntaxError).buf :=
  lines_idle numberText syntaxError _ (Nat.lt_succ_self _) h

end Lines

section Order

variable (numberText : String → String) (syntaxError : Text → Text) {text : Text} {c : Conn}

/-- The next request in the buffer, if there is one, is for the handler. -/
def AwaitsNext (buf : Text) : Prop := ∀ line ∈ (requests buf).head?, parses numberText line = true

/-- Nothing is written while an earlier request waits: an answer comes for the request that waits
longest, and where requests wait, the activation does not come to a line that is no JSON first. -/
def Timely (c : Conn) : Event → Prop
  | .data chunk => c.waiting = [] ∨ AwaitsNext numberText (c.buf ++ Utf8.decode chunk)
  | .answer k _ => k ∈ c.waiting →
      (∀ j ∈ c.waiting, k ≤ j) ∧ (c.waiting = [k] ∨ AwaitsNext numberText c.buf)

theorem InOrder.of_prefix {l : List (Nat × Text)} {c' : Conn} (h : InOrder c')
    (hl : c'.written = c.written ++ l) : InOrder c := by
  rw [InOrder, hl, List.map_append, List.length_append] at h
  have htake := congrArg (List.take c.written.length) h
  rw [List.take_left' (List.length_map _), List.take_range, Nat.min_eq_left (Nat.le_add_right _ _)]
    at htake
  exact htake

theorem inOrder_reply {out : Text} (h : InOrder c) (halive : c.destroyed = false) :
    InOrder (c.reply k out) ↔ k = c.written.length := by
  rw [reply_alive halive, InOrder, List.map_append, List.length_append, h, List.length_singleton,
    List.range_succ]
  simp

theorem reply_written (c : Conn) (k : Nat) (out : Text) :
    ∃ l, (c.reply k out).written = c.written ++ l := by
  rw [reply]
  split
  · exact ⟨[], (List.append_nil _).symm⟩
  · exact ⟨[(k, out)], rfl⟩

theorem lines_written (n : Nat) : ∃ l, (c.lines numberText syntaxError n).written = c.written ++ l := by
  apply lines_keeps (P := fun c' => ∃ l, c'.written = c.written ++ l)
  · exact fun _ _ _ h _ _ => h
  · exact fun _ _ _ h _ _ => h
  · rintro c' line rest ⟨l, hl⟩ - -
    obtain ⟨l', hl'⟩ := reply_written { c' with buf := rest, read := c'.read ++ [line] } c'.read.length
      (syntaxError line)
    exact ⟨l ++ l', by rw [hl', ← List.append_assoc, ← hl]⟩
  · exact ⟨[], (List.append_nil _).symm⟩

theorem takeLine_requests {buf line rest : Text} (hl : takeLine buf = some (line, rest)) :
    requests buf = (if trimmed line = [] then [] else [line]) ++ requests rest := by
  obtain ⟨hbuf, hline⟩ := takeLine_some hl
  rw [hbuf, requests_append, requests_line hline]

theorem Sound.length (h : Sound text c) : c.written.length + c.waiting.length = c.read.length := by
  have hlen := h.perm.length_eq
  rwa [List.length_append, List.length_map, List.length_range] at hlen

/-- While replies are in order, the requests that wait are those after the last one answered. -/
theorem Sound.mem_waiting (h : Sound text c) (ho : InOrder c) :
    j ∈ c.waiting ↔ c.written.length ≤ j ∧ j < c.read.length := by
  have hperm := h.perm
  rw [ho] at hperm
  constructor
  · intro hj
    have hnodup := hperm.nodup_iff.2 List.nodup_range
    refine ⟨?_, h.waiting_lt j hj⟩
    by_contra hlt
    exact (List.nodup_append.1 hnodup).2.2 j (List.mem_range.2 (Nat.lt_of_not_le hlt)) j hj rfl
  · rintro ⟨hle, hlt⟩
    obtain hj | hj := List.mem_append.1 (hperm.mem_iff.2 (List.mem_range.2 hlt))
    · exact absurd (List.mem_range.1 hj) (Nat.not_lt_of_le hle)
    · exact hj

/-- A loop keeps the order exactly if no request waits or it awaits the handler first. -/
theorem lines_inOrder (n : Nat) (h : Sound text c) (ho : InOrder c) (hn : c.buf.length < n) :
    InOrder (c.lines numberText syntaxError n) ↔
      c.waiting = [] ∨ AwaitsNext numberText c.buf := by
  induction n generalizing c with
  | zero => exact absurd hn (Nat.not_lt_zero _)
  | succ n ih =>
    rw [Conn.lines]
    cases hl : takeLine c.buf with
    | none =>
      have hnone : AwaitsNext numberText c.buf := by
        rw [AwaitsNext, requests_of_not_mem (takeLine_none hl)]
        exact fun line hline => absurd hline (by simp)
      exact ⟨fun _ => .inr hnone, fun _ => ho⟩
    | some x =>
      obtain ⟨line, rest⟩ := x
      have hlen := congrArg List.length (takeLine_some hl).1
      rw [List.length_append, List.length_cons] at hlen
      have hrequests := takeLine_requests hl
      dsimp only
      split
      · next hb =>
        rw [if_pos hb, List.nil_append] at hrequests
        have hrest := ih (h.blank hl hb) ho (by dsimp only; omega)
        rw [hrest, AwaitsNext, AwaitsNext, hrequests]
      · next hb =>
        rw [if_neg hb, List.singleton_append] at hrequests
        split
        · next hp =>
          have hnext : AwaitsNext numberText c.buf := by
            rw [AwaitsNext, hrequests]
            rintro l ⟨⟩
            exact hp
          exact ⟨fun _ => .inr hnext, fun _ => ho⟩
        · next hp =>
          -- The error is the reply to the request just read, which is in order if none waits.
          have hsound := h.error (o := syntaxError line) hl hb
          have hreply : InOrder ({ c with buf := rest, read := c.read ++ [line] }.reply c.read.length
              (syntaxError line)) ↔ c.read.length = c.written.length := inOrder_reply ho h.alive
          have hlength := h.length
          by_cases hw : c.waiting = []
          · rw [hw, List.length_nil, Nat.add_zero] at hlength
            have hrest := ih hsound (hreply.2 hlength.symm) (by
              rw [reply_alive (c := { c with buf := rest, read := c.read ++ [line] }) h.alive]
              dsimp only
              omega)
            refine ⟨fun _ => .inl hw, fun _ => hrest.2 (.inl ?_)⟩
            rw [reply_alive (c := { c with buf := rest, read := c.read ++ [line] }) h.alive]
            exact hw
          · have hpos := List.length_pos_of_ne_nil hw
            constructor
            · intro hin
              obtain ⟨l, hwritten⟩ := lines_written numberText syntaxError n
              have hk := hreply.1 (hin.of_prefix hwritten)
              omega
            · rintro (hw' | hnext)
              · exact absurd hw' hw
              · rw [AwaitsNext, hrequests] at hnext
                exact absurd (hnext line rfl) hp

theorem Sound.least (h : Sound text c) (ho : InOrder c) (hk : k ∈ c.waiting) :
    k = c.written.length ↔ ∀ j ∈ c.waiting, k ≤ j := by
  have hmem := (h.mem_waiting ho).1 hk
  constructor
  · rintro rfl j hj
    exact ((h.mem_waiting ho).1 hj).1
  · intro hle
    have hfirst := hle _ ((h.mem_waiting ho).2 ⟨le_rfl, Nat.lt_of_le_of_lt hmem.1 hmem.2⟩)
    exact Nat.le_antisymm hfirst hmem.1

theorem erase_eq_nil {l : List Nat} (h : k ∈ l) : l.erase k = [] ↔ l = [k] := by
  constructor
  · intro he
    have hperm := List.perm_cons_erase h
    rw [he] at hperm
    exact List.perm_singleton.1 hperm
  · rintro rfl
    simp

theorem lines_destroyed (n : Nat) : (c.lines numberText syntaxError n).destroyed = c.destroyed := by
  apply lines_keeps (P := fun c' => c'.destroyed = c.destroyed)
  · exact fun _ _ _ h _ _ => h
  · exact fun _ _ _ h _ _ => h
  · intro c' line rest h _ _
    rw [reply]
    split <;> exact h
  · rfl

theorem step_data {piece : List UInt8}
    (h : (c.step numberText syntaxError (.data piece)).destroyed = false) :
    c.destroyed = false ∧ c.step numberText syntaxError (.data piece) =
      { c with buf := c.buf ++ Utf8.decode piece }.activation numberText syntaxError := by
  rw [step] at h ⊢
  split at h
  · next hd => rw [hd] at h; exact absurd h (by decide)
  · next hd =>
    rw [if_neg hd]
    dsimp only at h ⊢
    split at h
    · exact absurd h (by simp)
    · next hcap =>
      rw [if_neg hcap]
      exact ⟨by simpa using hd, rfl⟩

theorem step_alive (event : Event) (h : (c.step numberText syntaxError event).destroyed = false) :
    c.destroyed = false := by
  cases event with
  | data chunk => exact (step_data numberText syntaxError h).1
  | answer k out =>
    rw [step] at h
    split at h
    · rw [activation, lines_destroyed, reply] at h
      split at h
      · exact h
      · exact h
    · exact h

theorem Sound.step (h : Sound text c) (event : Event)
    (halive : (c.step numberText syntaxError event).destroyed = false) :
    Sound (text ++ event.added) (c.step numberText syntaxError event) := by
  cases event with
  | data chunk =>
    rw [(step_data numberText syntaxError halive).2]
    exact (h.data _).activation numberText syntaxError
  | answer k out =>
    rw [Event.added, List.append_nil, Conn.step]
    split
    · next hk => exact (h.answer hk).activation numberText syntaxError
    · exact h

theorem step_written (event : Event) :
    ∃ l, (c.step numberText syntaxError event).written = c.written ++ l := by
  cases event with
  | data chunk =>
    rw [step]
    split
    · exact ⟨[], (List.append_nil _).symm⟩
    · dsimp only
      split
      · exact ⟨[], (List.append_nil _).symm⟩
      · exact lines_written numberText syntaxError _
  | answer k out =>
    rw [step]
    split
    · obtain ⟨l, hl⟩ := reply_written { c with waiting := c.waiting.erase k } k out
      obtain ⟨l', hl'⟩ := lines_written (c := { c with waiting := c.waiting.erase k }.reply k out)
        numberText syntaxError _
      exact ⟨l ++ l', by rw [activation, hl', hl, List.append_assoc]⟩
    · exact ⟨[], (List.append_nil _).symm⟩

theorem step_inOrder (h : Sound text c) (ho : InOrder c) (event : Event)
    (halive : (c.step numberText syntaxError event).destroyed = false) :
    InOrder (c.step numberText syntaxError event) ↔ Timely numberText c event := by
  cases event with
  | data chunk =>
    rw [(step_data numberText syntaxError halive).2]
    exact lines_inOrder numberText syntaxError _ (h.data _) ho (Nat.lt_succ_self _)
  | answer k out =>
    rw [step, Timely]
    by_cases hk : k ∈ c.waiting
    · rw [if_pos hk, forall_prop_of_true hk, ← h.least ho hk]
      have hsound := h.answer (o := out) hk
      have hreply : InOrder ({ c with waiting := c.waiting.erase k }.reply k out) ↔
          k = c.written.length := inOrder_reply ho h.alive
      constructor
      · intro hin
        obtain ⟨l, hwritten⟩ := lines_written numberText syntaxError _
        have hfirst := hin.of_prefix hwritten
        have hnext := (lines_inOrder numberText syntaxError _ hsound hfirst (Nat.lt_succ_self _)).1 hin
        rw [reply_alive (c := { c with waiting := c.waiting.erase k }) h.alive] at hnext
        exact ⟨hreply.1 hfirst, hnext.imp_left (erase_eq_nil hk).1⟩
      · rintro ⟨hfirst, hnext⟩
        apply (lines_inOrder numberText syntaxError _ hsound (hreply.2 hfirst) (Nat.lt_succ_self _)).2
        rw [reply_alive (c := { c with waiting := c.waiting.erase k }) h.alive]
        exact hnext.imp_left (erase_eq_nil hk).2
    · rw [if_neg hk]
      exact ⟨fun _ hk' => absurd hk' hk, fun _ => ho⟩

theorem step_idle (event : Event) (h : c.waiting = [] → '\n' ∉ c.buf)
    (halive : (c.step numberText syntaxError event).destroyed = false)
    (hw : (c.step numberText syntaxError event).waiting = []) :
    '\n' ∉ (c.step numberText syntaxError event).buf := by
  cases event with
  | data chunk =>
    rw [(step_data numberText syntaxError halive).2] at hw ⊢
    exact activation_idle numberText syntaxError hw
  | answer k out =>
    rw [step] at hw ⊢
    split at hw
    · next hk =>
      rw [if_pos hk]
      exact activation_idle numberText syntaxError hw
    · next hk =>
      rw [if_neg hk]
      exact h hw

theorem lines_waiting (n : Nat) (h : c.waiting = []) :
    (c.lines numberText syntaxError n).waiting.length ≤ 1 := by
  induction n generalizing c with
  | zero =>
    rw [lines, h]
    exact Nat.zero_le _
  | succ n ih =>
    rw [lines]
    cases takeLine c.buf with
    | none =>
      dsimp only
      rw [h]
      exact Nat.zero_le _
    | some x =>
      dsimp only
      split
      · exact ih h
      · split
        · simp [h]
        · apply ih
          rw [reply]
          split <;> exact h

end Order

section Runs

variable (numberText : String → String) (syntaxError : Text → Text)

def heard (events : List Event) : Text := events.flatMap Event.added

/-- Every event of the run meets a condition in the state that it finds. -/
def Throughout (P : Conn → Event → Prop) (events : List Event) : Prop :=
  ∀ before event after, events = before ++ event :: after →
    P (run numberText syntaxError before) event

/-- A chunk comes only while no request waits. -/
def Alone (c : Conn) : Event → Prop
  | .data _ => c.waiting = []
  | .answer _ _ => True

variable {events : List Event}

theorem run_concat (events : List Event) (event : Event) :
    run numberText syntaxError (events ++ [event]) =
      (run numberText syntaxError events).step numberText syntaxError event :=
  List.foldl_concat _ _ _ _

theorem throughout_concat {P : Conn → Event → Prop} {event : Event} :
    Throughout numberText syntaxError P (events ++ [event]) ↔
      Throughout numberText syntaxError P events ∧ P (run numberText syntaxError events) event := by
  constructor
  · intro h
    refine ⟨fun before e after he => h before e (after ++ [event]) ?_, h events event [] rfl⟩
    rw [he, List.append_assoc, List.cons_append]
  · rintro ⟨h, hlast⟩ before e after he
    cases after using List.reverseRecOn with
    | nil =>
      obtain ⟨rfl, hevent⟩ := List.append_inj' he rfl
      obtain rfl := (List.cons.inj hevent).1
      exact hlast
    | append_singleton after last _ =>
      rw [← List.cons_append, ← List.append_assoc] at he
      exact h before e after (List.append_inj' he rfl).1

theorem run_sound (events : List Event)
    (halive : (run numberText syntaxError events).destroyed = false) :
    Sound (heard events) (run numberText syntaxError events) ∧
      ((run numberText syntaxError events).waiting = [] →
        '\n' ∉ (run numberText syntaxError events).buf) ∧
      (InOrder (run numberText syntaxError events) ↔
        Throughout numberText syntaxError (Timely numberText) events) := by
  induction events using List.reverseRecOn with
  | nil =>
    refine ⟨⟨rfl, .refl _, List.Pairwise.nil, [], rfl, .inl rfl, rfl⟩, fun _ => List.not_mem_nil, ?_⟩
    exact ⟨fun _ before event after h => absurd h (by simp), fun _ => rfl⟩
  | append_singleton events event ih =>
    rw [run_concat] at halive ⊢
    obtain ⟨hsound, hidle, horder⟩ := ih (step_alive numberText syntaxError event halive)
    refine ⟨?_, fun hw => step_idle numberText syntaxError event hidle halive hw, ?_⟩
    · rw [heard, List.flatMap_append, List.flatMap_singleton]
      exact hsound.step numberText syntaxError event halive
    · rw [throughout_concat, ← horder]
      constructor
      · intro hin
        have hbefore : InOrder (run numberText syntaxError events) := by
          obtain ⟨l, hwritten⟩ := step_written numberText syntaxError event
          exact hin.of_prefix hwritten
        exact ⟨hbefore, (step_inOrder numberText syntaxError hsound hbefore event halive).1 hin⟩
      · rintro ⟨hbefore, htimely⟩
        exact (step_inOrder numberText syntaxError hsound hbefore event halive).2 htimely

/-- Where chunks come alone, one request waits at most, and it is answered in time. -/
theorem timely_of_alone (h : Throughout numberText syntaxError Alone events) :
    (run numberText syntaxError events).waiting.length ≤ 1 ∧
      Throughout numberText syntaxError (Timely numberText) events := by
  induction events using List.reverseRecOn with
  | nil => exact ⟨Nat.zero_le _, fun before event after h => absurd h (by simp)⟩
  | append_singleton events event ih =>
    rw [throughout_concat] at h
    obtain ⟨hone, htimely⟩ := ih h.1
    have hlast := h.2
    rw [throughout_concat, run_concat]
    generalize run numberText syntaxError events = c at hone hlast
    cases event with
    | data chunk =>
      refine ⟨?_, htimely, .inl hlast⟩
      rw [step]
      split
      · exact hone
      · dsimp only
        split
        · exact hone
        · exact lines_waiting numberText syntaxError _ hlast
    | answer k out =>
      have hsingle : k ∈ c.waiting → c.waiting = [k] := by
        intro hk
        match hw : c.waiting, hone, hk with
        | [j], _, hk => rw [List.mem_singleton.1 hk]
      refine ⟨?_, htimely, fun hk => ?_⟩
      · rw [step]
        split
        · next hk =>
          apply lines_waiting
          rw [reply]
          split <;> exact (erase_eq_nil hk).2 (hsingle hk)
        · exact hone
      · rw [hsingle hk]
        exact ⟨fun j hj => by rw [List.mem_singleton.1 hj], .inl rfl⟩

end Runs

end Conn

open Conn in
/-- On a connection that stays within the buffer's cap, every request that has been read has one
reply when none waits for one. Its replies are in order exactly if nothing is written while an earlier
request waits, as nothing is where each chunk comes while none waits. -/
theorem replies_match_iff (numberText : String → String) (syntaxError : Text → Text)
    (events : List Event) (h : (run numberText syntaxError events).destroyed = false) :
    (InOrder (run numberText syntaxError events) ↔
      Throughout numberText syntaxError (Timely numberText) events) ∧
    (Throughout numberText syntaxError Alone events →
      Throughout numberText syntaxError (Timely numberText) events) ∧
    ((run numberText syntaxError events).waiting = [] →
      (run numberText syntaxError events).read = requests (heard events) ∧
      ((run numberText syntaxError events).written.map Prod.fst).Perm
        (List.range (requests (heard events)).length)) := by
  obtain ⟨hsound, hidle, horder⟩ := run_sound numberText syntaxError events h
  refine ⟨horder, fun halone => (timely_of_alone numberText syntaxError halone).2, fun hw => ?_⟩
  obtain ⟨u, htext, hended, hread⟩ := hsound.taken
  have hall : (run numberText syntaxError events).read = requests (heard events) := by
    rw [htext, requests_ended hended, requests_of_not_mem (hidle hw), List.append_nil, hread]
  have hperm := hsound.perm
  rw [hw, List.append_nil, hall] at hperm
  exact ⟨hall, hperm⟩

section Overtaken

/-- Two chunks of one request each. The second is answered while the first still waits. -/
def overtaken : List Event :=
  [.data [123, 125, 10], .data [123, 125, 10], .answer 1 ['b'], .answer 0 ['a']]

open Conn in
theorem replies_match_iff_overtaken :
    (run id id overtaken).read = requests (heard overtaken) ∧
      ((run id id overtaken).written.map Prod.fst).Perm (List.range 2) :=
  have h := (replies_match_iff id id overtaken (by decide +kernel)).2.2 (by decide +kernel)
  ⟨h.1, h.2⟩

open Conn in
/-- The first reply is the answer to the second request. -/
theorem replies_overtaken :
    (run id id overtaken).destroyed = false ∧ (run id id overtaken).waiting = [] ∧
      requests (heard overtaken) = [['{', '}'], ['{', '}']] ∧
      (run id id overtaken).written = [(1, ['b']), (0, ['a'])] ∧ ¬ InOrder (run id id overtaken) := by
  refine ⟨by decide +kernel, by decide +kernel, by decide +kernel, by decide +kernel, ?_⟩
  intro h
  exact absurd h (by unfold InOrder; decide +kernel)

end Overtaken

end Mise.Net
