import MarkupCompiler.Proofs.Locality
import Mathlib.Data.List.Forall2

/-!
# A parse comes to its end

Neither loop of the parser counts its rounds. They end because a round that goes on has read
something, whatever the delimiters are, and what has been read is not read again. So the rounds of
the parse that go on and all rounds inside of its start tags together are no more than the bytes of
the source (`parse_progresses`). The last round of the parse comes on top of them, since it can end
the parse without reading anything (`not_rounds_le_byteSize`).
-/

namespace MarkupCompiler

open Text Lexeme

namespace Traced

variable {α σ : Type} {step : σ → Traced (Round σ α)}

/-- A loop that comes to its end: the states that its rounds go on to, and what the last round makes
of it. -/
inductive Run (step : σ → Traced (Round σ α)) : σ → List σ → Traced α → Prop
  | stopped {s : σ} {log : List Event} {stop : Stop} (hstep : step s = ⟨log, .error stop⟩) :
      Run step s [] ⟨log, .error stop⟩
  | done {s : σ} {log : List Event} {a : α} (hstep : step s = ⟨log, .ok (.done a)⟩) :
      Run step s [] ⟨log, .ok a⟩
  | more {s s' : σ} {states : List σ} {log : List Event} {later : Traced α}
      (hstep : step s = ⟨log, .ok (.more s')⟩) (hlater : Run step s' states later) :
      Run step s (s' :: states) ⟨log ++ later.log, later.outcome⟩

theorem exists_run_loop (size : σ → Nat) (step : σ → Traced (Round σ α))
    (shrinks : ∀ s s', (step s).outcome = .ok (.more s') → size s' < size s) (s : σ) :
    ∃ states, Run step s states (loop size step shrinks s) := by
  refine loop_induction (P := fun s x => ∃ states, Run step s states x) ?_ ?_ ?_ s
  · intro s stop hstop
    refine ⟨[], .stopped ?_⟩
    rw [← hstop]
  · intro s a hdone
    refine ⟨[], .done ?_⟩
    rw [← hdone]
  · rintro s s' later hmore ⟨states, hlater⟩
    refine ⟨s' :: states, .more ?_ hlater⟩
    rw [← hmore]

theorem Run.eq_loop {s : σ} {states : List σ} {x : Traced α} {size : σ → Nat}
    {shrinks : ∀ s s', (step s).outcome = .ok (.more s') → size s' < size s}
    (hrun : Run step s states x) : x = loop size step shrinks s := by
  induction hrun with
  | stopped hstep => rw [loop_of_stop (congrArg Traced.outcome hstep), hstep]
  | done hstep => rw [loop_of_done (congrArg Traced.outcome hstep), hstep]
  | more hstep _ ih => rw [loop_of_more (congrArg Traced.outcome hstep), ← ih, hstep]

/-- What every round keeps holds in every state of the run. -/
theorem Run.forall_mem {s : σ} {states : List σ} {x : Traced α} {P : σ → Prop}
    (hrun : Run step s states x)
    (hround : ∀ s s' log, P s → step s = ⟨log, .ok (.more s')⟩ → P s') (hs : P s) :
    ∀ s' ∈ s :: states, P s' := by
  induction hrun with
  | stopped | done => exact List.forall_mem_singleton.mpr hs
  | more hstep _ ih => exact List.forall_mem_cons.mpr ⟨hs, ih (hround _ _ _ hs hstep)⟩

end Traced

namespace Cursor

/-- The position of the cursor is counted from the text before it. -/
def IsPast (c : Cursor) : Prop :=
  ∃ before rest, c = past before rest

/-- What is left at the later cursor is the end of what was left, and shorter. -/
def Shortens (c c' : Cursor) : Prop :=
  c'.rest <:+ c.rest ∧ byteSize c'.rest < byteSize c.rest

theorem shortens_of_append {c c' : Cursor} {text : Text} (hrest : c.rest = text ++ c'.rest)
    (hne : text ≠ []) : c.Shortens c' := by
  have hbytes : byteSize text ≠ 0 := fun hzero => hne (byteSize_eq_zero_iff.mp hzero)
  refine ⟨⟨text, hrest.symm⟩, ?_⟩
  rw [hrest, byteSize_append]
  omega

end Cursor

namespace Parser

open Traced (Run)

variable {g : Grammar} {start : Position}

/-! ### Inside of a start tag -/

/-- The cursor behind what a round has read. -/
def cursorAfter : Round TagState TagBody → Cursor
  | .more s => s.cursor
  | .done body => body.cursor

theorem tagStep_shortens {s : TagState} {round : Round TagState TagBody} {log : List Event}
    (hs : s.cursor.IsPast) (hstep : tagStep g start s = ⟨log, .ok round⟩) :
    (cursorAfter round).IsPast ∧ s.cursor.Shortens (cursorAfter round) := by
  obtain ⟨cursor, attributes⟩ := s
  obtain ⟨before, rest, rfl⟩ := hs
  have hcases := tagStep_cases g start before rest attributes
  rw [hstep] at hcases
  cases hcases with
  | @closed gap _ isSelfClosing tail =>
    have hrest : gap ++ (closing isSelfClosing ++ tail) = (gap ++ closing isSelfClosing) ++ tail :=
      (List.append_assoc ..).symm
    refine ⟨⟨_, _, rfl⟩, Cursor.shortens_of_append hrest ?_⟩
    cases isSelfClosing <;> simp [closing]
  | @more gap raw tail _ hraw _ =>
    have hrest : gap ++ (raw ++ tail) = (gap ++ raw) ++ tail := (List.append_assoc ..).symm
    refine ⟨⟨_, _, rfl⟩, Cursor.shortens_of_append hrest ?_⟩
    obtain ⟨c, name, rfl, _⟩ := exists_cons_of_isAttribute hraw
    simp

/-- The rounds inside of a start tag are no more than the bytes that they read. -/
theorem length_add_le_of_tagRun {s : TagState} {states : List TagState} {x : Traced TagBody}
    (hrun : Run (tagStep g start) s states x) (hs : s.cursor.IsPast) :
    states.length ≤ byteSize s.cursor.rest ∧
      ∀ body, x.outcome = .ok body →
        states.length + byteSize body.cursor.rest ≤ byteSize s.cursor.rest := by
  induction hrun with
  | stopped => exact ⟨Nat.zero_le _, nofun⟩
  | done hstep =>
    refine ⟨Nat.zero_le _, ?_⟩
    rintro body ⟨⟩
    rw [List.length_nil, Nat.zero_add]
    exact (tagStep_shortens hs hstep).2.2.le
  | more hstep _ ih =>
    obtain ⟨hnext, _, hless⟩ := tagStep_shortens hs hstep
    rw [cursorAfter] at hnext hless
    obtain ⟨hlength, hbody⟩ := ih hnext
    refine ⟨?_, ?_⟩
    · rw [List.length_cons]
      omega
    · intro body hok
      have hle := hbody body hok
      rw [List.length_cons]
      omega

/-- The start tag that the next step reads, if it reads one: the place where the tag begins, and the
cursor behind its name. -/
def State.tagAhead? (s : State) : Option (Position × Cursor) := do
  let c ← s.cursor.skipBlanks.toOption
  let size ← tagOpening? c.rest
  let (_, c') ← (c.moveBy size).toOption
  return (c.position, c')

/-- The states in which the rounds begin that the next step makes inside of a start tag, the last
one included. -/
inductive TagRounds (g : Grammar) (s : State) : List TagState → Prop
  | absent (hahead : s.tagAhead? = none) : TagRounds g s []
  | tag {start : Position} {c : Cursor} {states : List TagState} {body : Traced TagBody}
      (hahead : s.tagAhead? = some (start, c))
      (hrun : Run (tagStep g start) { cursor := c } states body) :
      TagRounds g s ({ cursor := c } :: states)

theorem exists_tagRounds (g : Grammar) (s : State) : ∃ rounds, TagRounds g s rounds := by
  cases hahead : s.tagAhead? with
  | none => exact ⟨[], .absent hahead⟩
  | some tag =>
    obtain ⟨start, c⟩ := tag
    obtain ⟨states, hrun⟩ := Traced.exists_run_loop (·.cursor.rest.length) (tagStep g start)
      (tagStep_shrinks g start) { cursor := c }
    exact ⟨_, .tag hahead hrun⟩

theorem tagOpening?_of_ne {c : Char} (hc : c ≠ '<') (cs : Text) : tagOpening? (c :: cs) = none := by
  unfold tagOpening?
  split
  · rename_i heq
    exact absurd (List.cons.inj heq).1 hc
  · rfl

theorem exists_of_tagAhead? {s : State} {c : Cursor} (hs : s.cursor.IsPast)
    (hahead : s.tagAhead? = some (start, c)) :
    ∃ before gap name rest, s.cursor = .past before (gap ++ '<' :: (name ++ rest)) ∧ Blank gap ∧
      IsTagName name ∧ Stops isNameChar rest ∧ start = .after (before ++ gap) ∧
      c = .past (before ++ gap ++ '<' :: name) rest := by
  obtain ⟨before, rest, hcursor⟩ := hs
  obtain ⟨gap, ahead, rfl, hgap, hstops⟩ := exists_run isBlank rest
  simp only [State.tagAhead?, hcursor, Cursor.skipBlanks_past hgap hstops, Except.toOption,
    Option.bind_eq_bind, Option.bind_some, Cursor.rest_past] at hahead
  cases ahead with
  | nil => cases hahead
  | cons first ahead =>
    by_cases hangle : first = '<'
    · subst hangle
      rcases tagOpening?_cases ahead with hnone | ⟨name, rest, rfl, hname, hstop, hsize⟩
      · rw [hnone] at hahead
        cases hahead
      · have hmove : (Cursor.past (before ++ gap) (('<' :: name) ++ rest)).moveBy
            (byteSize ('<' :: name)) = .ok _ := Cursor.moveBy_past rfl
        rw [List.cons_append] at hmove
        simp only [hsize, Option.bind_some, hmove] at hahead
        cases hahead
        exact ⟨before, gap, name, rest, hcursor, hgap, hname, hstop, rfl, rfl⟩
    · rw [tagOpening?_of_ne hangle] at hahead
      cases hahead

theorem TagRounds.isPast {s : State} {rounds : List TagState} (hrounds : TagRounds g s rounds)
    (hs : s.cursor.IsPast) : ∀ t ∈ rounds, t.cursor.IsPast := by
  cases hrounds with
  | absent => nofun
  | tag hahead hrun =>
    obtain ⟨_, _, _, _, _, _, _, _, _, rfl⟩ := exists_of_tagAhead? hs hahead
    refine hrun.forall_mem (P := fun t => t.cursor.IsPast) ?_ ⟨_, _, rfl⟩
    intro t t' log ht hstep
    exact (tagStep_shortens ht hstep).1

/-! ### One construct at a time -/

theorem step_shortens {s s' : State} {log : List Event} (hs : s.cursor.IsPast)
    (hstep : step g s = ⟨log, .ok (.more s')⟩) :
    s'.cursor.IsPast ∧ s.cursor.Shortens s'.cursor := by
  obtain ⟨cursor, frames⟩ := s
  obtain ⟨before, rest, rfl⟩ := hs
  have hlength := step_shrinks g _ s' (congrArg Traced.outcome hstep)
  obtain ⟨text, tail, frames', rfl, rfl, _⟩ := step_replay hstep
  refine ⟨⟨_, _, rfl⟩, Cursor.shortens_of_append rfl ?_⟩
  rintro rfl
  exact Nat.lt_irrefl _ hlength

/-- The parse goes on where the start tag ended. -/
theorem cursor_of_readStartTag {before name rest : Text} {frames : List Frame} {s : State}
    (hname : IsTagName name) (hstop : Stops isNameChar rest)
    (hread : (readStartTag g (.past before ('<' :: (name ++ rest))) frames).outcome =
      .ok (.more s)) :
    ∃ body,
      (readTagBody g (.after before) (.past (before ++ '<' :: name) rest)).outcome = .ok body ∧
        s.cursor = body.cursor := by
  rw [readStartTag_name g before frames hname hstop] at hread
  obtain ⟨_, _, hread⟩ := Traced.outcome_bind_eq_ok_iff.mp hread
  obtain ⟨body, hbody, hread⟩ := Traced.outcome_bind_eq_ok_iff.mp hread
  refine ⟨body, hbody, ?_⟩
  unfold afterStartTag at hread
  split at hread
  · exact cursor_of_complete hread
  · cases hread
    rfl

/-- The bytes that a step has ahead pay for its rounds inside of a start tag, and the bytes that it
reads pay for its own round as well. -/
theorem TagRounds.length_le {s : State} {rounds : List TagState} (hrounds : TagRounds g s rounds)
    (hs : s.cursor.IsPast) :
    rounds.length ≤ byteSize s.cursor.rest ∧
      ∀ log s', step g s = ⟨log, .ok (.more s')⟩ →
        rounds.length + 1 + byteSize s'.cursor.rest ≤ byteSize s.cursor.rest := by
  cases hrounds with
  | absent =>
    refine ⟨Nat.zero_le _, ?_⟩
    intro log s' hstep
    obtain ⟨_, _, hless⟩ := step_shortens hs hstep
    rw [List.length_nil]
    omega
  | @tag _ _ states body hahead hrun =>
    obtain ⟨before, gap, name, rest, hcursor, hgap, hname, hstop, rfl, rfl⟩ :=
      exists_of_tagAhead? hs hahead
    have hopening : 2 + byteSize rest ≤ byteSize s.cursor.rest := by
      have hsize := hname.byteSize_ne_zero
      have hangle : '<'.utf8Size = 1 := rfl
      simp only [hcursor, Cursor.rest_past, byteSize_append, byteSize_cons, hangle]
      omega
    obtain ⟨hlength, hbody⟩ := length_add_le_of_tagRun hrun ⟨_, _, rfl⟩
    simp only [Cursor.rest_past] at hlength hbody
    refine ⟨?_, ?_⟩
    · rw [List.length_cons]
      omega
    · intro log s' hstep
      obtain ⟨cursor, frames⟩ := s
      obtain rfl : cursor = _ := hcursor
      have hstops : Stops isBlank ('<' :: (name ++ rest)) := stops_cons.mpr rfl
      rw [step_gap frames hgap hstops, step_eq_readStartTag g _ frames
        (stops_slash_of_isTagName hname rest)] at hstep
      obtain ⟨last, hlast, hnext⟩ :=
        cursor_of_readStartTag hname hstop (congrArg Traced.outcome hstep)
      rw [readTagBody, ← hrun.eq_loop] at hlast
      have hread := hbody last hlast
      rw [hnext, List.length_cons]
      omega

/-! ### The whole parse -/

theorem rounds_of_run {s : State} {states : List State} {x : Traced Element}
    (hrun : Run (step g) s states x) (hs : s.cursor.IsPast) :
    ∃ tags, List.Forall₂ (TagRounds g) (s :: states) tags ∧
      (∀ rounds ∈ tags, ∀ t ∈ rounds, t.cursor.IsPast) ∧
      states.length + tags.flatten.length ≤ byteSize s.cursor.rest := by
  induction hrun with
  | @stopped s | @done s =>
    obtain ⟨rounds, hrounds⟩ := exists_tagRounds g s
    refine ⟨[rounds], .cons hrounds .nil, List.forall_mem_singleton.mpr (hrounds.isPast hs), ?_⟩
    simpa using (hrounds.length_le hs).1
  | @more s s' states log later hstep _ ih =>
    obtain ⟨rounds, hrounds⟩ := exists_tagRounds g s
    have hread := (hrounds.length_le hs).2 log s' hstep
    obtain ⟨tags, htags, hpast, hlength⟩ := ih (step_shortens hs hstep).1
    refine ⟨rounds :: tags, .cons hrounds htags,
      List.forall_mem_cons.mpr ⟨hrounds.isPast hs, hpast⟩, ?_⟩
    rw [List.flatten_cons, List.length_append, List.length_cons]
    omega

/-- **Progress.** Every parse is a finite run of its loop. Each round that goes on leaves less to
read, and so does each round inside of a start tag unless it stops the parse. So there is at most
one round more than the source has bytes, and there are no more rounds inside of all start tags than
bytes. Even together with these, the rounds before the last are no more than the bytes. -/
theorem parse_progresses (g : Grammar) (source : Text) :
    let first : State := { cursor := { rest := source } }
    ∃ states tags result, Run (step g) first states result ∧
      parse g source = (do
        let root ← result
        Traced.emit (.parsed root.tagName root.children.length)
        return root) ∧
      List.Forall₂ (TagRounds g) (first :: states) tags ∧
      (∀ s ∈ first :: states, ∀ s' log, step g s = ⟨log, .ok (.more s')⟩ →
        s.cursor.Shortens s'.cursor) ∧
      (∀ rounds ∈ tags, ∀ t ∈ rounds, ∀ start round log, tagStep g start t = ⟨log, .ok round⟩ →
        t.cursor.Shortens (cursorAfter round)) ∧
      (first :: states).length ≤ byteSize source + 1 ∧
      tags.flatten.length ≤ byteSize source ∧
      states.length + tags.flatten.length ≤ byteSize source := by
  intro first
  have hfirst : first.cursor.IsPast := ⟨[], source, rfl⟩
  obtain ⟨states, hrun⟩ :=
    Traced.exists_run_loop (·.cursor.rest.length) (step g) (step_shrinks g) first
  obtain ⟨tags, htags, hinside, hpaid⟩ := rounds_of_run hrun hfirst
  have hlength : states.length + tags.flatten.length ≤ byteSize source := hpaid
  have hpast : ∀ s ∈ first :: states, s.cursor.IsPast :=
    hrun.forall_mem (fun _ _ _ hs hstep => (step_shortens hs hstep).1) hfirst
  refine ⟨states, tags, _, hrun, rfl, htags, ?_, ?_, ?_, ?_, hlength⟩
  · intro s hs s' log hstep
    exact (step_shortens (hpast s hs) hstep).2
  · intro rounds hrounds t ht start round log hstep
    exact (tagStep_shortens (hinside rounds hrounds t ht) hstep).2
  · rw [List.length_cons]
    omega
  · omega

/-- With the last round there can be more rounds than bytes: one on the empty source, and two on a
letter, which the first of them drops. -/
theorem not_rounds_le_byteSize :
    let first : Text → State := fun source => { cursor := { rest := source } }
    (∃ result, Run (step {}) (first []) [] result) ∧
      (∃ s result, Run (step {}) (first ['a']) [s] result) ∧
      ∀ source ∈ [[], ['a']], ¬ ∃ states result,
        Run (step {}) (first source) states result ∧
          (first source :: states).length ≤ byteSize source := by
  intro first
  have hempty : step {} (first []) = ⟨[], .ok (.done .emptyRoot)⟩ := rfl
  have hletter : step {} (first ['a']) =
      ⟨[.outsideRoot {}], .ok (.more { cursor := .past ['a'] [] })⟩ := rfl
  have hend : step {} { cursor := .past ['a'] [] } = ⟨[], .ok (.done .emptyRoot)⟩ := rfl
  refine ⟨⟨_, .done hempty⟩, ⟨_, _, .more hletter (.done hend)⟩, ?_⟩
  rintro source hsource ⟨states, result, hrun, hlength⟩
  have hbytes : byteSize ['a'] = 1 := rfl
  rcases List.mem_pair.mp hsource with rfl | rfl
  · exact Nat.not_succ_le_zero _ hlength
  · -- a run of one round would have to end in the round that drops the letter
    obtain rfl : states = [] := by
      rw [List.length_cons, hbytes] at hlength
      exact List.length_eq_zero_iff.mp (by omega)
    cases hrun with
    | stopped hstep | done hstep =>
      rw [hletter] at hstep
      cases hstep

end Parser

end MarkupCompiler
