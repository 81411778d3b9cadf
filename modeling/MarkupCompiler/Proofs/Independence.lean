import MarkupCompiler.Proofs.Coupling
import MarkupCompiler.Proofs.Termination

/-!
# What a parse does not depend on

The markers of bindings decide about the flags of attributes and about nothing else, so that two
parses with different markers run in step (`parse_markers`). An opening delimiter that does not
occur in the source is never met, neither at the beginning of a construct nor inside of a text, so
that it could as well be empty (`parse_of_absent`).
-/

namespace MarkupCompiler

open Text Lexeme

/-! ### Markers -/

/-- Two attributes that are the same but for the flag, and have different flags just if one set of
markers holds their first character and the other does not. -/
structure Attribute.SameButFlag (markers markers' : List Char) (a a' : Attribute) : Prop where
  eq : a' = { a with isDynamic := a'.isDynamic }
  marked : a.isDynamic ≠ a'.isDynamic ↔
    ∃ c, a.raw.head? = some c ∧ ¬ (c ∈ markers ↔ c ∈ markers')

/-- Two events that are the same, or note one attribute under two flags. -/
inductive Event.SameButFlag : Event → Event → Prop
  | refl (e : Event) : Event.SameButFlag e e
  | flag (raw : Text) (isDynamic isDynamic' : Bool) :
      Event.SameButFlag (.attributeRead raw isDynamic) (.attributeRead raw isDynamic')

namespace Parser

open Traced (InStep)

/-- Trees that are the same but for the flags of attributes. -/
def flagCoupling (markers markers' : List Char) : Coupling where
  attributes := Attribute.SameButFlag markers markers'
  texts := Eq
  events := Event.SameButFlag
  location_eq := congrArg TextRun.location
  events_refl := .refl

theorem isBinding_ne_iff {d : Delimiters} {markers markers' : List Char} {raw : Text} :
    Grammar.isBinding ⟨d, markers⟩ raw ≠ Grammar.isBinding ⟨d, markers'⟩ raw ↔
      ∃ c, raw.head? = some c ∧ ¬ (c ∈ markers ↔ c ∈ markers') := by
  rw [ne_eq, Bool.eq_iff_iff, Grammar.isBinding_iff, Grammar.isBinding_iff]
  cases raw with
  | nil => simp
  | cons c raw => simp

theorem flagCoupling_admits (d : Delimiters) (markers markers' : List Char) :
    (flagCoupling markers markers').Admits ⟨d, markers⟩ ⟨d, markers'⟩ where
  delimiters := rfl
  attributes _ _ := ⟨rfl, isBinding_ne_iff⟩
  events raw := .flag raw _ _
  plain _ _ := rfl
  interpolation _ _ _ := rfl

/-- **Markers only set flags.** Two parses with different markers stop at the same flaw, or return
trees that are the same but for the flags of attributes, and report the same. -/
theorem parse_markers (d : Delimiters) (markers markers' : List Char) (source : Text) :
    let x := parse { delimiters := d, markers } source
    let y := parse { delimiters := d, markers := markers' } source
    x.reports = y.reports ∧
      ((∃ flaw, x.outcome = .error (.problem flaw) ∧ y.outcome = .error (.problem flaw)) ∨
        ∃ root root', x.outcome = .ok root ∧ y.outcome = .ok root' ∧
          (flagCoupling markers markers').Elements root root') := by
  intro x y
  have hinStep : InStep Event.SameButFlag (flagCoupling markers markers').Elements x y :=
    parse_inStep (flagCoupling_admits d markers markers') source
  refine ⟨hinStep.reports_eq ?_, ?_⟩
  · rintro _ _ (e | ⟨raw, _, _⟩)
    · rfl
    · rfl
  · rcases hinStep.outcome_cases with ⟨stop, hx, hy⟩ | ⟨root, root', hx, hy, helements⟩
    · rcases parse_cases { delimiters := d, markers } source with
        ⟨_, hok, _⟩ | ⟨_, _, _, _, flaw, _, _, herror, _⟩
      · cases hx.symm.trans hok
      · obtain rfl : stop = .problem flaw := Except.error.inj (hx.symm.trans herror)
        exact .inl ⟨flaw, hx, hy⟩
    · exact .inr ⟨root, root', hx, hy, helements⟩

end Parser

/-! ### Opening delimiters -/

theorem Traced.loop_congr {α σ : Type} {size size' : σ → Nat} {step step' : σ → Traced (Round σ α)}
    {shrinks : ∀ s s', (step s).outcome = .ok (.more s') → size s' < size s}
    {shrinks' : ∀ s s', (step' s).outcome = .ok (.more s') → size' s' < size' s} {P : σ → Prop}
    (hsame : ∀ s, P s → step s = step' s)
    (hkeep : ∀ s s', P s → (step s).outcome = .ok (.more s') → P s') {s : σ} (hs : P s) :
    loop size step shrinks s = loop size' step' shrinks' s := by
  refine loop_induction (P := fun s x => P s → x = loop size' step' shrinks' s) ?_ ?_ ?_ s hs
  · intro s stop hstop hs
    rw [hsame s hs] at hstop ⊢
    rw [loop_of_stop hstop]
  · intro s a hdone hs
    rw [hsame s hs] at hdone ⊢
    rw [loop_of_done hdone]
  · intro s s' later hmore ih hs
    rw [ih (hkeep s s' hs hmore)]
    rw [hsame s hs] at hmore ⊢
    rw [loop_of_more hmore]

theorem Lexeme.textSize_of_not_isInfix {opening cs : Text} (hnot : ¬ opening <:+: cs) :
    textSize opening cs = textSize [] cs := by
  cases cs with
  | nil => rfl
  | cons c cs =>
    obtain ⟨run, rest, rfl, hrun, hrest⟩ := exists_run (· != '<') cs
    have hinside : run <:+: c :: (run ++ rest) := ⟨[c], rest, rfl⟩
    exact textSize_of_not_isInfix_run c hrun hrest fun hopening => hnot (hopening.trans hinside)

namespace Parser

variable {d : Delimiters} {markers : List Char}

theorem readText_of_absent (closing before : Text) (frames : List Frame) {rest : Text}
    (habsent : ¬ d.opening <:+: rest) :
    readText ⟨d, markers⟩ (.past before rest) frames =
      readText ⟨⟨[], closing⟩, markers⟩ (.past before rest) frames := by
  rw [readText, readText, Cursor.rest_past, textSize_of_not_isInfix habsent]

theorem step_of_absent (closing : Text) {s : State} (hs : s.cursor.IsPast)
    (habsent : ¬ d.opening <:+: s.cursor.rest) :
    step ⟨d, markers⟩ s = step ⟨⟨[], closing⟩, markers⟩ s := by
  obtain ⟨cursor, frames⟩ := s
  obtain ⟨before, rest, rfl⟩ := hs
  obtain ⟨gap, ahead, rfl, hgap, hstops⟩ := exists_run isBlank rest
  have hahead : ¬ d.opening <:+: ahead := by
    intro hinside
    exact habsent (hinside.trans (List.suffix_append gap ahead).isInfix)
  rw [step_gap frames hgap hstops, step_gap frames hgap hstops]
  cases ahead with
  | nil =>
    simp only [step, Cursor.skipBlanks_of_stops (before ++ gap) hstops]
    rfl
  | cons c tail =>
    by_cases hangle : c = '<'
    · subst hangle
      -- tags are read without a look at the delimiters
      by_cases hslash : Stops (· == '/') tail
      · rw [step_eq_readStartTag _ _ frames hslash, step_eq_readStartTag _ _ frames hslash]
        rfl
      · obtain ⟨tail', rfl⟩ : ∃ tail', tail = '/' :: tail' := by
          cases tail with
          | nil => exact absurd (stops_nil _) hslash
          | cons c tail =>
            rw [stops_cons] at hslash
            exact ⟨tail, by simpa using hslash⟩
        rw [step_eq_readEndTag, step_eq_readEndTag]
    · have hbegins : ¬ d.opening <+: c :: tail := fun hbegins => hahead hbegins.isInfix
      rw [step_eq_readText _ frames hstops hangle fun _ => hbegins,
        step_eq_readText _ frames hstops hangle fun hne => absurd rfl hne,
        readText_of_absent closing _ frames hahead]

theorem parse_eq_of_absent {source : Text} (habsent : ¬ d.opening <:+: source) (closing : Text) :
    parse ⟨d, markers⟩ source = parse ⟨⟨[], closing⟩, markers⟩ source := by
  let P (s : State) : Prop := s.cursor.IsPast ∧ ¬ d.opening <:+: s.cursor.rest
  have hkeep : ∀ s s', P s → (step ⟨d, markers⟩ s).outcome = .ok (.more s') → P s' := by
    rintro s s' ⟨hpast, hs⟩ hmore
    have hstep : step ⟨d, markers⟩ s = ⟨(step ⟨d, markers⟩ s).log, .ok (.more s')⟩ := by
      rw [← hmore]
    obtain ⟨hnext, hsuffix, _⟩ := step_shortens hpast hstep
    exact ⟨hnext, fun hinside => hs (hinside.trans hsuffix.isInfix)⟩
  have hfirst : P { cursor := .past [] source } := ⟨⟨[], source, rfl⟩, habsent⟩
  rw [parse_eq, parse_eq,
    Traced.loop_congr (fun s hs => step_of_absent closing hs.1 hs.2) hkeep hfirst]

/-- One tree beside itself, with no text but plain text. -/
def plainCoupling : Coupling where
  attributes := Eq
  texts t t' := t = t' ∧ t.kind = .plain
  events := Eq
  location_eq htexts := congrArg TextRun.location htexts.1
  events_refl _ := rfl

/-- An empty delimiter opens no interpolation. -/
theorem kind_of_parse {g : Grammar} {source : Text} {root : Element} {t : TextRun}
    (hopening : g.delimiters.opening = []) (hparse : (parse g source).outcome = .ok root)
    (ht : Item.text t ∈ root.toNode.items) : t.kind = .plain := by
  have hadmits : plainCoupling.Admits g g :=
    { delimiters := rfl
      attributes := fun _ _ => rfl
      events := fun _ => rfl
      plain := fun _ _ => ⟨rfl, rfl⟩
      interpolation := fun hne => absurd hopening hne }
  rcases (parse_inStep hadmits source).outcome_cases with
    ⟨stop, hstop, _⟩ | ⟨e, _, he, _, helements⟩
  · cases hstop.symm.trans hparse
  · obtain rfl : e = root := Except.ok.inj (he.symm.trans hparse)
    obtain ⟨_, _, hkind⟩ := Coupling.Nodes.exists_of_mem helements ht
    exact hkind

/-- **An absent delimiter has no effect.** If the opening delimiter does not occur in the source,
the parse is the one with an empty opening delimiter and any closing one, in all that it returns,
reports and notes, and there is no interpolation in its tree. -/
theorem parse_of_absent (d : Delimiters) (markers : List Char) {source : Text}
    (habsent : ¬ d.opening <:+: source) (closing : Text) :
    let x := parse { delimiters := d, markers } source
    x = parse { delimiters := { opening := [], closing }, markers } source ∧
      ∀ root, x.outcome = .ok root →
        ∀ t, Item.text t ∈ root.toNode.items → t.kind ≠ .interpolation := by
  intro x
  have hx : x = parse ⟨⟨[], closing⟩, markers⟩ source := parse_eq_of_absent habsent closing
  refine ⟨hx, ?_⟩
  intro root hroot t ht
  rw [hx] at hroot
  rw [kind_of_parse rfl hroot ht]
  exact TextKind.noConfusion

/-- A brace by itself, in a value and in a text, and a closing delimiter that closes nothing. -/
theorem parse_of_absent_braces :
    let d : Delimiters := {}
    let source := "<p :a='\x7b'>b \x7b c \x7d\x7d</p> d".toList
    let x := parse { delimiters := d, markers := [':'] } source
    ¬ d.opening <:+: source ∧
      x = parse { delimiters := { opening := [], closing := ['<'] }, markers := [':'] } source ∧
      ∃ root, x.outcome = .ok root ∧ root.children.length = 1 ∧
        ∀ t, Item.text t ∈ root.toNode.items → t.kind ≠ .interpolation := by
  intro d source x
  have habsent : ¬ d.opening <:+: source := by decide
  obtain ⟨hsame, hplain⟩ := parse_of_absent d [':'] habsent ['<']
  have hchildren : x.outcome.toOption.map (fun root => root.children.length) = some 1 := by
    decide +kernel
  obtain ⟨root, hroot, hchildren⟩ := Traced.exists_ok_of_map hchildren
  exact ⟨habsent, hsame, root, hroot, hchildren, hplain root hroot⟩

end Parser

end MarkupCompiler
