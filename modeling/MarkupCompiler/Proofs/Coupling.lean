import MarkupCompiler.Proofs.Document
import MarkupCompiler.Tree.Parser
import Mathlib.Data.List.Forall2

/-!
# Two parses side by side

Two computations run in step when they note corresponding events, one by one, and come to
corresponding results or stop for the same reason. What runs in step is closed under sequencing and
under loops, so that two parses run in step as soon as the attributes and the texts that they read
correspond (`parse_inStep`): where a construct ends, which element closes and what is reported
depends on neither.
-/

namespace MarkupCompiler

namespace Traced

variable {α β σ τ α' β' : Type} {E : Event → Event → Prop} {R : α → β → Prop} {S : α' → β' → Prop}

/-- Two computations that note corresponding events, and come to corresponding results or stop for
the same reason. -/
inductive InStep (E : Event → Event → Prop) (R : α → β → Prop) : Traced α → Traced β → Prop
  | ok {log log' : List Event} {a : α} {b : β} (hlog : List.Forall₂ E log log') (hresult : R a b) :
      InStep E R ⟨log, .ok a⟩ ⟨log', .ok b⟩
  | stopped {log log' : List Event} {stop : Stop} (hlog : List.Forall₂ E log log') :
      InStep E R ⟨log, .error stop⟩ ⟨log', .error stop⟩

/-- Two rounds that both go on, or are both done. -/
inductive RoundInStep (R : σ → τ → Prop) (S : α → β → Prop) : Round σ α → Round τ β → Prop
  | more {s : σ} {t : τ} (hstates : R s t) : RoundInStep R S (.more s) (.more t)
  | done {a : α} {b : β} (hresults : S a b) : RoundInStep R S (.done a) (.done b)

namespace InStep

theorem pure {a : α} {b : β} (hresult : R a b) : InStep E R (Pure.pure a) (Pure.pure b) :=
  .ok .nil hresult

theorem emit {e e' : Event} (hevent : E e e') : InStep E Eq (Traced.emit e) (Traced.emit e') :=
  .ok (.cons hevent .nil) rfl

theorem prepend {x : Traced α} {y : Traced β} {log log' : List Event}
    (hlog : List.Forall₂ E log log') (hlater : InStep E R x y) :
    InStep E R ⟨log ++ x.log, x.outcome⟩ ⟨log' ++ y.log, y.outcome⟩ := by
  cases hlater with
  | ok hlater hresult => exact .ok (List.rel_append hlog hlater) hresult
  | stopped hlater => exact .stopped (List.rel_append hlog hlater)

theorem bind {x : Traced α} {y : Traced β} {f : α → Traced α'} {f' : β → Traced β'}
    (hfirst : InStep E R x y) (hlater : ∀ a b, R a b → InStep E S (f a) (f' b)) :
    InStep E S (x >>= f) (y >>= f') := by
  cases hfirst with
  | ok hlog hresult => exact (hlater _ _ hresult).prepend hlog
  | stopped hlog => exact .stopped hlog

theorem refl (hE : ∀ e, E e e) (x : Traced α) : InStep E Eq x x := by
  have hlog : List.Forall₂ E x.log x.log := List.forall₂_same.mpr fun e _ => hE e
  obtain ⟨log, outcome⟩ := x
  cases outcome with
  | ok a => exact .ok hlog rfl
  | error stop => exact .stopped hlog

/-- What both do first does not tell them apart. -/
theorem bind_same (hE : ∀ e, E e e) (x : Traced α) {f : α → Traced α'} {f' : α → Traced β'}
    (hlater : ∀ a, InStep E S (f a) (f' a)) : InStep E S (x >>= f) (x >>= f') := by
  refine (refl hE x).bind ?_
  rintro a _ rfl
  exact hlater a

theorem loop {P : σ → τ → Prop} {size : σ → Nat} {step : σ → Traced (Round σ α)}
    {shrinks : ∀ s s', (step s).outcome = .ok (.more s') → size s' < size s} {size' : τ → Nat}
    {step' : τ → Traced (Round τ β)}
    {shrinks' : ∀ t t', (step' t).outcome = .ok (.more t') → size' t' < size' t}
    (hstep : ∀ s t, P s t → InStep E (RoundInStep P R) (step s) (step' t)) {s : σ} {t : τ}
    (hst : P s t) : InStep E R (Traced.loop size step shrinks s)
      (Traced.loop size' step' shrinks' t) := by
  have hround := hstep s t hst
  -- each side takes the same kind of round, so that one induction covers both loops
  generalize hx : step s = x, hy : step' t = y at hround
  cases hround with
  | stopped hlog =>
    rw [loop_of_stop (congrArg outcome hx), loop_of_stop (congrArg outcome hy), hx, hy]
    exact .stopped hlog
  | ok hlog hresult =>
    cases hresult with
    | done hresults =>
      rw [loop_of_done (congrArg outcome hx), loop_of_done (congrArg outcome hy), hx, hy]
      exact .ok hlog hresults
    | more hstates =>
      have hless := shrinks s _ (congrArg outcome hx)
      rw [loop_of_more (congrArg outcome hx), loop_of_more (congrArg outcome hy), hx, hy]
      exact (loop hstep hstates).prepend hlog
termination_by size s

theorem outcome_cases {x : Traced α} {y : Traced β} (hinStep : InStep E R x y) :
    (∃ stop, x.outcome = .error stop ∧ y.outcome = .error stop) ∨
      ∃ a b, x.outcome = .ok a ∧ y.outcome = .ok b ∧ R a b := by
  cases hinStep with
  | ok _ hresult => exact .inr ⟨_, _, rfl, rfl, hresult⟩
  | stopped => exact .inl ⟨_, rfl, rfl⟩

theorem reports_eq {x : Traced α} {y : Traced β} (hinStep : InStep E R x y)
    (hE : ∀ e e', E e e' → e.reported? = e'.reported?) : x.reports = y.reports := by
  have hsame : ∀ {log log' : List Event}, List.Forall₂ E log log' →
      log.filterMap Event.reported? = log'.filterMap Event.reported? := by
    intro log log' hlog
    induction hlog with
    | nil => rfl
    | cons hevent _ ih => rw [List.filterMap_cons, List.filterMap_cons, hE _ _ hevent, ih]
  cases hinStep with
  | ok hlog | stopped hlog => exact hsame hlog

end InStep

end Traced

namespace Parser

open Traced (InStep RoundInStep)

/-- How the attributes and texts of two trees, and the events of two parses, correspond. -/
structure Coupling where
  attributes : Attribute → Attribute → Prop
  texts : TextRun → TextRun → Prop
  events : Event → Event → Prop
  location_eq : ∀ {t t' : TextRun}, texts t t' → t.location = t'.location
  events_refl : ∀ e, events e e

/-- Two grammars under which corresponding attributes and texts are read. -/
structure Coupling.Admits (K : Coupling) (g g' : Grammar) : Prop where
  delimiters : g.delimiters = g'.delimiters
  attributes : ∀ raw location,
    K.attributes { isDynamic := g.isBinding raw, raw, location }
      { isDynamic := g'.isBinding raw, raw, location }
  events : ∀ raw,
    K.events (.attributeRead raw (g.isBinding raw)) (.attributeRead raw (g'.isBinding raw))
  plain : ∀ content location, K.texts { content, location } { content, location }
  interpolation : g.delimiters.opening ≠ [] → ∀ content location,
    K.texts { kind := .interpolation, content, location }
      { kind := .interpolation, content, location }

structure Coupling.Heads (K : Coupling) (h h' : Head) : Prop where
  kind_eq : h.kind = h'.kind
  tagName_eq : h.tagName = h'.tagName
  location_eq : h.location = h'.location
  attributes : List.Forall₂ K.attributes h.attributes h'.attributes

/-- Two trees of one shape, with corresponding attributes and texts in the same places. -/
inductive Coupling.Nodes (K : Coupling) : Node → Node → Prop
  | text {t t' : TextRun} (htexts : K.texts t t') : Coupling.Nodes K (.text t) (.text t')
  | element {h h' : Head} {children children' : List Node} (hheads : K.Heads h h')
      (hchildren : List.Forall₂ (Coupling.Nodes K) children children') :
      Coupling.Nodes K (.element h children) (.element h' children')

def Coupling.Elements (K : Coupling) (e e' : Element) : Prop :=
  K.Nodes e.toNode e'.toNode

structure Coupling.Frames (K : Coupling) (f f' : Frame) : Prop where
  heads : K.Heads f.head f'.head
  children : List.Forall₂ K.Nodes f.children f'.children

structure Coupling.States (K : Coupling) (s s' : State) : Prop where
  cursor_eq : s.cursor = s'.cursor
  frames : List.Forall₂ K.Frames s.frames s'.frames

structure Coupling.TagStates (K : Coupling) (s s' : TagState) : Prop where
  cursor_eq : s.cursor = s'.cursor
  attributes : List.Forall₂ K.attributes s.attributes s'.attributes

structure Coupling.TagBodies (K : Coupling) (b b' : TagBody) : Prop where
  cursor_eq : b.cursor = b'.cursor
  attributes : List.Forall₂ K.attributes b.attributes b'.attributes
  isSelfClosing_eq : b.isSelfClosing = b'.isSelfClosing

variable {K : Coupling} {g g' : Grammar} {frames frames' : List Frame}

/-! ### Trees and open elements -/

namespace Coupling

theorem Nodes.location_eq {node node' : Node} (hnodes : K.Nodes node node') :
    node.location = node'.location := by
  cases hnodes with
  | text htexts => exact K.location_eq htexts
  | element hheads => exact hheads.location_eq

theorem Frames.add {f f' : Frame} {node node' : Node} (hframes : K.Frames f f')
    (hnodes : K.Nodes node node') : K.Frames (f.add node) (f'.add node') :=
  ⟨hframes.heads, .cons hnodes hframes.children⟩

theorem Frames.close {f f' : Frame} (hframes : K.Frames f f') : K.Elements f.close f'.close :=
  .element hframes.heads (List.rel_reverse hframes.children)

/-- An end tag moves the ends of two elements to the same place. -/
theorem Elements.moveStop {e e' : Element} (helements : K.Elements e e') (stop : Position) :
    K.Elements { e with location.stop := stop } { e' with location.stop := stop } := by
  obtain ⟨⟨kind, tagName, attributes, location⟩, children⟩ := e
  obtain ⟨⟨kind', tagName', attributes', location'⟩, children'⟩ := e'
  cases helements with
  | element hheads hchildren =>
    obtain ⟨hkind, htagName, hlocation, hattributes⟩ := hheads
    refine .element ⟨hkind, htagName, ?_, hattributes⟩ hchildren
    exact congrArg (fun l : Location => { l with stop := stop }) hlocation

mutual

theorem Nodes.exists_of_mem {node node' : Node} {t : TextRun} (hnodes : K.Nodes node node')
    (hmem : Item.text t ∈ node.items) : ∃ t', K.texts t t' := by
  cases hnodes with
  | @text run run' htexts =>
    rw [Node.items, List.mem_singleton] at hmem
    cases hmem
    exact ⟨run', htexts⟩
  | element _ hchildren =>
    rw [Node.items, List.mem_append, Head.items, List.mem_cons, List.mem_map] at hmem
    rcases hmem with (hhead | ⟨_, _, hattribute⟩) | hinner
    · cases hhead
    · cases hattribute
    · exact exists_of_mem_children hchildren hinner

theorem exists_of_mem_children {nodes nodes' : List Node} {t : TextRun}
    (hnodes : List.Forall₂ K.Nodes nodes nodes') (hmem : Item.text t ∈ Node.itemsList nodes) :
    ∃ t', K.texts t t' := by
  cases hnodes with
  | nil => cases hmem
  | cons hfirst hlater =>
    rw [Node.itemsList, List.mem_append] at hmem
    rcases hmem with hmem | hmem
    · exact hfirst.exists_of_mem hmem
    · exact exists_of_mem_children hlater hmem

end

end Coupling

theorem attach_inStep {node node' : Node} (hnodes : K.Nodes node node')
    (hframes : List.Forall₂ K.Frames frames frames') :
    InStep K.events (List.Forall₂ K.Frames) (attach node frames) (attach node' frames') := by
  cases hframes with
  | nil =>
    rw [attach, attach, hnodes.location_eq]
    exact .bind_same K.events_refl _ fun _ => .pure .nil
  | cons hfirst hlater => exact .pure (.cons (hfirst.add hnodes) hlater)

theorem complete_inStep {e e' : Element} (c : Cursor) (helements : K.Elements e e')
    (hframes : List.Forall₂ K.Frames frames frames') :
    InStep K.events (RoundInStep K.States K.Elements) (complete e c frames)
      (complete e' c frames') := by
  cases hframes with
  | nil => exact .bind_same K.events_refl _ fun _ => .pure (.done helements)
  | cons hfirst hlater => exact .pure (.more ⟨rfl, .cons (hfirst.add helements) hlater⟩)

theorem reportMissingEnd_eq {h h' : Head} (hheads : K.Heads h h') :
    reportMissingEnd h = reportMissingEnd h' := by
  rw [reportMissingEnd, reportMissingEnd, hheads.tagName_eq, hheads.location_eq]

theorem foldUnfinished_inStep {e e' : Element} (helements : K.Elements e e')
    (hframes : List.Forall₂ K.Frames frames frames') :
    InStep K.events K.Elements (foldUnfinished e frames) (foldUnfinished e' frames') := by
  induction hframes generalizing e e' with
  | nil => exact .pure helements
  | cons hfirst _ ih =>
    rw [foldUnfinished, foldUnfinished, reportMissingEnd_eq hfirst.heads]
    exact .bind_same K.events_refl _ fun _ => ih (hfirst.add helements).close

theorem finish_inStep (hframes : List.Forall₂ K.Frames frames frames') :
    InStep K.events K.Elements (finish frames) (finish frames') := by
  cases hframes with
  | nil => exact .pure (.element ⟨rfl, rfl, rfl, .nil⟩ .nil)
  | cons hfirst hlater =>
    rw [finish, finish, reportMissingEnd_eq hfirst.heads]
    exact .bind_same K.events_refl _ fun _ => foldUnfinished_inStep hfirst.close hlater

/-! ### Start tags -/

theorem readAttribute_inStep (hadmits : K.Admits g g') (c : Cursor) :
    InStep K.events (fun read read' => K.attributes read.1 read'.1 ∧ read.2 = read'.2)
      (readAttribute g c) (readAttribute g' c) := by
  refine .bind_same K.events_refl _ fun size? => ?_
  cases size? with
  | none => exact .bind_same K.events_refl _ fun _ => .stopped .nil
  | some size =>
    refine .bind_same K.events_refl _ fun taken => ?_
    refine (InStep.emit (hadmits.events taken.1)).bind fun _ _ _ => ?_
    exact .pure ⟨hadmits.attributes _ _, rfl⟩

theorem tagStep_inStep (hadmits : K.Admits g g') (start : Position) {s s' : TagState}
    (hstates : K.TagStates s s') :
    InStep K.events (RoundInStep K.TagStates K.TagBodies) (tagStep g start s)
      (tagStep g' start s') := by
  rw [tagStep, tagStep, hstates.cursor_eq]
  refine .bind_same K.events_refl _ fun c => ?_
  split
  · exact .stopped .nil
  · split
    · refine .bind_same K.events_refl _ fun taken => ?_
      exact .pure (.done ⟨rfl, List.rel_reverse hstates.attributes, rfl⟩)
    · refine (readAttribute_inStep hadmits c).bind fun read read' hread => ?_
      exact .pure (.more ⟨hread.2, .cons hread.1 hstates.attributes⟩)

theorem readTagBody_inStep (hadmits : K.Admits g g') (start : Position) (c : Cursor) :
    InStep K.events K.TagBodies (readTagBody g start c) (readTagBody g' start c) :=
  InStep.loop (fun _ _ => tagStep_inStep hadmits start) ⟨rfl, .nil⟩

theorem isEmpty_eq (hframes : List.Forall₂ K.Frames frames frames') :
    frames.isEmpty = frames'.isEmpty := by
  cases hframes <;> rfl

theorem readStartTag_inStep (hadmits : K.Admits g g') (c : Cursor)
    (hframes : List.Forall₂ K.Frames frames frames') :
    InStep K.events (RoundInStep K.States K.Elements) (readStartTag g c frames)
      (readStartTag g' c frames') := by
  rw [readStartTag, readStartTag, isEmpty_eq hframes]
  generalize (if frames'.isEmpty then ElementKind.root else .element) = kind
  cases Lexeme.tagOpening? c.rest with
  | none => exact .bind_same K.events_refl _ fun _ => .stopped .nil
  | some size =>
    refine .bind_same K.events_refl _ fun opening => ?_
    refine .bind_same K.events_refl _ fun name => ?_
    refine .bind_same K.events_refl _ fun _ => ?_
    refine (readTagBody_inStep hadmits c.position opening.2).bind fun body body' hbodies => ?_
    dsimp only
    rw [hbodies.isSelfClosing_eq, hbodies.cursor_eq]
    have hheads : K.Heads
        { kind, tagName := name.2, attributes := body.attributes
          location := body'.cursor.locationFrom c.position }
        { kind, tagName := name.2, attributes := body'.attributes
          location := body'.cursor.locationFrom c.position } :=
      ⟨rfl, rfl, rfl, hbodies.attributes⟩
    split
    · refine complete_inStep _ ?_ hframes
      exact .element hheads .nil
    · refine .pure ?_
      exact .more ⟨rfl, .cons ⟨hheads, .nil⟩ hframes⟩

/-! ### Other constructs -/

theorem readEndTag_inStep (c : Cursor) (hframes : List.Forall₂ K.Frames frames frames') :
    InStep K.events (RoundInStep K.States K.Elements) (readEndTag c frames)
      (readEndTag c frames') := by
  refine .bind_same K.events_refl _ fun tag? => ?_
  cases tag? with
  | none => exact .bind_same K.events_refl _ fun _ => .stopped .nil
  | some tag =>
    refine .bind_same K.events_refl _ fun taken => ?_
    cases hframes with
    | nil =>
      refine .bind_same K.events_refl _ fun _ => ?_
      exact .pure (.done (.element ⟨rfl, rfl, rfl, .nil⟩ .nil))
    | @cons frame frame' frames frames' hfirst hlater =>
      have hname : frame.head.tagName = frame'.head.tagName := hfirst.heads.tagName_eq
      dsimp only
      rw [hname]
      refine .bind_same K.events_refl _ fun _ => ?_
      exact complete_inStep _ (hfirst.close.moveStop _) hlater

theorem readInterpolation_inStep (hadmits : K.Admits g g') (hne : g.delimiters.opening ≠ [])
    (c : Cursor) (hframes : List.Forall₂ K.Frames frames frames') :
    InStep K.events (RoundInStep K.States K.Elements) (readInterpolation g c frames)
      (readInterpolation g' c frames') := by
  rw [readInterpolation, readInterpolation, ← hadmits.delimiters]
  refine .bind_same K.events_refl _ fun found? => ?_
  cases found? with
  | none => exact .bind_same K.events_refl _ fun _ => .stopped .nil
  | some found =>
    refine .bind_same K.events_refl _ fun taken => ?_
    refine (attach_inStep (.text (hadmits.interpolation hne _ _)) hframes).bind ?_
    exact fun _ _ hattached => .pure (.more ⟨rfl, hattached⟩)

theorem readText_inStep (hadmits : K.Admits g g') (c : Cursor)
    (hframes : List.Forall₂ K.Frames frames frames') :
    InStep K.events (RoundInStep K.States K.Elements) (readText g c frames)
      (readText g' c frames') := by
  rw [readText, readText, ← hadmits.delimiters]
  refine .bind_same K.events_refl _ fun size => ?_
  refine .bind_same K.events_refl _ fun taken => ?_
  refine (attach_inStep (.text (hadmits.plain _ _)) hframes).bind ?_
  exact fun _ _ hattached => .pure (.more ⟨rfl, hattached⟩)

/-! ### Whole parses -/

theorem step_inStep (hadmits : K.Admits g g') {s s' : State} (hstates : K.States s s') :
    InStep K.events (RoundInStep K.States K.Elements) (step g s) (step g' s') := by
  obtain ⟨hcursor, hframes⟩ := hstates
  rw [step, step, hcursor, ← hadmits.delimiters]
  refine .bind_same K.events_refl _ fun c => ?_
  split
  · exact (finish_inStep hframes).bind fun _ _ helements => .pure (.done helements)
  · split
    · exact readEndTag_inStep c hframes
    · split
      · exact readStartTag_inStep hadmits c hframes
      · split
        · rename_i hopening
          have hne : g.delimiters.opening ≠ [] := by
            intro hempty
            simp [hempty] at hopening
          exact readInterpolation_inStep hadmits hne c hframes
        · exact readText_inStep hadmits c hframes

theorem parse_inStep (hadmits : K.Admits g g') (source : Text) :
    InStep K.events K.Elements (parse g source) (parse g' source) := by
  let first : State := { cursor := { rest := source } }
  have hloop : InStep K.events K.Elements
      (Traced.loop (·.cursor.rest.length) (step g) (step_shrinks g) first)
      (Traced.loop (·.cursor.rest.length) (step g') (step_shrinks g') first) :=
    InStep.loop (fun _ _ => step_inStep hadmits) ⟨rfl, .nil⟩
  refine hloop.bind fun root root' helements => ?_
  have hparsed : (Event.parsed root.tagName root.children.length) =
      .parsed root'.tagName root'.children.length := by
    cases helements with
    | element hheads hchildren => rw [hheads.tagName_eq, hchildren.length_eq]
  rw [hparsed]
  exact .bind_same K.events_refl _ fun _ => .pure helements

end Parser

end MarkupCompiler
