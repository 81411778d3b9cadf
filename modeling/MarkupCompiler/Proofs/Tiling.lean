import MarkupCompiler.Proofs.Outcome

/-!
# The elements of a tree tile its source

In a tree whose elements are all closed, the slice of an element is its tag name, its attributes and
its children in order, each where its own location says, with only blanks between them.
-/

namespace MarkupCompiler

open Text Lexeme

/-- The pieces stand one after another from position `p` on, each after blanks and each at its own
location; `text` is all of it. -/
inductive Laid (source : Text) : Position → List (Text × Location) → Text → Prop
  | nil (p : Position) : Laid source p [] []
  | cons {p : Position} {gap part text : Text} {l : Location} {pieces : List (Text × Location)}
      (hgap : Blank gap) (hstart : l.start = p.advance gap) (hstop : l.stop = l.start.advance part)
      (hslice : l.slice source = .ok part) (hlater : Laid source l.stop pieces text) :
      Laid source p ((part, l) :: pieces) (gap ++ (part ++ text))

/-- The slice of an element is tiled by its tag name, its attributes and its children. -/
def Element.Tiled (source : Text) (e : Element) : Prop :=
  ∃ attributes gap content,
    e.location.slice source = .ok ('<' :: (e.tagName ++ (attributes ++ (gap ++ content)))) ∧
    Laid source (e.location.start.advance ('<' :: e.tagName))
      (e.attributes.map fun a => (a.raw, a.location)) attributes ∧
    Blank gap ∧
    (content = ['/', '>'] ∧ e.children = [] ∨
      ∃ (slices : List Text) (inner space name blanks : Text),
        content = '>' :: (inner ++ (space ++ '<' :: '/' :: (name ++ (blanks ++ ['>'])))) ∧
        slices.length = e.children.length ∧
        Laid source
          (e.location.start.advance ('<' :: (e.tagName ++ (attributes ++ (gap ++ ['>'])))))
          (slices.zip (e.children.map Node.location)) inner ∧
        Blank space ∧ IsTagName name ∧ Blank blanks)

namespace Parser

variable {g : Grammar}

theorem laid_of_attributesLayout {source before after text : Text} {attributes : List Attribute}
    (hlayout : AttributesLayout g after before attributes text)
    (hsource : source = before ++ (text ++ after)) :
    Laid source (.after before) (attributes.map fun a => (a.raw, a.location)) text := by
  induction hlayout with
  | nil before => exact .nil _
  | @cons before gap raw text attributes hgap hraw hread hlater ih =>
    rw [List.map_cons]
    refine .cons hgap ?_ ?_ ?_ ?_
    · simp [Attribute.read]
    · simp [Attribute.read]
    · have hslice := Location.slice_between (before ++ gap) raw (text ++ after)
      simpa [Attribute.read, hsource] using hslice
    · have htail := ih (by simpa using hsource)
      simpa [Attribute.read] using htail

theorem NodeLayout.location_eq {kind : ElementKind} {before after text : Text} {node : Node}
    (hlayout : NodeLayout g kind before after node text) :
    node.location = .between before text := by
  cases hlayout with
  | text hlayout => cases hlayout <;> rfl
  | selfClosed _ _ hlocation => exact hlocation
  | closed _ _ hlocation _ _ _ _ => exact hlocation

theorem laid_of_nodesLayout {source before after text : Text} {nodes : List Node}
    (hlayout : NodesLayout g before after nodes text)
    (hsource : source = before ++ (text ++ after)) :
    ∃ slices : List Text, slices.length = nodes.length ∧
      Laid source (.after before) (slices.zip (nodes.map Node.location)) text := by
  induction nodes generalizing before text with
  | nil =>
    cases hlayout
    exact ⟨[], rfl, .nil _⟩
  | cons node nodes ih =>
    cases hlayout with
    | @cons _ _ gap part rest _ _ hgap hnode hlater =>
      obtain ⟨slices, hlength, hlaid⟩ := ih hlater (by simpa using hsource)
      have hlocation := hnode.location_eq
      refine ⟨part :: slices, by simp [hlength], ?_⟩
      rw [List.map_cons, List.zip_cons_cons]
      refine .cons hgap ?_ ?_ ?_ ?_
      · simp [hlocation]
      · simp [hlocation]
      · have hslice := Location.slice_between (before ++ gap) part (rest ++ after)
        simpa [hlocation, hsource] using hslice
      · simpa [hlocation] using hlaid

theorem NodeLayout.tiled {kind : ElementKind} {source before after text : Text} {e : Element}
    (hlayout : NodeLayout g kind before after e.toNode text)
    (hsource : source = before ++ (text ++ after)) : e.Tiled source := by
  have hslice : e.location.slice source = .ok text := by
    have hlocation : e.location = .between before text := hlayout.location_eq
    rw [hlocation, hsource]
    exact Location.slice_between before text after
  have hstart : e.location.start = .after before := by
    have hlocation : e.location = .between before text := hlayout.location_eq
    rw [hlocation, Location.start_between]
  rw [Element.Tiled, hslice, hstart]
  obtain ⟨head, children⟩ := e
  cases hlayout with
  | selfClosed hhead _ _ =>
    cases hhead with
    | @intro attributes gap _ _ hattributes hgap =>
      refine ⟨attributes, gap, ['/', '>'], by simp [closing], ?_, hgap, .inl ⟨rfl, rfl⟩⟩
      have hlaid : Laid source _ _ attributes :=
        laid_of_attributesLayout hattributes (by simpa using hsource)
      simpa using hlaid
  | @closed _ _ _ _ inner space name blanks _ _ hhead _ _ hchildren hspace hname hblanks =>
    cases hhead with
    | @intro attributes gap _ _ hattributes hgap =>
      have hinside : source = before ++ ('<' :: (head.tagName ++ (attributes ++ gap)) ++
          closing false) ++ (inner ++ (space ++ (endTag name blanks ++ after))) := by
        simpa using hsource
      obtain ⟨slices, hlength, hinner⟩ := laid_of_nodesLayout hchildren hinside
      refine ⟨attributes, gap, _, by simp [closing, endTag], ?_, hgap,
        .inr ⟨slices, inner, space, name, blanks, rfl, hlength, ?_, hspace, hname, hblanks⟩⟩
      · have hlaid : Laid source _ _ attributes :=
          laid_of_attributesLayout hattributes (by simpa using hsource)
        simpa using hlaid
      · simpa [closing] using hinner

/-- Each of the nodes has its own part of the text, laid out in all that is around it. -/
theorem NodesLayout.exists_of_mem {before after text : Text} {node : Node} {nodes : List Node}
    (hlayout : NodesLayout g before after nodes text) (hmem : node ∈ nodes) :
    ∃ front back part, before ++ (text ++ after) = front ++ (part ++ back) ∧
      NodeLayout g .element front back node part := by
  induction nodes generalizing before text with
  | nil => cases hmem
  | cons first nodes ih =>
    cases hlayout with
    | @cons _ _ gap part rest _ _ hgap hfirst hlater =>
      rcases List.mem_cons.mp hmem with rfl | hmem
      · exact ⟨before ++ gap, rest ++ after, part, by simp, hfirst⟩
      · obtain ⟨front, back, part', hsplit, hnode⟩ := ih hlater hmem
        exact ⟨front, back, part', by rw [← hsplit]; simp, hnode⟩

theorem NodeLayout.exists_of_at? {kind : ElementKind} {before after text : Text} {root e : Element}
    {path : List Nat} (hlayout : NodeLayout g kind before after root.toNode text)
    (hat : root.at? path = some e) :
    ∃ kind front back part, before ++ (text ++ after) = front ++ (part ++ back) ∧
      NodeLayout g kind front back e.toNode part := by
  induction path generalizing kind before after text root with
  | nil =>
    obtain rfl : root = e := by simpa [Element.at?] using hat
    exact ⟨kind, before, after, text, rfl, hlayout⟩
  | cons i path ih =>
    rw [Element.at?] at hat
    split at hat
    · rename_i head children hchild
      have hmem : Node.element head children ∈ root.children := List.mem_of_getElem? hchild
      obtain ⟨rootHead, rootChildren⟩ := root
      cases hlayout with
      | selfClosed => cases hmem
      | @closed _ _ _ tag inner space name blanks _ _ _ _ _ hchildren _ _ _ =>
        obtain ⟨front, back, part, hsplit, hnode⟩ := hchildren.exists_of_mem hmem
        have hchild : NodeLayout g .element front back
          ({ head with children } : Element).toNode part := hnode
        obtain ⟨kind, front', back', part', hsplit', hnode'⟩ := ih hchild hat
        refine ⟨kind, front', back', part', ?_, hnode'⟩
        rw [← hsplit', ← hsplit]
        simp
    · cases hat

/-- **Lossless tiling.** When every element of the source is closed, the slice of each element is
tiled by the parts of that element. -/
theorem tiled_of_parse {source : Text} {root e : Element} {path : List Nat}
    (hparse : (parse g source).outcome = .ok root) (hroot : root.isEmptyRoot = false)
    (hclosed : ∀ d ∈ (parse g source).reports, d.cause ≠ .missingEndTag)
    (hat : root.at? path = some e) : e.Tiled source := by
  rcases parse_cases g source with ⟨root', hok, hparsed⟩ | ⟨_, _, _, _, _, _, _, hflaw, _⟩
  · generalize (parse g source).reports = reports at hclosed hparsed
    obtain rfl : root' = root := by simpa [hparse] using hok.symm
    cases hparsed with
    | empty => cases hroot
    | stray => cases hroot
    | complete hsource hlayout =>
      obtain ⟨_, front, back, part, hsplit, hnode⟩ := hlayout.exists_of_at? hat
      exact hnode.tiled (hsource.trans hsplit)
    | @unfinished _ _ frame frames _ _ _ =>
      exact absurd rfl (hclosed (missingEnd frame.head) (by simp))
  · rw [hparse] at hflaw
    cases hflaw

/-- The second child is an element inside of blanks, text and a mismatched end tag. -/
theorem tiled_of_parse_nested :
    let source := "<ul a = b c>\n \u00e9\x7b\x7b d \x7d\x7d <li e=\x22f\x22 /> </x >".toList
    ∃ root e, (parse {} source).outcome = .ok root ∧ root.at? [2] = some e ∧ e.Tiled source := by
  intro source
  have hfound : ((parse {} source).outcome.toOption.bind (·.at? [2])).isSome = true := by
    decide +kernel
  have hroot : (parse {} source).outcome.toOption.map (·.isEmptyRoot) = some false := by
    decide +kernel
  have hclosed : ∀ d ∈ (parse {} source).reports, d.cause ≠ .missingEndTag := by decide +kernel
  cases hparse : (parse {} source).outcome with
  | error stop =>
    rw [hparse] at hfound
    cases hfound
  | ok root =>
    rw [hparse] at hfound hroot
    obtain ⟨e, hat⟩ := Option.isSome_iff_exists.mp hfound
    exact ⟨root, e, rfl, hat, tiled_of_parse hparse (Option.some.inj hroot) hclosed hat⟩

end Parser

end MarkupCompiler
