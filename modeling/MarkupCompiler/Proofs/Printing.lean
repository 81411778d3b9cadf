import MarkupCompiler.Proofs.Completeness

/-!
# Parsing undoes printing

A tree can be printed in many ways: blanks stand between constructs, an end tag bears any name, an
element without children can be closed at once, and the text of an interpolation is trimmed when it
is read. Whichever way is taken, the parse gives the tree back, but for its locations.
-/

namespace MarkupCompiler

open Text Lexeme

/-! ### Trees without their locations -/

def Attribute.unlocated (a : Attribute) : Attribute :=
  { a with location := {} }

def TextRun.unlocated (t : TextRun) : TextRun :=
  { t with location := {} }

def Head.unlocated (h : Head) : Head :=
  { h with attributes := h.attributes.map Attribute.unlocated, location := {} }

mutual

def Node.unlocated : Node → Node
  | .text run => .text run.unlocated
  | .element head children => .element head.unlocated (Node.unlocatedList children)

def Node.unlocatedList : List Node → List Node
  | [] => []
  | node :: nodes => node.unlocated :: Node.unlocatedList nodes

end

def Element.unlocated (e : Element) : Element where
  toHead := e.toHead.unlocated
  children := Node.unlocatedList e.children

/-! ### What can be printed -/

/-- Opening delimiters are told from tags and from blanks. -/
structure Delimiters.Distinct (d : Delimiters) : Prop where
  ne_nil : d.opening ≠ []
  no_angle : '<' ∉ d.opening
  not_blank : Stops isBlank d.opening

/-- An attribute as it is before normalization: a binding just if its first character is one of the
markers. -/
structure Attribute.Printable (g : Grammar) (a : Attribute) : Prop where
  isAttribute : IsAttribute a.raw
  isDynamic : a.isDynamic = true ↔ ∃ c, a.raw.head? = some c ∧ c ∈ g.markers
  field : a.field = []
  value : a.value = []

structure Head.Printable (g : Grammar) (kind : ElementKind) (h : Head) : Prop where
  hasKind : h.kind = kind
  isTagName : IsTagName h.tagName
  attributes : ∀ a ∈ h.attributes, a.Printable g

/-- Plain text begins where blanks end, and holds no tag. -/
def TextRun.Printable (t : TextRun) : Prop :=
  t.kind = .plain → t.content ≠ [] ∧ Stops isBlank t.content ∧ '<' ∉ t.content

def Node.IsPlain : Node → Prop
  | .text run => run.kind = .plain
  | .element _ _ => False

instance (t : TextRun) : Decidable t.Printable :=
  inferInstanceAs (Decidable (t.kind = .plain → _))

instance : DecidablePred Node.IsPlain
  | .text run => inferInstanceAs (Decidable (run.kind = .plain))
  | .element _ _ => inferInstanceAs (Decidable False)

/-- Two runs of plain text would be read as one. -/
inductive Node.Printable (g : Grammar) : ElementKind → Node → Prop
  | text {kind : ElementKind} {run : TextRun} (hrun : run.Printable) :
      Node.Printable g kind (.text run)
  | element {kind : ElementKind} {head : Head} {children : List Node}
      (hhead : head.Printable g kind)
      (hchildren : ∀ node ∈ children, Node.Printable g .element node)
      (hapart : children.IsChain fun first next => ¬ (first.IsPlain ∧ next.IsPlain)) :
      Node.Printable g kind (.element head children)

theorem Attribute.unlocated_read {g : Grammar} {a : Attribute} (ha : a.Printable g)
    (before : Text) : (Attribute.read g before a.raw).unlocated = a.unlocated := by
  have hflag : g.isBinding a.raw = a.isDynamic := by
    rw [Bool.eq_iff_iff, Grammar.isBinding_iff, ha.isDynamic]
  simp [Attribute.read, Attribute.unlocated, hflag, ha.field, ha.value]

namespace Parser

/-! ### How it is printed -/

/-- Each attribute after blanks. -/
inductive PrintsAttributes : List Attribute → Text → Prop
  | nil : PrintsAttributes [] []
  | cons {gap text : Text} (a : Attribute) {attributes : List Attribute} (hgap : Blank gap)
      (hne : gap ≠ []) (hlater : PrintsAttributes attributes text) :
      PrintsAttributes (a :: attributes) (gap ++ (a.raw ++ text))

mutual

/-- A text that prints a node, when `after` follows it. -/
inductive Prints (g : Grammar) : Text → Node → Text → Prop
  | plain {after : Text} {run : TextRun} (hkind : run.kind = .plain)
      (habsent : Absent g.delimiters.opening run.content after) :
      Prints g after (.text run) run.content
  | interpolation {after body : Text} {run : TextRun} (hkind : run.kind = .interpolation)
      (htrim : trim body = run.content)
      (habsent : Absent g.delimiters.closing body g.delimiters.closing) :
      Prints g after (.text run) (g.delimiters.opening ++ (body ++ g.delimiters.closing))
  | selfClosed {after attributes gap : Text} {head : Head}
      (hattributes : PrintsAttributes head.attributes attributes) (hgap : Blank gap)
      (hspace : gap = [] → ∀ a ∈ head.attributes.getLast?, ¬ EndsBare a.raw) :
      Prints g after (.element head [])
        ('<' :: (head.tagName ++ (attributes ++ (gap ++ ['/', '>']))))
  | closed {after attributes gap inner name blanks : Text} {head : Head} {children : List Node}
      (hattributes : PrintsAttributes head.attributes attributes) (hgap : Blank gap)
      (hchildren : PrintsAll g (endTag name blanks ++ after) children inner)
      (hname : IsTagName name) (hblanks : Blank blanks) :
      Prints g after (.element head children)
        ('<' :: (head.tagName ++ (attributes ++ (gap ++ '>' :: (inner ++ endTag name blanks)))))

/-- A text that prints nodes with blanks around them, though none right after plain text. -/
inductive PrintsAll (g : Grammar) : Text → List Node → Text → Prop
  | nil {after gap : Text} (hgap : Blank gap) : PrintsAll g after [] gap
  | cons {after gap text rest : Text} {node : Node} {nodes : List Node} (hgap : Blank gap)
      (hnode : Prints g (rest ++ after) node text)
      (htight : node.IsPlain → Stops isBlank rest)
      (hlater : PrintsAll g after nodes rest) :
      PrintsAll g after (node :: nodes) (gap ++ (text ++ rest))

end

variable {g : Grammar}

/-! ### Start tags -/

theorem attribute?_before_attribute {raw gap next : Text} (hraw : IsAttribute raw)
    (hgap : Blank gap) (hne : gap ≠ []) (hnext : IsAttribute next) (tail : Text) :
    attribute? (raw ++ (gap ++ (next ++ tail))) = .ok (some (byteSize raw)) := by
  have hsign : Stops (· == '=') (next ++ tail) := by
    obtain ⟨c, cs, rfl, hc⟩ := exists_cons_of_isAttribute hnext
    rw [List.cons_append, stops_cons, beq_eq_false_iff_ne]
    rintro rfl
    cases hc
  refine attribute?_append hraw hgap (stops_isBlank_of_isAttribute hnext tail) hsign ?_ ?_
  · exact stops_append (fun c => not_isAttributeNameChar_of_isBlank) hgap (absurd · hne)
  · exact fun _ => stops_append (fun c => not_isBareValueChar_of_isBlank) hgap (absurd · hne)

theorem attribute?_before_closing {raw gap : Text} {isSelfClosing : Bool} (hraw : IsAttribute raw)
    (hgap : Blank gap) (hspace : isSelfClosing = true → gap = [] → ¬ EndsBare raw) (tail : Text) :
    attribute? (raw ++ (gap ++ (closing isSelfClosing ++ tail))) = .ok (some (byteSize raw)) := by
  have hsign : Stops (· == '=') (closing isSelfClosing ++ tail) := by
    cases isSelfClosing <;> exact stops_cons.mpr rfl
  have hname : Stops isAttributeNameChar (closing isSelfClosing ++ tail) := by
    cases isSelfClosing <;> exact stops_cons.mpr rfl
  refine attribute?_append hraw hgap (stops_isBlank_closing isSelfClosing tail) hsign ?_ ?_
  · exact stops_append (fun c => not_isAttributeNameChar_of_isBlank) hgap (fun _ => hname)
  · intro hbare
    refine stops_append (fun c => not_isBareValueChar_of_isBlank) hgap fun hempty => ?_
    cases isSelfClosing with
    | false => exact stops_cons.mpr rfl
    | true => exact absurd hbare (hspace rfl hempty)

theorem exists_attributesLayout {attributes : List Attribute} {text : Text}
    (hprints : PrintsAttributes attributes text) (before : Text) {after : Text}
    (hattributes : ∀ a ∈ attributes, a.Printable g)
    (hlast : ∀ a ∈ attributes.getLast?,
      attribute? (a.raw ++ after) = .ok (some (byteSize a.raw))) :
    ∃ located, AttributesLayout g after before located text ∧
      located.map Attribute.unlocated = attributes.map Attribute.unlocated := by
  induction hprints generalizing before with
  | nil => exact ⟨[], .nil before, rfl⟩
  | @cons gap text a attributes hgap hne hlater ih =>
    rw [List.forall_mem_cons] at hattributes
    obtain ⟨ha, hattributes⟩ := hattributes
    have hread : attribute? (a.raw ++ (text ++ after)) = .ok (some (byteSize a.raw)) := by
      cases hlater with
      | nil => exact hlast a rfl
      | @cons gap' text' next _ hgap' hne' _ =>
        rw [List.append_assoc, List.append_assoc]
        exact attribute?_before_attribute ha.isAttribute hgap' hne'
          (hattributes next (by simp)).isAttribute _
    obtain ⟨located, hlocated, heq⟩ := ih (before ++ (gap ++ a.raw)) hattributes fun b hb =>
      hlast b (by simp [List.getLast?_cons, Option.mem_def.mp hb])
    refine ⟨.read g (before ++ gap) a.raw :: located, .cons hgap ha.isAttribute hread hlocated, ?_⟩
    rw [List.map_cons, List.map_cons, heq, Attribute.unlocated_read ha]

theorem PrintsAttributes.stops_isNameChar {attributes : List Attribute} {text tail : Text}
    (hprints : PrintsAttributes attributes text) (htail : Stops isNameChar tail) :
    Stops isNameChar (text ++ tail) := by
  cases hprints with
  | nil => exact htail
  | cons a hgap hne _ =>
    rw [List.append_assoc]
    exact stops_append (fun c => not_isNameChar_of_isBlank) hgap (absurd · hne)

theorem exists_headLayout {kind : ElementKind} {head : Head} {attributes gap : Text}
    (isSelfClosing : Bool) (hhead : head.Printable g kind)
    (hprints : PrintsAttributes head.attributes attributes) (hgap : Blank gap)
    (hspace : isSelfClosing = true → gap = [] →
      ∀ a ∈ head.attributes.getLast?, ¬ EndsBare a.raw)
    (before tail : Text) (location : Location) :
    ∃ located : Head, HeadLayout g before (closing isSelfClosing ++ tail) located
        ('<' :: (head.tagName ++ (attributes ++ gap))) ∧
      located.kind = kind ∧ located.location = location ∧ located.unlocated = head.unlocated := by
  have hname : Stops isNameChar (closing isSelfClosing ++ tail) := by
    cases isSelfClosing <;> exact stops_cons.mpr rfl
  have hstop : Stops isNameChar (attributes ++ (gap ++ (closing isSelfClosing ++ tail))) :=
    hprints.stops_isNameChar
      (stops_append (fun c => not_isNameChar_of_isBlank) hgap fun _ => hname)
  obtain ⟨located, hlocated, heq⟩ := exists_attributesLayout hprints (before ++ '<' :: head.tagName)
    hhead.attributes fun a ha => attribute?_before_closing
      (hhead.attributes a (List.mem_of_getLast? ha)).isAttribute hgap
      (fun hself hempty => hspace hself hempty a ha) tail
  refine ⟨{ head with attributes := located, location }, .intro hhead.isTagName hstop hlocated hgap,
    hhead.hasKind, rfl, ?_⟩
  simp [Head.unlocated, heq]

/-! ### Nodes -/

theorem PrintsAll.endsText {after rest : Text} {nodes : List Node}
    (hprints : PrintsAll g after nodes rest) (hdistinct : g.delimiters.Distinct)
    (htight : Stops isBlank rest) (hnext : ∀ node ∈ nodes.head?, ¬ node.IsPlain)
    (hafter : ['<'] <+: after) : EndsText g.delimiters.opening (rest ++ after) := by
  cases hprints with
  | nil hgap =>
    obtain rfl := hgap.eq_nil_of_stops (by rwa [List.append_nil])
    exact .inr (.inl hafter)
  | cons hgap hnode _ _ =>
    obtain rfl := hgap.eq_nil_of_stops htight
    cases hnode with
    | plain hkind _ => exact absurd hkind (hnext _ rfl)
    | interpolation =>
      refine .inr (.inr ⟨hdistinct.ne_nil, ?_⟩)
      simp
    | selfClosed | closed => exact .inr (.inl ⟨_, rfl⟩)

theorem plainLayout_of_absent {after content : Text} (hdistinct : g.delimiters.Distinct)
    (hne : content ≠ []) (hblank : Stops isBlank content) (hangle : '<' ∉ content)
    (habsent : Absent g.delimiters.opening content after)
    (hends : EndsText g.delimiters.opening after) : PlainLayout g after content where
  ne_nil := hne
  not_blank := hblank
  no_angle := hangle
  not_opening := fun _ => habsent 0 (List.length_pos_iff.mpr hne)
  ends := hends
  size := by
    obtain ⟨c, more, rfl⟩ := List.exists_cons_of_ne_nil hne
    have hmore : '<' ∉ more := fun hmem => hangle (List.mem_cons_of_mem c hmem)
    exact textSize_append c hdistinct.no_angle hmore (fun _ => (absent_cons.mp habsent).2) hends

theorem interpolationLayout_of_absent {body : Text} (hdistinct : g.delimiters.Distinct)
    (habsent : Absent g.delimiters.closing body g.delimiters.closing) (after : Text) :
    InterpolationLayout g after body where
  ne_nil := hdistinct.ne_nil
  not_blank := hdistinct.not_blank
  not_angle := by
    intro c hc
    rw [beq_eq_false_iff_ne]
    rintro rfl
    exact hdistinct.no_angle (List.mem_of_mem_head? hc)
  closing_absent := habsent.extend after

mutual

theorem Prints.exists_layout {kind : ElementKind} {after text : Text} {node : Node}
    (hdistinct : g.delimiters.Distinct) (before : Text) (hnode : node.Printable g kind)
    (hends : node.IsPlain → EndsText g.delimiters.opening after) :
    Prints g after node text →
      ∃ located, NodeLayout g kind before after located text ∧ located.unlocated = node.unlocated
  | @Prints.plain _ _ run hkind habsent => by
    cases hnode with
    | text hrun =>
      obtain ⟨hne, hblank, hangle⟩ := hrun hkind
      refine ⟨.text (.readPlain before run.content), .text (.plain ?_), ?_⟩
      · exact plainLayout_of_absent hdistinct hne hblank hangle habsent (hends hkind)
      · simp [Node.unlocated, TextRun.unlocated, TextRun.readPlain, hkind]
  | @Prints.interpolation _ _ body run hkind htrim habsent => by
    refine ⟨.text (.readInterpolation g.delimiters before body), .text (.interpolation ?_), ?_⟩
    · exact interpolationLayout_of_absent hdistinct habsent after
    · simp [Node.unlocated, TextRun.unlocated, TextRun.readInterpolation, hkind, htrim]
  | @Prints.selfClosed _ _ attributes gap head hattributes hgap hspace => by
    cases hnode with
    | element hhead _ _ =>
      obtain ⟨located, hlayout, hkind, hlocation, heq⟩ :=
        exists_headLayout true hhead hattributes hgap (fun _ => hspace) before after
          (.between before ('<' :: (head.tagName ++ (attributes ++ gap)) ++ closing true))
      refine ⟨.element located [], ?_, by simp [Node.unlocated, heq]⟩
      simpa [closing] using NodeLayout.selfClosed hlayout hkind hlocation
  | @Prints.closed _ _ attributes gap inner name blanks head children hattributes hgap hchildren
      hname hblanks => by
    cases hnode with
    | element hhead hnodes hapart =>
      let tag := '<' :: (head.tagName ++ (attributes ++ gap))
      -- the children first: the location of their element ends after them
      obtain ⟨nodes, text, gap', rfl, hgap', hlocated, hsame⟩ :=
        hchildren.exists_layout hdistinct (before ++ (tag ++ closing false)) hnodes hapart ⟨_, rfl⟩
      obtain ⟨located, hlayout, hkind, hlocation, heq⟩ :=
        exists_headLayout false hhead hattributes hgap (by simp) before
          (text ++ (gap' ++ (endTag name blanks ++ after)))
          (.between before (tag ++ (closing false ++ (text ++ (gap' ++ endTag name blanks)))))
      refine ⟨.element located nodes, ?_, by simp [Node.unlocated, heq, hsame]⟩
      simpa [closing, tag] using
        NodeLayout.closed hlayout hkind hlocation hlocated hgap' hname hblanks

theorem PrintsAll.exists_layout {after inner : Text} {nodes : List Node}
    (hdistinct : g.delimiters.Distinct) (before : Text)
    (hnodes : ∀ node ∈ nodes, node.Printable g .element)
    (hapart : nodes.IsChain fun first next => ¬ (first.IsPlain ∧ next.IsPlain))
    (hafter : ['<'] <+: after) :
    PrintsAll g after nodes inner →
      ∃ located text gap, inner = text ++ gap ∧ Blank gap ∧
        NodesLayout g before (gap ++ after) located text ∧
        Node.unlocatedList located = Node.unlocatedList nodes
  | .nil hgap => ⟨[], [], _, rfl, hgap, .nil _ _, rfl⟩
  | @PrintsAll.cons _ _ gap text rest node nodes hgap hnode htight hlater => by
    rw [List.forall_mem_cons] at hnodes
    have hchain : nodes.IsChain (fun first next => ¬ (first.IsPlain ∧ next.IsPlain)) ∧
        ∀ next ∈ nodes.head?, ¬ (node.IsPlain ∧ next.IsPlain) := by
      cases nodes with
      | nil => simp
      | cons next nodes =>
        rw [List.isChain_cons_cons] at hapart
        simpa [and_comm] using hapart
    -- right after plain text comes a tag or an interpolation: no blank, and no more plain text
    have hends : node.IsPlain → EndsText g.delimiters.opening (rest ++ after) := fun hplain =>
      hlater.endsText hdistinct (htight hplain)
        (fun next hnext hsame => hchain.2 next hnext ⟨hplain, hsame⟩) hafter
    obtain ⟨first, hfirst, hfirstSame⟩ :=
      hnode.exists_layout hdistinct (before ++ gap) hnodes.1 hends
    obtain ⟨later, more, gap', rfl, hgap', hlocated, hlaterSame⟩ :=
      hlater.exists_layout hdistinct (before ++ (gap ++ text)) hnodes.2 hchain.1 hafter
    refine ⟨first :: later, gap ++ (text ++ more), gap', by simp, hgap', ?_, ?_⟩
    · exact .cons hgap (by simpa using hfirst) hlocated
    · simp [Node.unlocatedList, hfirstSame, hlaterSame]

end

/-- **Parsing undoes printing.** Whichever way a tree is printed, nothing is reported and the tree
is given back, but for its locations. -/
theorem parse_of_prints {t : Element} {lead text trail : Text}
    (hdistinct : g.delimiters.Distinct) (htree : t.toNode.Printable g .root)
    (hprints : Prints g trail t.toNode text) (hlead : Blank lead) (htrail : Blank trail) :
    ∃ root, (parse g (lead ++ (text ++ trail))).outcome = .ok root ∧
      (parse g (lead ++ (text ++ trail))).reports = [] ∧ root.unlocated = t.unlocated := by
  obtain ⟨located, hlayout, hsame⟩ :=
    hprints.exists_layout hdistinct lead htree (fun hplain => hplain.elim)
  cases located with
  | text run => cases hsame
  | element head children =>
    have hroot : NodeLayout g .root lead trail (⟨head, children⟩ : Element).toNode text := hlayout
    obtain ⟨houtcome, hreports⟩ := parse_of_layout hlead hroot
    refine ⟨⟨head, children⟩, houtcome, ?_, ?_⟩
    · rw [hreports, checkTrailing_reports_of_blank _ htrail]
    · simp only [Element.toNode, Node.unlocated, Node.element.injEq] at hsame
      simp only [Element.unlocated, hsame]

/-- A bare value stands before a blank, an attribute that is no binding holds an angle, plain text
touches an interpolation, and the end tag has another name. -/
theorem parse_of_prints_list :
    let t : Element :=
      { kind := .root, tagName := ['u', 'l']
        attributes :=
          [{ isDynamic := true, raw := [':', 'a', '=', 'b'] },
            { isDynamic := false, raw := ['i', 'd', ' ', '=', '\x22', ':', '>', '\x22'] }]
        children := [.text { content := ['x', ' '] },
          .text { kind := .interpolation, content := ['d'] }] }
    let source := "\n<ul :a=b\tid =\x22:>\x22 >x \x7b\x7b d \x7d\x7d </p\t> ".toList
    ∃ root, (parse {} source).outcome = .ok root ∧ (parse {} source).reports = [] ∧
      root.unlocated = t.unlocated := by
  intro t source
  have hbinding : IsAttribute ([':', 'a'] ++ ([] ++ '=' :: ([] ++ ['b']))) :=
    .assigned (by decide) blank_nil blank_nil (.bare (by decide))
  have hquoted : IsAttribute
      (['i', 'd'] ++ ([' '] ++ '=' :: ([] ++ '\x22' :: ([':', '>'] ++ ['\x22'])))) :=
    .assigned (by decide) (by decide) blank_nil (.quoted rfl (by decide))
  have htree : t.toNode.Printable {} .root := by
    refine .element ⟨rfl, by decide, ?_⟩ ?_ (by decide)
    · exact List.forall_mem_cons.mpr ⟨⟨hbinding, by simp, rfl, rfl⟩,
        List.forall_mem_singleton.mpr ⟨hquoted, by simp, rfl, rfl⟩⟩
    · exact List.forall_mem_cons.mpr
        ⟨.text (by decide), List.forall_mem_singleton.mpr (.text (by decide))⟩
  have hattributes : PrintsAttributes t.attributes
      ([' '] ++ ([':', 'a', '=', 'b'] ++
        (['\t'] ++ (['i', 'd', ' ', '=', '\x22', ':', '>', '\x22'] ++ [])))) :=
    .cons _ (by decide) (by decide) (.cons _ (by decide) (by decide) .nil)
  have hexpression : Prints {} ([' '] ++ (endTag ['p'] ['\t'] ++ [' ']))
      (.text { kind := .interpolation, content := ['d'] })
      (['\x7b', '\x7b'] ++ ([' ', 'd', ' '] ++ ['\x7d', '\x7d'])) :=
    .interpolation rfl (by decide) (by decide)
  have hlater : PrintsAll {} (endTag ['p'] ['\t'] ++ [' '])
      [.text { kind := .interpolation, content := ['d'] }] _ :=
    .cons blank_nil hexpression (by decide) (.nil (by decide))
  have hchildren : PrintsAll {} (endTag ['p'] ['\t'] ++ [' ']) t.children _ :=
    .cons blank_nil (.plain rfl (by decide)) (by decide) hlater
  have hprints : Prints {} [' '] t.toNode _ :=
    .closed hattributes (show Blank [' '] by decide) hchildren (by decide) (by decide)
  exact parse_of_prints ⟨by decide, by decide, by decide⟩ htree hprints
    (show Blank ['\n'] by decide) (by decide)

end Parser

end MarkupCompiler
