import MarkupCompiler.Proofs.Text
import MarkupCompiler.Source.Lexeme

/-!
# What the readers of lexemes accept

For each reader, a lemma `_cases` says all it can come to, so that a cut inside it never fails, and
a lemma `_append` says which texts it is bound to accept, and what may follow them.
-/

namespace MarkupCompiler.Lexeme

open Text

/-- A letter, and then letters, digits, hyphens and underscores. -/
def IsTagName (name : Text) : Prop :=
  (∃ c ∈ name.head?, c.isAlpha = true) ∧ ∀ c ∈ name, isNameChar c = true

/-- The end tag of a name, with the blanks after it. -/
def endTag (name blanks : Text) : Text :=
  '<' :: '/' :: (name ++ (blanks ++ ['>']))

/-- The name of an attribute. -/
def IsAttributeName (name : Text) : Prop :=
  name ≠ [] ∧ ∀ c ∈ name, isAttributeNameChar c = true

/-- A value without quotes. -/
def IsBareValue (value : Text) : Prop :=
  value ≠ [] ∧ ∀ c ∈ value, isBareValueChar c = true

/-- The value of an attribute. -/
inductive IsValue : Text → Prop
  | quoted {q : Char} {inner : Text} (hquote : isQuote q = true) (hinner : q ∉ inner) :
      IsValue (q :: (inner ++ [q]))
  | bare {value : Text} (hvalue : IsBareValue value) : IsValue value

/-- An attribute, with or without a value. -/
inductive IsAttribute : Text → Prop
  | name {name : Text} (hname : IsAttributeName name) : IsAttribute name
  | assigned {name before after value : Text} (hname : IsAttributeName name)
      (hbefore : Blank before) (hafter : Blank after) (hvalue : IsValue value) :
      IsAttribute (name ++ (before ++ '=' :: (after ++ value)))

/-- An attribute that ends in a value without quotes, which a slash would go on with. -/
inductive EndsBare : Text → Prop
  | intro {name before after value : Text} (hname : IsAttributeName name) (hbefore : Blank before)
      (hafter : Blank after) (hvalue : IsBareValue value) :
      EndsBare (name ++ (before ++ '=' :: (after ++ value)))

/-- Plain text does not go on with this: nothing, a tag, or an opening delimiter. -/
def EndsText (opening tail : Text) : Prop :=
  tail = [] ∨ ['<'] <+: tail ∨ opening ≠ [] ∧ opening <+: tail

instance (name : Text) : Decidable (IsTagName name) :=
  decidable_of_iff (name.head?.any Char.isAlpha = true ∧ name.all isNameChar = true)
    (by cases name <;> simp [IsTagName])

instance (name : Text) : Decidable (IsAttributeName name) :=
  decidable_of_iff (name ≠ [] ∧ name.all isAttributeNameChar = true) (by simp [IsAttributeName])

instance (value : Text) : Decidable (IsBareValue value) :=
  decidable_of_iff (value ≠ [] ∧ value.all isBareValueChar = true) (by simp [IsBareValue])

/-! ### Classes of characters -/

theorem utf8Size_of_isQuote {c : Char} (hquote : isQuote c = true) : c.utf8Size = 1 := by
  simp only [isQuote, Bool.or_eq_true, beq_iff_eq] at hquote
  rcases hquote with rfl | rfl <;> rfl

theorem utf8Size_of_isBlank {c : Char} (hblank : isBlank c = true) : c.utf8Size = 1 := by
  simp only [isBlank, Bool.or_eq_true, beq_iff_eq] at hblank
  rcases hblank with (((rfl | rfl) | rfl) | rfl) | rfl <;> rfl

/-- What ends the name of an attribute is one byte long. -/
theorem utf8Size_of_not_isAttributeNameChar {c : Char} (hc : isAttributeNameChar c = false) :
    c.utf8Size = 1 := by
  simp only [isAttributeNameChar, Bool.not_eq_false', Bool.or_eq_true, beq_iff_eq] at hc
  rcases hc with ((((hblank | hquote) | rfl) | rfl) | rfl) | rfl
  · exact utf8Size_of_isBlank hblank
  · exact utf8Size_of_isQuote hquote
  all_goals rfl

theorem not_isAttributeNameChar_of_isBlank {c : Char} (hblank : isBlank c = true) :
    isAttributeNameChar c = false := by
  simp [isAttributeNameChar, hblank]

theorem not_isBareValueChar_of_isBlank {c : Char} (hblank : isBlank c = true) :
    isBareValueChar c = false := by
  simp [isBareValueChar, hblank]

theorem not_isBlank_of_isQuote {c : Char} (hquote : isQuote c = true) : isBlank c = false := by
  simp only [isQuote, Bool.or_eq_true, beq_iff_eq] at hquote
  rcases hquote with rfl | rfl <;> rfl

theorem not_isNameChar_of_isBlank {c : Char} (hblank : isBlank c = true) :
    isNameChar c = false := by
  simp only [isBlank, Bool.or_eq_true, beq_iff_eq] at hblank
  rcases hblank with (((rfl | rfl) | rfl) | rfl) | rfl <;> rfl

/-- A gap keeps what follows it out of a class without blanks, and no gap leaves that to it. -/
theorem stops_append {p : Char → Bool} {gap rest : Text}
    (hblanks : ∀ c, isBlank c = true → p c = false) (hgap : Blank gap)
    (hrest : gap = [] → Stops p rest) : Stops p (gap ++ rest) := by
  cases gap with
  | nil => exact hrest rfl
  | cons c gap => exact stops_cons.mpr (hblanks c (hgap c (by simp)))

/-! ### Names of tags -/

theorem IsTagName.ne_nil {name : Text} (hname : IsTagName name) : name ≠ [] := by
  rintro rfl
  obtain ⟨c, hc, _⟩ := hname.1
  cases hc

theorem IsTagName.byteSize_ne_zero {name : Text} (hname : IsTagName name) : byteSize name ≠ 0 :=
  fun hzero => hname.ne_nil (byteSize_eq_zero_iff.mp hzero)

theorem nameSize_append {name tail : Text} (hname : IsTagName name)
    (htail : Stops isNameChar tail) : nameSize (name ++ tail) = byteSize name := by
  have htake := takeWhile_append_of_stops hname.2 htail
  obtain ⟨⟨c, hc, halpha⟩, _⟩ := hname
  cases name with
  | nil => cases hc
  | cons d name =>
    obtain rfl : d = c := by simpa using hc
    rw [List.cons_append] at htake ⊢
    simp only [nameSize, halpha, if_true, htake]

theorem nameSize_cases (cs : Text) :
    nameSize cs = 0 ∨ ∃ name tail, cs = name ++ tail ∧ IsTagName name ∧ Stops isNameChar tail ∧
      nameSize cs = byteSize name := by
  cases cs with
  | nil => exact .inl rfl
  | cons c cs =>
    by_cases halpha : c.isAlpha = true
    · right
      obtain ⟨name, tail, hsplit, hname, htail⟩ := exists_run isNameChar cs
      have hnameChar : isNameChar c = true := by simp [isNameChar, Char.isAlphanum, halpha]
      have htagName : IsTagName (c :: name) := by
        refine ⟨⟨c, rfl, halpha⟩, ?_⟩
        intro d hd
        rcases List.mem_cons.mp hd with rfl | hd
        · exact hnameChar
        · exact hname d hd
      refine ⟨c :: name, tail, by rw [hsplit, List.cons_append], htagName, htail, ?_⟩
      rw [hsplit, ← List.cons_append, nameSize_append htagName htail]
    · left
      simp [nameSize, halpha]

theorem tagOpening?_append {name tail : Text} (hname : IsTagName name)
    (htail : Stops isNameChar tail) :
    tagOpening? ('<' :: (name ++ tail)) = some (byteSize ('<' :: name)) := by
  have hsize := nameSize_append hname htail
  have hne := hname.byteSize_ne_zero
  simp only [tagOpening?, hsize, byteSize_cons]
  rw [Nat.add_comm]
  rfl

theorem tagOpening?_cases (cs : Text) :
    tagOpening? ('<' :: cs) = none ∨
      ∃ name tail, cs = name ++ tail ∧ IsTagName name ∧ Stops isNameChar tail ∧
        tagOpening? ('<' :: cs) = some (byteSize ('<' :: name)) := by
  rcases nameSize_cases cs with hzero | ⟨name, tail, rfl, hname, htail, _⟩
  · left
    simp [tagOpening?, hzero]
  · exact .inr ⟨name, tail, rfl, hname, htail, tagOpening?_append hname htail⟩

theorem endTag_append (name blanks tail : Text) :
    endTag name blanks ++ tail = '<' :: '/' :: (name ++ (blanks ++ '>' :: tail)) := by
  simp [endTag]

theorem endTag?_append {name blanks : Text} (hname : IsTagName name) (hblanks : Blank blanks)
    (tail : Text) :
    endTag? (endTag name blanks ++ tail) = .ok (some (name, byteSize (endTag name blanks))) := by
  have hstop : Stops isNameChar (blanks ++ '>' :: tail) :=
    stops_append (fun c => not_isNameChar_of_isBlank) hblanks (fun _ => stops_cons.mpr rfl)
  have hclose : Stops isBlank ('>' :: tail) := stops_cons.mpr rfl
  have hne := hname.byteSize_ne_zero
  have hangle : Char.utf8Size '<' = 1 ∧ Char.utf8Size '/' = 1 ∧ Char.utf8Size '>' = 1 := by decide
  rw [endTag_append]
  simp only [endTag?, bind, Except.bind, pure, Except.pure, nameSize_append hname hstop, hne,
    if_false, cut_append, takeWhile_append_of_stops hblanks hclose, endTag, byteSize_cons,
    byteSize_append, byteSize_nil, hangle]
  congr 3
  omega

theorem endTag?_cases (cs : Text) :
    endTag? cs = .ok none ∨
      ∃ name blanks tail, cs = endTag name blanks ++ tail ∧ IsTagName name ∧ Blank blanks ∧
        endTag? cs = .ok (some (name, byteSize (endTag name blanks))) := by
  by_cases hstart : ∃ inner, cs = '<' :: '/' :: inner
  · obtain ⟨inner, rfl⟩ := hstart
    rcases nameSize_cases inner with hzero | ⟨name, rest, rfl, hname, hrest, hsize⟩
    · left
      simp [endTag?, hzero, pure, Except.pure]
    · obtain ⟨blanks, rest, rfl, hblanks, hstop⟩ := exists_run isBlank rest
      by_cases hclose : ∃ tail, rest = '>' :: tail
      · obtain ⟨tail, rfl⟩ := hclose
        rw [← endTag_append]
        exact .inr ⟨name, blanks, tail, rfl, hname, hblanks, endTag?_append hname hblanks tail⟩
      · left
        have hne := hname.byteSize_ne_zero
        simp only [endTag?, bind, Except.bind, pure, Except.pure, hsize, hne, if_false,
          cut_append, cut_takeWhile hblanks hstop]
        split
        · rename_i tail
          exact absurd ⟨tail, rfl⟩ hclose
        · rfl
  · left
    unfold endTag?
    split
    · rename_i inner
      exact absurd ⟨inner, rfl⟩ hstart
    · rfl

/-! ### Attributes -/

theorem IsBareValue.byteSize_ne_zero {value : Text} (hvalue : IsBareValue value) :
    byteSize value ≠ 0 :=
  fun hzero => hvalue.1 (byteSize_eq_zero_iff.mp hzero)

theorem valueSize_quoted {q : Char} {inner : Text} (hquote : isQuote q = true)
    (hinner : q ∉ inner) (tail : Text) :
    valueSize ((q :: (inner ++ [q])) ++ tail) = .ok (some (byteSize (q :: (inner ++ [q])))) := by
  have hsize := utf8Size_of_isQuote hquote
  have hbody : cut 1 (q :: (inner ++ ([q] ++ tail))) = .ok ([q], inner ++ ([q] ++ tail)) := by
    rw [← hsize, cut_first]
  have hfind : find? [q] (inner ++ ([q] ++ tail)) = some (byteSize inner) :=
    find?_append (absent_singleton.mpr hinner)
  rw [List.cons_append, List.append_assoc]
  simp only [valueSize, hquote, if_true, hbody, hfind, Option.map_some, byteSize_cons,
    byteSize_append, byteSize_nil, hsize]
  congr 2
  omega

theorem valueSize_bare {value tail : Text} (hvalue : IsBareValue value)
    (htail : Stops isBareValueChar tail) :
    valueSize (value ++ tail) = .ok (some (byteSize value)) := by
  have htake := takeWhile_append_of_stops hvalue.2 htail
  have hne := hvalue.byteSize_ne_zero
  obtain ⟨hvalue, hchars⟩ := hvalue
  cases value with
  | nil => exact absurd rfl hvalue
  | cons c value =>
    have hnotQuote : isQuote c = false := by
      have hchar := hchars c (by simp)
      simp only [isBareValueChar, Bool.not_eq_true', Bool.or_eq_false_iff] at hchar
      exact hchar.1.1.1.1.2
    rw [List.cons_append] at htake ⊢
    simp only [valueSize, hnotQuote, Bool.false_eq_true, if_false, htake]

theorem valueSize_cases (cs : Text) :
    valueSize cs = .ok none ∨
      ∃ value tail, cs = value ++ tail ∧ IsValue value ∧
        valueSize cs = .ok (some (byteSize value)) := by
  cases cs with
  | nil => exact .inl rfl
  | cons c cs =>
    by_cases hquote : isQuote c = true
    · have hbody : cut 1 (c :: cs) = .ok ([c], cs) := by
        rw [cut_eq_ok_iff]
        exact ⟨rfl, by simp [utf8Size_of_isQuote hquote]⟩
      cases hfind : find? [c] cs with
      | none =>
        left
        simp only [valueSize, hquote, if_true, hbody, hfind, Option.map_none]
      | some size =>
        right
        obtain ⟨inner, tail, rfl, _, habsent⟩ := exists_of_find? hfind
        have hinner := absent_singleton.mp habsent
        refine ⟨c :: (inner ++ [c]), tail, by simp, .quoted hquote hinner, ?_⟩
        rw [← valueSize_quoted hquote hinner tail]
        simp
    · obtain ⟨value, tail, hsplit, hvalue, htail⟩ := exists_run isBareValueChar (c :: cs)
      by_cases hempty : value = []
      · left
        have htake := takeWhile_append_of_stops hvalue htail
        rw [← hsplit, hempty] at htake
        simp only [valueSize, hquote, Bool.false_eq_true, if_false, htake, byteSize_nil]
      · right
        refine ⟨value, tail, hsplit, .bare ⟨hempty, hvalue⟩, ?_⟩
        rw [hsplit, valueSize_bare ⟨hempty, hvalue⟩ htail]

theorem IsValue.stops_isBlank {value : Text} (hvalue : IsValue value) (tail : Text) :
    Stops isBlank (value ++ tail) := by
  cases hvalue with
  | quoted hquote _ => exact stops_cons.mpr (not_isBlank_of_isQuote hquote)
  | bare hbare =>
    obtain ⟨hne, hchars⟩ := hbare
    cases value with
    | nil => exact absurd rfl hne
    | cons c value =>
      rw [List.cons_append, stops_cons]
      by_contra hblank
      have hnot := not_isBareValueChar_of_isBlank (by simpa using hblank)
      rw [hchars c (by simp)] at hnot
      cases hnot

theorem assignmentSize_append {before after value tail : Text} (hbefore : Blank before)
    (hafter : Blank after) (hvalue : IsValue value)
    (hread : valueSize (value ++ tail) = .ok (some (byteSize value))) :
    assignmentSize (before ++ '=' :: (after ++ (value ++ tail))) =
      .ok (some (byteSize (before ++ '=' :: (after ++ value)))) := by
  have hsign : Stops isBlank ('=' :: (after ++ (value ++ tail))) := stops_cons.mpr rfl
  have hstart := hvalue.stops_isBlank tail
  have hequals : Char.utf8Size '=' = 1 := by decide
  simp only [assignmentSize, bind, Except.bind, pure, Except.pure,
    takeWhile_append_of_stops hbefore hsign, takeWhile_append_of_stops hafter hstart, cut_append,
    hread, Option.map_some, byteSize_append, byteSize_cons, hequals]
  congr 2
  omega

theorem assignmentSize_cases (cs : Text) :
    assignmentSize cs = .ok none ∨
      ∃ before after value tail, cs = before ++ '=' :: (after ++ (value ++ tail)) ∧
        Blank before ∧ Blank after ∧ IsValue value ∧
        assignmentSize cs = .ok (some (byteSize (before ++ '=' :: (after ++ value)))) := by
  obtain ⟨before, sign, rfl, hbefore, hsign⟩ := exists_run isBlank cs
  by_cases hequals : ∃ tail, sign = '=' :: tail
  · obtain ⟨tail, rfl⟩ := hequals
    obtain ⟨after, start, rfl, hafter, hstart⟩ := exists_run isBlank tail
    rcases valueSize_cases start with hnone | ⟨value, tail, rfl, hvalue, hread⟩
    · left
      simp only [assignmentSize, bind, Except.bind, pure, Except.pure,
        takeWhile_append_of_stops hbefore hsign, takeWhile_append_of_stops hafter hstart,
        cut_append, hnone, Option.map_none]
    · exact .inr ⟨before, after, value, tail, rfl, hbefore, hafter, hvalue,
        assignmentSize_append hbefore hafter hvalue hread⟩
  · left
    simp only [assignmentSize, bind, Except.bind, pure, Except.pure,
      takeWhile_append_of_stops hbefore hsign, cut_append]
    split
    · rename_i tail
      exact absurd ⟨tail, rfl⟩ hequals
    · rfl

theorem IsAttributeName.byteSize_ne_zero {name : Text} (hname : IsAttributeName name) :
    byteSize name ≠ 0 :=
  fun hzero => hname.1 (byteSize_eq_zero_iff.mp hzero)

theorem attribute?_eq {name tail : Text} (hname : IsAttributeName name)
    (htail : Stops isAttributeNameChar tail) :
    attribute? (name ++ tail) =
      (assignmentSize tail).map fun size => some (byteSize name + size.getD 0) := by
  have htake := takeWhile_append_of_stops hname.2 htail
  have hne := hname.byteSize_ne_zero
  simp only [attribute?, bind, Except.bind, pure, Except.pure, htake, hne, if_false, cut_append]
  cases assignmentSize tail <;> rfl

theorem attribute?_name {name tail : Text} (hname : IsAttributeName name)
    (htail : Stops isAttributeNameChar tail) (hnone : assignmentSize tail = .ok none) :
    attribute? (name ++ tail) = .ok (some (byteSize name)) := by
  rw [attribute?_eq hname htail, hnone]
  rfl

/-- Only an equals sign goes on with an attribute after its name. -/
theorem assignmentSize_of_stops {gap tail : Text} (hgap : Blank gap) (htail : Stops isBlank tail)
    (hsign : Stops (· == '=') tail) : assignmentSize (gap ++ tail) = .ok none := by
  rcases assignmentSize_cases (gap ++ tail) with
    hnone | ⟨before, after, value, rest, hsplit, hbefore, _, _, _⟩
  · exact hnone
  · obtain ⟨_, rfl⟩ := run_unique hsplit hgap htail hbefore (stops_cons.mpr rfl)
    exact absurd (stops_cons.mp hsign) (by simp)

theorem attribute?_assigned {name before after value tail : Text} (hname : IsAttributeName name)
    (hbefore : Blank before) (hafter : Blank after) (hvalue : IsValue value)
    (hread : valueSize (value ++ tail) = .ok (some (byteSize value))) :
    attribute? ((name ++ (before ++ '=' :: (after ++ value))) ++ tail) =
      .ok (some (byteSize (name ++ (before ++ '=' :: (after ++ value))))) := by
  have hstop : Stops isAttributeNameChar (before ++ '=' :: (after ++ (value ++ tail))) :=
    stops_append (fun c => not_isAttributeNameChar_of_isBlank) hbefore (fun _ => stops_cons.mpr rfl)
  have heq := attribute?_eq hname hstop
  rw [assignmentSize_append hbefore hafter hvalue hread] at heq
  simpa [Except.map] using heq

/-- An attribute is read to its end when what follows can extend neither its name nor its value. -/
theorem attribute?_append {raw gap tail : Text} (hraw : IsAttribute raw) (hgap : Blank gap)
    (htail : Stops isBlank tail) (hsign : Stops (· == '=') tail)
    (hname : Stops isAttributeNameChar (gap ++ tail))
    (hbare : EndsBare raw → Stops isBareValueChar (gap ++ tail)) :
    attribute? (raw ++ (gap ++ tail)) = .ok (some (byteSize raw)) := by
  cases hraw with
  | name hraw => exact attribute?_name hraw hname (assignmentSize_of_stops hgap htail hsign)
  | assigned hraw hbefore hafter hvalue =>
    apply attribute?_assigned hraw hbefore hafter hvalue
    cases hvalue with
    | quoted hquote hinner => exact valueSize_quoted hquote hinner _
    | bare hvalue => exact valueSize_bare hvalue (hbare (.intro hraw hbefore hafter hvalue))

theorem attribute?_cases (cs : Text) :
    (Stops isAttributeNameChar cs ∧ attribute? cs = .ok none) ∨
      ∃ raw tail, cs = raw ++ tail ∧ IsAttribute raw ∧
        attribute? cs = .ok (some (byteSize raw)) := by
  obtain ⟨name, tail, rfl, hname, htail⟩ := exists_run isAttributeNameChar cs
  by_cases hempty : name = []
  · left
    subst hempty
    have htake := takeWhile_append_of_stops hname htail
    refine ⟨htail, ?_⟩
    simp only [attribute?, htake, byteSize_nil, if_true]
    rfl
  · right
    have hattribute : IsAttributeName name := ⟨hempty, hname⟩
    rcases assignmentSize_cases tail with
      hnone | ⟨before, after, value, rest, rfl, hbefore, hafter, hvalue, hassigned⟩
    · exact ⟨name, tail, rfl, .name hattribute, attribute?_name hattribute htail hnone⟩
    · refine ⟨name ++ (before ++ '=' :: (after ++ value)), rest, by simp,
        .assigned hattribute hbefore hafter hvalue, ?_⟩
      rw [attribute?_eq hattribute htail, hassigned]
      simp [Except.map]

/-! ### Interpolations and runs of plain text -/

theorem interpolation?_append {d : Delimiters} {body tail : Text}
    (habsent : Absent d.closing body (d.closing ++ tail)) :
    interpolation? d (d.opening ++ (body ++ (d.closing ++ tail))) =
      .ok (some (trim body, byteSize (d.opening ++ (body ++ d.closing)))) := by
  have hopens : d.opening.isPrefixOf (d.opening ++ (body ++ (d.closing ++ tail))) = true := by
    simp
  simp only [interpolation?, bind, Except.bind, pure, Except.pure, hopens, Bool.not_true,
    Bool.false_eq_true, if_false, cut_append, find?_append habsent, byteSize_append, Nat.add_assoc]

theorem interpolation?_cases {d : Delimiters} {cs : Text} (hopens : d.opening <+: cs) :
    interpolation? d cs = .ok none ∨
      ∃ body tail, cs = d.opening ++ (body ++ (d.closing ++ tail)) ∧
        Absent d.closing body (d.closing ++ tail) ∧
        interpolation? d cs =
          .ok (some (trim body, byteSize (d.opening ++ (body ++ d.closing)))) := by
  obtain ⟨rest, rfl⟩ := hopens
  cases hfind : find? d.closing rest with
  | none =>
    left
    have hopens : d.opening.isPrefixOf (d.opening ++ rest) = true := by simp
    simp only [interpolation?, bind, Except.bind, pure, Except.pure, hopens, Bool.not_true,
      Bool.false_eq_true, if_false, cut_append, hfind]
  | some size =>
    right
    obtain ⟨body, tail, rfl, _, habsent⟩ := exists_of_find? hfind
    exact ⟨body, tail, rfl, habsent, interpolation?_append habsent⟩

theorem forall_ne_angle_iff {cs : Text} : (∀ d ∈ cs, (d != '<') = true) ↔ '<' ∉ cs := by
  constructor
  · intro hcs hmem
    simpa using hcs '<' hmem
  · intro hcs d hd
    rw [bne_iff_ne]
    rintro rfl
    exact hcs hd

/-- The text up to the next tag is a run. -/
theorem find?_angle (cs : Text) :
    (find? ['<'] cs).getD (byteSize cs) = byteSize (cs.takeWhile (· != '<')) := by
  cases hfind : find? ['<'] cs with
  | none =>
    have habsent := absent_singleton.mp (find?_eq_none_iff.mp hfind).2
    have htake : cs.takeWhile (· != '<') = cs := by
      rw [List.takeWhile_eq_self_iff]
      exact forall_ne_angle_iff.mpr habsent
    rw [htake]
    rfl
  | some size =>
    obtain ⟨front, back, rfl, rfl, habsent⟩ := exists_of_find? hfind
    rw [takeWhile_append_of_stops]
    · rfl
    · exact forall_ne_angle_iff.mpr (absent_singleton.mp habsent)
    · exact stops_cons.mpr (by simp)

theorem textSize_cons (opening : Text) (c : Char) {run tail : Text}
    (hrun : ∀ d ∈ run, (d != '<') = true) (htail : Stops (· != '<') tail) :
    textSize opening (c :: (run ++ tail)) =
      .ok ((if opening = [] then byteSize run else (find? opening run).getD (byteSize run)) +
        c.utf8Size) := by
  have hfirst : cut c.utf8Size (c :: (run ++ tail)) = .ok ([c], run ++ tail) := by
    rw [cut_eq_ok_iff]
    exact ⟨rfl, by simp⟩
  simp only [textSize, bind, Except.bind, pure, Except.pure, hfirst, find?_angle,
    takeWhile_append_of_stops hrun htail, cut_append, List.isEmpty_iff]
  split <;> rfl

/-- A delimiter that does not stand before the next tag ends no text. -/
theorem textSize_of_not_isInfix_run {opening run tail : Text} (c : Char)
    (hrun : ∀ d ∈ run, (d != '<') = true) (htail : Stops (· != '<') tail)
    (hnot : ¬ opening <:+: run) :
    textSize opening (c :: (run ++ tail)) = textSize [] (c :: (run ++ tail)) := by
  have hne : opening ≠ [] := by
    rintro rfl
    exact hnot List.nil_infix
  rw [textSize_cons opening c hrun htail, textSize_cons [] c hrun htail, if_neg hne, if_pos rfl,
    find?_eq_none_of_not_isInfix hnot]
  rfl

theorem begins_angle_of_stops {cs : Text} (hstops : Stops (· != '<') cs) :
    cs = [] ∨ ['<'] <+: cs := by
  cases cs with
  | nil => exact .inl rfl
  | cons c cs =>
    have hc : c = '<' := by simpa using stops_cons.mp hstops
    exact .inr (by simp [hc])

theorem stops_of_begins_angle {cs : Text} (hbegins : cs = [] ∨ ['<'] <+: cs) :
    Stops (· != '<') cs := by
  rcases hbegins with rfl | ⟨tail, rfl⟩
  · exact stops_nil _
  · exact stops_cons.mpr (by simp)

theorem textSize_cases (opening : Text) (c : Char) (cs : Text) :
    ∃ more tail, cs = more ++ tail ∧ '<' ∉ more ∧ EndsText opening tail ∧
      textSize opening (c :: cs) = .ok (byteSize (c :: more)) := by
  obtain ⟨run, rest, rfl, hrun, hrest⟩ := exists_run (· != '<') cs
  have hangle : '<' ∉ run := forall_ne_angle_iff.mp hrun
  have hends : EndsText opening rest := (begins_angle_of_stops hrest).imp_right .inl
  have hsize := textSize_cons opening c hrun hrest
  by_cases hopening : opening = []
  · refine ⟨run, rest, rfl, hangle, hends, ?_⟩
    rw [hsize, if_pos hopening, byteSize_cons, Nat.add_comm]
  · rw [if_neg hopening] at hsize
    cases hfind : find? opening run with
    | none =>
      refine ⟨run, rest, rfl, hangle, hends, ?_⟩
      rw [hsize, hfind, byteSize_cons, Nat.add_comm]
      rfl
    | some size =>
      obtain ⟨front, back, rfl, rfl, _⟩ := exists_of_find? hfind
      refine ⟨front, opening ++ (back ++ rest), by simp, ?_, ?_, ?_⟩
      · exact fun hmem => hangle (List.mem_append_left _ hmem)
      · exact .inr (.inr ⟨hopening, List.prefix_append _ _⟩)
      · rw [hsize, hfind, byteSize_cons, Nat.add_comm]
        rfl

theorem textSize_append {opening more tail : Text} (c : Char) (hopening : '<' ∉ opening)
    (hmore : '<' ∉ more) (habsent : opening ≠ [] → Absent opening more tail)
    (hends : EndsText opening tail) :
    textSize opening (c :: (more ++ tail)) = .ok (byteSize (c :: more)) := by
  rcases or_assoc.mpr hends with hbegins | ⟨hne, rest, rfl⟩
  · have hrun := forall_ne_angle_iff.mpr hmore
    rw [textSize_cons opening c hrun (stops_of_begins_angle hbegins), byteSize_cons, Nat.add_comm]
    split
    · rfl
    · rename_i hne
      have hnone : find? opening more = none :=
        find?_eq_none_iff.mpr ⟨hne, (habsent hne).shorten List.nil_prefix⟩
      rw [hnone]
      rfl
  · obtain ⟨run, rest, rfl, hrun, hrest⟩ := exists_run (· != '<') rest
    have hwhole : ∀ d ∈ more ++ (opening ++ run), (d != '<') = true := by
      intro d hd
      simp only [List.mem_append] at hd
      rcases hd with hd | hd | hd
      · exact forall_ne_angle_iff.mpr hmore d hd
      · exact forall_ne_angle_iff.mpr hopening d hd
      · exact hrun d hd
    have hshorter : opening ++ run <+: opening ++ (run ++ rest) := by
      rw [← List.append_assoc]
      exact List.prefix_append _ _
    have hsize := textSize_cons opening c hwhole hrest
    rw [if_neg hne, find?_append ((habsent hne).shorten hshorter)] at hsize
    rw [byteSize_cons, Nat.add_comm]
    simpa using hsize

end MarkupCompiler.Lexeme
