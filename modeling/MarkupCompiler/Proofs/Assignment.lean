import MarkupCompiler.CommandLine.Failure
import MarkupCompiler.Proofs.Normalization

/-!
# Attributes with a value

An attribute is delimited twice: where it is read, by blanks and quotes, and where it is normalized,
by the first equals sign, white space and quotes. The two find the same parts, whatever a quoted
value holds (`Assignment.read_and_split`).
-/

namespace MarkupCompiler

open Text Lexeme

/-- A value can stand between quotes that it does not hold, or without any. -/
def IsQuotable (value : Text) : Option Char → Prop
  | some q => isQuote q = true ∧ q ∉ value
  | none => IsBareValue value

instance (value : Text) : DecidablePred (IsQuotable value)
  | some q => inferInstanceAs (Decidable (isQuote q = true ∧ q ∉ value))
  | none => inferInstanceAs (Decidable (IsBareValue value))

/-- An attribute with a value, by the parts that it is written in. -/
structure Assignment where
  name : Text
  /-- The blanks before the equals sign. -/
  before : Text := []
  /-- The blanks after the equals sign. -/
  after : Text := []
  quote : Option Char
  value : Text
  isName : IsAttributeName name
  blank_before : Blank before := by decide
  blank_after : Blank after := by decide
  isQuotable : IsQuotable value quote

theorem isSpace_of_isBlank {c : Char} (hblank : isBlank c = true) : isSpace c = true := by
  simp only [isBlank, Bool.or_eq_true, beq_iff_eq] at hblank
  rcases hblank with (((rfl | rfl) | rfl) | rfl) | rfl <;> rfl

theorem not_isSpace_of_isQuote {c : Char} (hquote : isQuote c = true) : isSpace c = false := by
  simp only [isQuote, Bool.or_eq_true, beq_iff_eq] at hquote
  rcases hquote with rfl | rfl <;> rfl

theorem trim_quoted {q : Char} (hquote : isQuote q = true) (inner : Text) :
    trim (q :: (inner ++ [q])) = q :: (inner ++ [q]) := by
  have hspace := not_isSpace_of_isQuote hquote
  rw [trim_of_stops (stops_cons.mpr hspace), trimEnd_eq, ← List.cons_append,
    List.rdropWhile_concat_neg _ _ _ (by simp [hspace])]

/-- A value without quotes has none to lose. -/
theorem unquoted_trim_bare {value : Text} (hvalue : IsBareValue value) :
    unquoted (trim value) = trim value := by
  apply unquoted_eq_self
  intro q inner hquote heq
  have hmem : q ∈ value := (trim_isInfix value).subset (by simp [heq])
  have hbare := hvalue.2 q hmem
  simp [isBareValueChar, hquote] at hbare

namespace Assignment

def written (w : Assignment) : Text :=
  w.quote.toList ++ (w.value ++ w.quote.toList)

def raw (w : Assignment) : Text :=
  w.name ++ (w.before ++ '=' :: (w.after ++ w.written))

theorem written_cases (w : Assignment) :
    w.quote = none ∧ IsBareValue w.value ∧ w.written = w.value ∨
      ∃ q, w.quote = some q ∧ isQuote q = true ∧ q ∉ w.value ∧
        w.written = q :: (w.value ++ [q]) := by
  have hvalue := w.isQuotable
  unfold written
  cases hquote : w.quote with
  | none =>
    rw [hquote] at hvalue
    exact .inl ⟨rfl, hvalue, List.append_nil _⟩
  | some q =>
    rw [hquote] at hvalue
    exact .inr ⟨q, rfl, hvalue.1, hvalue.2, rfl⟩

/-! ### Where it is read -/

theorem isValue_written (w : Assignment) : IsValue w.written := by
  rcases w.written_cases with ⟨_, hbare, heq⟩ | ⟨q, _, hq, hvalue, heq⟩
  · exact heq ▸ .bare hbare
  · exact heq ▸ .quoted hq hvalue

theorem valueSize_written (w : Assignment) {tail : Text}
    (htail : w.quote = none → Stops isBareValueChar tail) :
    valueSize (w.written ++ tail) = .ok (some (byteSize w.written)) := by
  rcases w.written_cases with ⟨hquote, hbare, heq⟩ | ⟨q, _, hq, hvalue, heq⟩
  · rw [heq, valueSize_bare hbare (htail hquote)]
  · rw [heq, valueSize_quoted hq hvalue tail]

theorem attribute?_raw (w : Assignment) {tail : Text}
    (htail : w.quote = none → Stops isBareValueChar tail) :
    attribute? (w.raw ++ tail) = .ok (some (byteSize w.raw)) :=
  attribute?_assigned w.isName w.blank_before w.blank_after w.isValue_written
    (w.valueSize_written htail)

/-! ### Where it is split -/

theorem ne_equals_of_mem (w : Assignment) : ∀ c ∈ w.name ++ w.before, (c != '=') = true := by
  intro c hc
  rw [bne_iff_ne]
  rintro rfl
  rcases List.mem_append.mp hc with hname | hblank
  · cases w.isName.2 _ hname
  · cases w.blank_before _ hblank

theorem raw_eq (w : Assignment) :
    w.raw = (w.name ++ w.before) ++ '=' :: (w.after ++ w.written) := by
  rw [raw, List.append_assoc]

theorem takeWhile_raw (w : Assignment) : w.raw.takeWhile (· != '=') = w.name ++ w.before := by
  rw [raw_eq, takeWhile_append_of_stops w.ne_equals_of_mem (stops_cons.mpr (by simp))]

theorem dropWhile_raw (w : Assignment) :
    w.raw.dropWhile (· != '=') = '=' :: (w.after ++ w.written) := by
  rw [raw_eq, dropWhile_append_of_stops w.ne_equals_of_mem (stops_cons.mpr (by simp))]

/-- The value of an attribute that is no binding: white space counts only between quotes. -/
def plainValue (w : Assignment) : Text :=
  if w.quote.isSome then w.value else trim w.value

theorem unquoted_trim_written (w : Assignment) : unquoted (trim w.written) = w.plainValue := by
  unfold plainValue
  rcases w.written_cases with ⟨hquote, hbare, heq⟩ | ⟨q, hquote, hq, _, heq⟩
  · rw [heq, hquote, unquoted_trim_bare hbare]
    rfl
  · rw [heq, hquote, trim_quoted hq, unquoted_quoted hq]
    rfl

variable {w : Assignment} {a : Attribute}

theorem name_of_raw (hraw : a.raw = w.raw) : a.name = trim w.name := by
  rw [Attribute.name, hraw, takeWhile_raw,
    trim_append_spaces fun c hc => isSpace_of_isBlank (w.blank_before c hc)]

theorem assigned_of_raw (hraw : a.raw = w.raw) : a.assigned = w.plainValue := by
  rw [Attribute.assigned, hraw, dropWhile_raw, List.tail_cons,
    trim_spaces_append fun c hc => isSpace_of_isBlank (w.blank_after c hc), unquoted_trim_written]

theorem normalize_of_raw (hraw : a.raw = w.raw) (viewModel : Text) :
    a.normalize viewModel = .ok (a.normalized viewModel) := by
  apply a.normalize_of_mem
  rw [hraw, raw_eq]
  simp

theorem trim_plainValue (w : Assignment) : trim w.plainValue = trim w.value := by
  unfold plainValue
  split
  · rfl
  · exact trim_trim w.value

/-- A marker that is not white space is still the first character of the trimmed name. -/
theorem cons_tail_trim_name {m : Char} (hmarker : w.raw.head? = some m)
    (hspace : isSpace m = false) : m :: (trim w.name).tail = trim w.name := by
  obtain ⟨c, name, hname⟩ := List.exists_cons_of_ne_nil w.isName.1
  obtain rfl : c = m := by simpa [raw, hname] using hmarker
  have htrim : trim w.name = trimEnd (c :: name) := by
    rw [hname, trim_of_stops (stops_cons.mpr hspace)]
  have hne : trimEnd (c :: name) ≠ [] := by
    rw [trimEnd_eq, Ne, List.rdropWhile_eq_nil_iff]
    intro hall
    have hfirst := hall c List.mem_cons_self
    rw [hspace] at hfirst
    cases hfirst
  -- what is left of the end is a prefix that is not empty, so it begins with the marker
  obtain ⟨d, rest, hrest⟩ := List.exists_cons_of_ne_nil hne
  have hbegins := trimEnd_begins (c :: name)
  rw [hrest, List.cons_prefix_cons] at hbegins
  rw [htrim, hrest, List.tail_cons, hbegins.1]

end Assignment

/-! ### Markers -/

theorem CommandLine.mem_of_mem_insertMarker {m c : Char} {ds : List Char}
    (hmem : m ∈ insertMarker c ds) : m = c ∨ m ∈ ds := by
  induction ds with
  | nil => exact .inl (List.mem_singleton.mp hmem)
  | cons d ds ih =>
    rw [insertMarker] at hmem
    split_ifs at hmem with hless hsame
    · exact List.mem_cons.mp hmem
    · exact .inr hmem
    · rcases List.mem_cons.mp hmem with rfl | hlater
      · exact .inr List.mem_cons_self
      · exact (ih hlater).imp_right (List.mem_cons_of_mem d)

theorem CommandLine.mem_of_mem_markers {m : Char} {cs : List Char}
    (hmem : m ∈ cs.foldr insertMarker []) : m ∈ cs := by
  induction cs with
  | nil => exact hmem
  | cons c cs ih =>
    rcases mem_of_mem_insertMarker hmem with rfl | hlater
    · exact List.mem_cons_self
    · exact List.mem_cons_of_mem c (ih hlater)

theorem CommandLine.not_isSpace_of_readMarkers {cs markers : Text}
    (hread : readMarkers cs = .ok markers) {m : Char} (hm : m ∈ markers) : isSpace m = false := by
  unfold readMarkers at hread
  split at hread
  · cases hread
  · cases hread
    have hkept := (List.mem_filter.mp (mem_of_mem_markers hm)).2
    simpa using hkept

/-- **Reading and splitting agree.** An attribute with a value is read to its end, if nothing that
follows goes on with a value without quotes. Normalizing it gives back the parts that it is written
in: the trimmed name, and the value as it stands between quotes or else trimmed. A binding loses its
marker, which is the first character of the name unless that is white space, and no marker that the
command accepts is. -/
theorem Assignment.read_and_split (w : Assignment) (viewModel : Text) :
    (∀ tail, (w.quote = none → Stops isBareValueChar tail) →
      attribute? (w.raw ++ tail) = .ok (some (byteSize w.raw))) ∧
    (∀ a : Attribute, a.raw = w.raw → a.isDynamic = false →
      a.normalize viewModel = .ok
        { a with
          field := trim w.name
          value := if w.quote.isSome then w.value else trim w.value }) ∧
    (∀ (a : Attribute) (m : Char), a.raw = w.raw → a.isDynamic = true → a.raw.head? = some m →
      isSpace m = false →
      ∃ field, m :: field = trim w.name ∧
        a.normalize viewModel = .ok
          { a with field, value := viewModel ++ '.' :: trim w.value }) ∧
    ∀ cs markers, CommandLine.readMarkers cs = .ok markers → ∀ m ∈ markers, isSpace m = false := by
  refine ⟨fun tail htail => w.attribute?_raw htail, ?_, ?_, ?_⟩
  · intro a hraw hstatic
    rw [normalize_of_raw hraw, Attribute.normalized, hstatic, name_of_raw hraw,
      assigned_of_raw hraw]
    rfl
  · intro a m hraw hdynamic hmarker hspace
    rw [hraw] at hmarker
    refine ⟨(trim w.name).tail, cons_tail_trim_name hmarker hspace, ?_⟩
    rw [normalize_of_raw hraw, Attribute.normalized, hdynamic, name_of_raw hraw,
      assigned_of_raw hraw, trim_plainValue]
    rfl
  · intro cs markers hread m hm
    exact CommandLine.not_isSpace_of_readMarkers hread hm

/-- White space of two kinds around the name, and a value with signs, quotes and blanks of its
own. -/
theorem Assignment.read_and_split_binding :
    let w : Assignment :=
      { name := ":a\u00a0".toList, before := [' '], after := ['\t'], quote := some '\x22'
        value := " b='>' ".toList, isName := by decide, isQuotable := by decide }
    let raw := ":a\u00a0 =\t\x22 b='>' \x22".toList
    w.raw = raw ∧ attribute? (raw ++ "='c'>".toList) = .ok (some 16) ∧
      ({ raw } : Attribute).normalize ['v'] =
        .ok { raw, field := [':', 'a'], value := " b='>' ".toList } ∧
      ({ raw, isDynamic := true } : Attribute).normalize ['v'] =
        .ok { raw, isDynamic := true, field := ['a'], value := "v.b='>'".toList } ∧
      ∀ m ∈ [':', '@'], isSpace m = false := by
  intro w raw
  have hraw : w.raw = raw := by decide
  obtain ⟨hread, hstatic, hdynamic, hmarkers⟩ := w.read_and_split ['v']
  obtain ⟨field, hfield, hnormalize⟩ :=
    hdynamic { raw, isDynamic := true } ':' hraw.symm rfl rfl (by decide)
  obtain rfl : field = ['a'] := List.cons_injective (hfield.trans (by decide))
  refine ⟨hraw, ?_, ?_, ?_, hmarkers ": @".toList [':', '@'] rfl⟩
  · rw [← hraw, hread _ (by decide)]
    decide
  · rw [hstatic { raw } hraw.symm rfl]
    decide
  · rw [hnormalize]
    decide

end MarkupCompiler
