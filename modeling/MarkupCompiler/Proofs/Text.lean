import MarkupCompiler.Text.Class
import Mathlib.Data.List.DropRight
import Mathlib.Data.List.Infix
import Mathlib.Data.List.TakeWhile

/-!
# Parts of a text

A text is taken apart in two ways: by a run of characters of one class, which ends where the class
does, and by the first occurrence of a pattern. Both are said here without byte counts, so that the
proofs about readers speak of the parts and not of their sizes.
-/

namespace MarkupCompiler.Text

/-- A text of blanks alone; it can be empty. -/
def Blank (cs : Text) : Prop := ∀ c ∈ cs, isBlank c = true

/-- No character of the class stands at the head. -/
def Stops (p : Char → Bool) (cs : Text) : Prop := ∀ c ∈ cs.head?, p c = false

/-- `pattern` does not begin anywhere in `inner` when `after` follows it. -/
def Absent (pattern inner after : Text) : Prop :=
  ∀ k < inner.length, ¬ pattern <+: (inner ++ after).drop k

instance (cs : Text) : Decidable (Blank cs) :=
  decidable_of_iff (cs.all isBlank = true) List.all_eq_true

instance (p : Char → Bool) (cs : Text) : Decidable (Stops p cs) :=
  decidable_of_iff (cs.head?.all (!p ·) = true) (by cases cs <;> simp [Stops])

instance (pattern inner after : Text) : Decidable (Absent pattern inner after) :=
  Nat.decidableBallLT _ _

theorem cut_first (c : Char) (cs : Text) : cut c.utf8Size (c :: cs) = .ok ([c], cs) := by
  rw [cut_eq_ok_iff]
  exact ⟨rfl, by simp⟩

/-! ### Runs of one class -/

theorem blank_nil : Blank [] := by
  intro c hc
  cases hc

theorem stops_nil (p : Char → Bool) : Stops p [] := by
  intro c hc
  cases hc

theorem stops_cons {p : Char → Bool} {c : Char} {cs : Text} :
    Stops p (c :: cs) ↔ p c = false := by
  simp [Stops]

theorem stops_append_iff {p : Char → Bool} {cs tail : Text} (hne : cs ≠ []) :
    Stops p (cs ++ tail) ↔ Stops p cs := by
  obtain ⟨c, cs, rfl⟩ := List.exists_cons_of_ne_nil hne
  rw [List.cons_append, stops_cons, stops_cons]

theorem Blank.eq_nil_of_stops {gap rest : Text} (hgap : Blank gap)
    (hstops : Stops isBlank (gap ++ rest)) : gap = [] := by
  cases gap with
  | nil => rfl
  | cons c gap =>
    have hblank := hgap c (by simp)
    rw [stops_cons.mp hstops] at hblank
    cases hblank

theorem Stops.of_prefix {p : Char → Bool} {front cs : Text} (hstops : Stops p cs)
    (hbegins : front <+: cs) : Stops p front := by
  obtain ⟨back, rfl⟩ := hbegins
  cases front with
  | nil => exact stops_nil p
  | cons c front => exact stops_cons.mpr (stops_cons.mp hstops)

theorem takeWhile_append_of_stops {p : Char → Bool} {front back : Text}
    (hfront : ∀ c ∈ front, p c = true) (hback : Stops p back) :
    (front ++ back).takeWhile p = front := by
  rw [List.takeWhile_append_of_pos hfront]
  cases back with
  | nil => simp
  | cons c back => simp [stops_cons.mp hback]

theorem dropWhile_append_of_stops {p : Char → Bool} {front back : Text}
    (hfront : ∀ c ∈ front, p c = true) (hback : Stops p back) :
    (front ++ back).dropWhile p = back := by
  rw [List.dropWhile_append_of_pos hfront]
  cases back with
  | nil => rfl
  | cons c back => simp [stops_cons.mp hback]

/-- Every text begins with a longest run of a class. -/
theorem exists_run (p : Char → Bool) (cs : Text) :
    ∃ front back, cs = front ++ back ∧ (∀ c ∈ front, p c = true) ∧ Stops p back := by
  refine ⟨cs.takeWhile p, cs.dropWhile p, List.takeWhile_append_dropWhile.symm,
    fun c hc => List.mem_takeWhile_imp hc, ?_⟩
  intro c hc
  have hnot := List.head?_dropWhile_not p cs
  rw [Option.mem_def.mp hc] at hnot
  simpa using hnot

theorem cut_takeWhile {p : Char → Bool} {front back : Text}
    (hfront : ∀ c ∈ front, p c = true) (hback : Stops p back) :
    cut (byteSize ((front ++ back).takeWhile p)) (front ++ back) = .ok (front, back) := by
  rw [takeWhile_append_of_stops hfront hback, cut_append]

/-- Two ways to split a text at the end of a run are the same. -/
theorem run_unique {p : Char → Bool} {front back front' back' : Text}
    (heq : front ++ back = front' ++ back')
    (hfront : ∀ c ∈ front, p c = true) (hback : Stops p back)
    (hfront' : ∀ c ∈ front', p c = true) (hback' : Stops p back') :
    front = front' ∧ back = back' := by
  have htake := takeWhile_append_of_stops hfront hback
  have hdrop := dropWhile_append_of_stops hfront hback
  rw [heq, takeWhile_append_of_stops hfront' hback'] at htake
  rw [heq, dropWhile_append_of_stops hfront' hback'] at hdrop
  exact ⟨htake.symm, hdrop.symm⟩

/-! ### The first occurrence of a pattern -/

theorem absent_nil (pattern after : Text) : Absent pattern [] after := by
  intro k hk
  cases hk

theorem absent_cons {pattern inner after : Text} {c : Char} :
    Absent pattern (c :: inner) after ↔
      ¬ pattern <+: c :: (inner ++ after) ∧ Absent pattern inner after := by
  constructor
  · intro habsent
    refine ⟨habsent 0 (by simp), ?_⟩
    intro k hk
    exact habsent (k + 1) (by simpa using hk)
  · rintro ⟨hhead, htail⟩ k hk
    cases k with
    | zero => exact hhead
    | succ k => exact htail k (by simpa using hk)

theorem absent_singleton {d : Char} {inner after : Text} :
    Absent [d] inner after ↔ d ∉ inner := by
  induction inner with
  | nil => simp [absent_nil]
  | cons c inner ih => simp [absent_cons, ih]

/-- Whether a pattern begins before its own next occurrence does not depend on what follows that. -/
theorem Absent.extend {pattern inner : Text} (habsent : Absent pattern inner pattern)
    (back : Text) : Absent pattern inner (pattern ++ back) := by
  intro k hk hbegins
  apply habsent k hk
  have hlonger : (inner ++ pattern).drop k <+: (inner ++ (pattern ++ back)).drop k := by
    rw [← List.append_assoc]
    exact List.IsPrefix.drop (List.prefix_append _ _) k
  refine List.prefix_of_prefix_length_le hbegins hlonger ?_
  simp only [List.length_drop, List.length_append]
  omega

theorem Absent.shorten {pattern inner after shorter : Text} (habsent : Absent pattern inner after)
    (hshorter : shorter <+: after) : Absent pattern inner shorter := by
  intro k hk hbegins
  apply habsent k hk
  exact hbegins.trans (List.IsPrefix.drop ((List.prefix_append_right_inj inner).mpr hshorter) k)

theorem find?_of_begins {pattern cs : Text} (hbegins : pattern <+: cs) :
    find? pattern cs = some 0 := by
  cases cs with
  | nil => simp [find?, List.prefix_nil.mp hbegins]
  | cons c cs => simp [find?, hbegins]

theorem find?_append {pattern front back : Text}
    (habsent : Absent pattern front (pattern ++ back)) :
    find? pattern (front ++ (pattern ++ back)) = some (byteSize front) := by
  induction front with
  | nil => exact find?_of_begins (List.prefix_append _ _)
  | cons c front ih =>
    obtain ⟨hhead, htail⟩ := absent_cons.mp habsent
    rw [List.cons_append, find?, if_neg (by simpa using hhead), ih htail]
    rfl

theorem exists_of_find? {pattern cs : Text} {size : Nat} (hfind : find? pattern cs = some size) :
    ∃ front back, cs = front ++ (pattern ++ back) ∧ byteSize front = size ∧
      Absent pattern front (pattern ++ back) := by
  induction cs generalizing size with
  | nil =>
    have hpattern : pattern = [] := by
      by_contra hne
      simp [find?, hne] at hfind
    subst hpattern
    refine ⟨[], [], rfl, ?_, absent_nil _ _⟩
    simpa [find?] using hfind
  | cons c cs ih =>
    by_cases hbegins : pattern <+: c :: cs
    · obtain ⟨back, hback⟩ := hbegins
      have hzero : find? pattern (c :: cs) = some 0 := find?_of_begins ⟨back, hback⟩
      rw [hzero] at hfind
      refine ⟨[], back, hback.symm, ?_, absent_nil _ _⟩
      simpa using hfind
    · rw [find?, if_neg (by simpa using hbegins), Option.map_eq_some_iff] at hfind
      obtain ⟨later, hlater, rfl⟩ := hfind
      obtain ⟨front, back, rfl, rfl, habsent⟩ := ih hlater
      exact ⟨c :: front, back, rfl, rfl, absent_cons.mpr ⟨hbegins, habsent⟩⟩

theorem find?_eq_none_iff {pattern cs : Text} :
    find? pattern cs = none ↔ pattern ≠ [] ∧ Absent pattern cs [] := by
  induction cs with
  | nil => simp [find?, absent_nil]
  | cons c cs ih =>
    rw [absent_cons, List.append_nil]
    by_cases hbegins : pattern <+: c :: cs
    · simp [find?_of_begins hbegins, hbegins]
    · rw [find?, if_neg (by simpa using hbegins), Option.map_eq_none_iff, ih]
      simp [hbegins]

theorem Absent.not_isInfix {pattern inner after : Text} (habsent : Absent pattern inner after)
    (hne : pattern ≠ []) : ¬ pattern <:+: inner := by
  rintro ⟨front, back, rfl⟩
  have hlength := List.length_pos_iff.mpr hne
  apply habsent front.length
  · simp only [List.length_append]
    omega
  · simp

theorem find?_eq_none_of_not_isInfix {pattern cs : Text} (hnot : ¬ pattern <:+: cs) :
    find? pattern cs = none := by
  cases hfind : find? pattern cs with
  | none => rfl
  | some size =>
    obtain ⟨front, back, rfl, _, _⟩ := exists_of_find? hfind
    exact absurd ⟨front, back, by simp⟩ hnot

/-- Of two ways to split a text, the one with fewer bytes in front has the shorter front. -/
theorem exists_middle_of_byteSize_le {front back front' back' : Text}
    (heq : front ++ back = front' ++ back') (hle : byteSize front ≤ byteSize front') :
    ∃ middle, front' = front ++ middle ∧ back = middle ++ back' := by
  rcases List.append_eq_append_iff.mp heq with ⟨middle, hfront, hback⟩ | ⟨middle, rfl, rfl⟩
  · exact ⟨middle, hfront, hback⟩
  · rw [byteSize_append] at hle
    obtain rfl : middle = [] := byteSize_eq_zero_iff.mp (by omega)
    exact ⟨[], by simp, by simp⟩

theorem exists_middle_of_byteSize_lt {front back front' back' : Text}
    (heq : front ++ back = front' ++ back') (hlt : byteSize front < byteSize front') :
    ∃ c middle, front' = front ++ c :: middle ∧ back = c :: (middle ++ back') := by
  obtain ⟨middle, rfl, rfl⟩ := exists_middle_of_byteSize_le heq (Nat.le_of_lt hlt)
  cases middle with
  | nil => simp at hlt
  | cons c middle => exact ⟨c, middle, rfl, rfl⟩

/-! ### Parts with a separator between them -/

theorem intercalate_cons (separator part : Text) (parts : List Text) :
    separator.intercalate (part :: parts) = part ++ parts.flatMap (separator ++ ·) := by
  induction parts generalizing part with
  | nil => simp
  | cons next parts ih =>
    rw [List.intercalate_cons_cons, ih, List.flatMap_cons, List.append_assoc, List.append_assoc]

/-! ### Trimmed texts -/

theorem trimEnd_eq (cs : Text) : trimEnd cs = cs.rdropWhile isSpace := rfl

theorem trimEnd_begins (cs : Text) : trimEnd cs <+: cs :=
  List.rdropWhile_prefix isSpace cs

theorem trimEnd_append_spaces {spaces : Text} (hspaces : ∀ c ∈ spaces, isSpace c = true)
    (cs : Text) : trimEnd (cs ++ spaces) = trimEnd cs := by
  have hreverse : ∀ c ∈ spaces.reverse, isSpace c = true := by simpa using hspaces
  rw [trimEnd, List.reverse_append, List.dropWhile_append_of_pos hreverse, trimEnd]

theorem trim_spaces_append {spaces : Text} (hspaces : ∀ c ∈ spaces, isSpace c = true)
    (cs : Text) : trim (spaces ++ cs) = trim cs := by
  rw [trim, List.dropWhile_append_of_pos hspaces, trim]

theorem trim_of_stops {cs : Text} (hstops : Stops isSpace cs) : trim cs = trimEnd cs := by
  have hhead : cs.dropWhile isSpace = cs :=
    dropWhile_append_of_stops (List.forall_mem_nil _) hstops
  rw [trim, hhead]

theorem trim_append_spaces {spaces : Text} (hspaces : ∀ c ∈ spaces, isSpace c = true)
    (cs : Text) : trim (cs ++ spaces) = trim cs := by
  obtain ⟨front, rest, rfl, hfront, hrest⟩ := exists_run isSpace cs
  rw [List.append_assoc, trim_spaces_append hfront, trim_spaces_append hfront]
  by_cases hempty : rest = []
  · rw [hempty, List.nil_append, ← trim_spaces_append hspaces [], List.append_nil]
  · have hstops : Stops isSpace (rest ++ spaces) := (stops_append_iff hempty).mpr hrest
    rw [trim_of_stops hstops, trim_of_stops hrest, trimEnd_append_spaces hspaces]

theorem trim_trim (cs : Text) : trim (trim cs) = trim cs := by
  obtain ⟨spaces, rest, rfl, hspaces, hrest⟩ := exists_run isSpace cs
  -- what is left begins as `rest` does, so that nothing is dropped from its head
  have hstops : Stops isSpace (trimEnd rest) := hrest.of_prefix (trimEnd_begins rest)
  rw [trim_spaces_append hspaces, trim_of_stops hrest, trim_of_stops hstops, trimEnd_eq, trimEnd_eq,
    List.rdropWhile_idempotent]

theorem trim_isInfix (cs : Text) : trim cs <:+: cs :=
  (trimEnd_begins _).isInfix.trans (List.dropWhile_suffix isSpace).isInfix

end MarkupCompiler.Text
