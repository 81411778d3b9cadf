import MarkupCompiler.Proofs.Lexemes
import Mathlib.Order.Bounds.Basic

/-!
# Where a run of text ends

A run of text should end where the next tag or interpolation begins. To find its end, the next tag
is looked for, and then the opening delimiter in the part before that. This finds the first end as
long as the delimiter has no angle in it (`isLeast_textSize`). A delimiter with an angle is never
found, and the run goes past one that begins before the next angle and holds it
(`textSize_isLeast_iff`).
-/

namespace MarkupCompiler.Lexeme

open Text

/-- The offsets at which a run of text could end: behind its first character, between two
characters, and before a tag, an opening delimiter or nothing. -/
def textEnds (opening text : Text) : Set Nat :=
  {n | ∃ front back, cut n text = .ok (front, back) ∧ front ≠ [] ∧ EndsText opening back}

/-- Behind the first character the opening delimiter begins before the next angle and holds it. -/
def Straddles (opening text : Text) : Prop :=
  ∃ c more back, text = c :: (more ++ (opening ++ back)) ∧ '<' ∉ more ∧
    Stops (· == '<') opening ∧ '<' ∈ opening

variable {opening : Text}

theorem mem_textEnds {front back : Text} (hne : front ≠ []) (hends : EndsText opening back) :
    byteSize front ∈ textEnds opening (front ++ back) :=
  ⟨front, back, cut_append front back, hne, hends⟩

theorem exists_of_mem_textEnds {c : Char} {cs : Text} {n : Nat}
    (hn : n ∈ textEnds opening (c :: cs)) :
    ∃ more tail, cs = more ++ tail ∧ n = byteSize (c :: more) ∧ EndsText opening tail := by
  obtain ⟨front, tail, hcut, hne, hends⟩ := hn
  obtain ⟨hsplit, rfl⟩ := eq_append_of_cut hcut
  obtain ⟨d, more, rfl⟩ := List.exists_cons_of_ne_nil hne
  rw [List.cons_append, List.cons.injEq] at hsplit
  obtain ⟨rfl, rfl⟩ := hsplit
  exact ⟨more, tail, rfl, rfl, hends⟩

theorem EndsText.of_nil {tail : Text} (hends : EndsText [] tail) : EndsText opening tail := by
  rcases hends with hnil | hangle | ⟨hne, _⟩
  · exact .inl hnil
  · exact .inr (.inl hangle)
  · exact absurd rfl hne

/-- What ends a text and is neither a tag nor nothing is the delimiter. -/
theorem EndsText.begins {c : Char} {cs : Text} (hends : EndsText opening (c :: cs))
    (hc : c ≠ '<') : opening ≠ [] ∧ opening <+: c :: cs := by
  rcases hends with hnil | hangle | hopening
  · cases hnil
  · exact absurd (by simpa using hangle : '<' = c).symm hc
  · exact hopening

/-! ### The first end -/

theorem exists_first_end (opening cs : Text) :
    ∃ more tail, cs = more ++ tail ∧ '<' ∉ more ∧ (opening ≠ [] → Absent opening more tail) ∧
      EndsText opening tail := by
  induction cs with
  | nil => exact ⟨[], [], rfl, List.not_mem_nil, fun _ => absent_nil _ _, .inl rfl⟩
  | cons c cs ih =>
    by_cases hends : EndsText opening (c :: cs)
    · exact ⟨[], c :: cs, rfl, List.not_mem_nil, fun _ => absent_nil _ _, hends⟩
    · obtain ⟨more, tail, rfl, hmore, habsent, htail⟩ := ih
      refine ⟨c :: more, tail, rfl, ?_, ?_, htail⟩
      · intro hmem
        rcases List.mem_cons.mp hmem with rfl | hmem
        · exact hends (.inr (.inl (by simp)))
        · exact hmore hmem
      · intro hne
        exact absent_cons.mpr ⟨fun hbegins => hends (.inr (.inr ⟨hne, hbegins⟩)), habsent hne⟩

theorem isLeast_textEnds {more tail : Text} (c : Char) (hmore : '<' ∉ more)
    (habsent : opening ≠ [] → Absent opening more tail) (hends : EndsText opening tail) :
    IsLeast (textEnds opening (c :: (more ++ tail))) (byteSize (c :: more)) := by
  refine ⟨mem_textEnds (List.cons_ne_nil c more) hends, ?_⟩
  intro n hn
  obtain ⟨front, back, hsplit, rfl, hback⟩ := exists_of_mem_textEnds hn
  by_contra hlt
  simp only [byteSize_cons, Nat.add_le_add_iff_left, Nat.not_le] at hlt
  obtain ⟨d, middle, rfl, rfl⟩ := exists_middle_of_byteSize_lt hsplit.symm hlt
  have hd : d ≠ '<' := by
    rintro rfl
    exact hmore (by simp)
  obtain ⟨hne, hbegins⟩ := hback.begins hd
  apply habsent hne front.length
  · simp
  · simpa using hbegins

/-- **The bounded search is the plain one** for a delimiter without an angle: a run of text ends at
the first place where it can. -/
theorem isLeast_textSize {text : Text} (hangle : '<' ∉ opening) (htext : text ≠ []) :
    ∃ n, textSize opening text = .ok n ∧ IsLeast (textEnds opening text) n := by
  obtain ⟨c, cs, rfl⟩ := List.exists_cons_of_ne_nil htext
  obtain ⟨more, tail, rfl, hmore, habsent, hends⟩ := exists_first_end opening cs
  exact ⟨_, textSize_append c hangle hmore habsent hends, isLeast_textEnds c hmore habsent hends⟩

/-! ### Delimiters with an angle -/

theorem textSize_of_mem {text : Text} (hangle : '<' ∈ opening) :
    textSize opening text = textSize [] text := by
  cases text with
  | nil => rfl
  | cons c cs =>
    obtain ⟨run, rest, rfl, hrun, hrest⟩ := exists_run (· != '<') cs
    have hfree : '<' ∉ run := forall_ne_angle_iff.mp hrun
    exact textSize_of_not_isInfix_run c hrun hrest fun hinside => hfree (hinside.subset hangle)

theorem textEnds_nil_subset (opening text : Text) : textEnds [] text ⊆ textEnds opening text := by
  rintro n ⟨front, back, hcut, hne, hends⟩
  exact ⟨front, back, hcut, hne, hends.of_nil⟩

/-- A delimiter that holds the next angle ends the text before the angle does. -/
theorem Straddles.exists_lt {text : Text} {n : Nat} (hstraddles : Straddles opening text)
    (hn : n ∈ textEnds [] text) : ∃ m ∈ textEnds opening text, m < n := by
  obtain ⟨c, more, back, rfl, hmore, hstops, hangle⟩ := hstraddles
  have hne : opening ≠ [] := List.ne_nil_of_mem hangle
  refine ⟨byteSize (c :: more), mem_textEnds (List.cons_ne_nil c more)
    (.inr (.inr ⟨hne, List.prefix_append _ _⟩)), ?_⟩
  obtain ⟨front, tail, hsplit, rfl, hends⟩ := exists_of_mem_textEnds hn
  by_contra hle
  simp only [byteSize_cons, Nat.add_lt_add_iff_left, Nat.not_lt] at hle
  obtain ⟨middle, rfl, rfl⟩ := exists_middle_of_byteSize_le hsplit.symm hle
  -- an end no later than the delimiter would be an angle before it, or the delimiter's own first
  rcases hends with hnil | hbegins | ⟨hnot, _⟩
  · simp [hne] at hnil
  · cases middle with
    | nil =>
      obtain ⟨d, rest, rfl⟩ := List.exists_cons_of_ne_nil hne
      obtain rfl : '<' = d := by simpa using hbegins
      exact absurd (stops_cons.mp hstops) (by simp)
    | cons d middle =>
      obtain rfl : '<' = d := by simpa using hbegins
      exact hmore (by simp)
  · exact absurd rfl hnot

/-- Only a delimiter that holds the next angle can begin before it unseen. -/
theorem straddles_of_lt {text : Text} {m n : Nat} (hangle : '<' ∈ opening)
    (hn : IsLeast (textEnds [] text) n) (hm : m ∈ textEnds opening text) (hlt : m < n) :
    Straddles opening text := by
  obtain ⟨c, cs, rfl⟩ : ∃ c cs, text = c :: cs := by
    obtain ⟨front, back, hcut, hne, _⟩ := hm
    obtain ⟨rfl, _⟩ := eq_append_of_cut hcut
    exact List.exists_cons_of_ne_nil (by simp [hne])
  obtain ⟨first, rest, rfl, hfirst, habsent, hrest⟩ := exists_first_end [] cs
  obtain rfl := hn.unique (isLeast_textEnds c hfirst habsent hrest)
  obtain ⟨more, tail, hsplit, rfl, hends⟩ := exists_of_mem_textEnds hm
  simp only [byteSize_cons, Nat.add_lt_add_iff_left] at hlt
  obtain ⟨d, middle, rfl, rfl⟩ := exists_middle_of_byteSize_lt hsplit.symm hlt
  have hd : d ≠ '<' := by
    rintro rfl
    exact hfirst (by simp)
  obtain ⟨_, hbegins⟩ := hends.begins hd
  have hstops : Stops (· == '<') (d :: (middle ++ rest)) := stops_cons.mpr (by simpa using hd)
  obtain ⟨back, hback⟩ := hbegins
  refine ⟨c, more, back, by simp [hback], ?_, hstops.of_prefix ⟨back, hback⟩, hangle⟩
  exact fun hmem => hfirst (List.mem_append_left _ hmem)

/-- **The end of a run of text.** It is always a place where the run can end, and it is the first
one just if the opening delimiter does not begin before the next angle and hold it. -/
theorem textSize_isLeast_iff {text : Text} (opening : Text) (htext : text ≠ []) :
    ∃ n, textSize opening text = .ok n ∧ n ∈ textEnds opening text ∧
      (IsLeast (textEnds opening text) n ↔ ¬ Straddles opening text) := by
  by_cases hangle : '<' ∈ opening
  · have hnil : '<' ∉ ([] : Text) := List.not_mem_nil
    obtain ⟨n, hsize, hleast⟩ := isLeast_textSize hnil htext
    have hmem := textEnds_nil_subset opening text hleast.1
    refine ⟨n, (textSize_of_mem hangle).trans hsize, hmem, ?_⟩
    constructor
    · intro hfirst hstraddles
      obtain ⟨m, hm, hlt⟩ := hstraddles.exists_lt hleast.1
      exact Nat.not_le_of_lt hlt (hfirst.2 hm)
    · intro hnot
      refine ⟨hmem, fun m hm => ?_⟩
      by_contra hlt
      exact hnot (straddles_of_lt hangle hleast hm (Nat.lt_of_not_le hlt))
  · obtain ⟨n, hsize, hleast⟩ := isLeast_textSize hangle htext
    have hnot : ¬ Straddles opening text := by
      rintro ⟨_, _, _, _, _, _, hmem⟩
      exact hangle hmem
    exact ⟨n, hsize, hleast.1, iff_of_true hleast hnot⟩

/-- A first character of three bytes, and then a delimiter that overlaps itself before a tag. -/
theorem textSize_isLeast_iff_braces :
    let opening := ['\x7b', '\x7b']
    let text := ['中', 'a', '\x7b', '\x7b', '\x7b', 'b', '<', 'p', '>']
    text ≠ [] ∧ ¬ Straddles opening text ∧ textSize opening text = .ok 4 ∧
      IsLeast (textEnds opening text) 4 := by
  intro opening text
  have htext : text ≠ [] := List.cons_ne_nil _ _
  have hnot : ¬ Straddles opening text := by
    rintro ⟨_, _, _, _, _, _, hangle⟩
    revert hangle
    decide
  have hfour : textSize opening text = .ok 4 := by decide
  obtain ⟨n, hsize, _, hiff⟩ := textSize_isLeast_iff opening htext
  obtain rfl : 4 = n := Except.ok.inj (hfour.symm.trans hsize)
  exact ⟨htext, hnot, hfour, hiff.mpr hnot⟩

/-- The delimiter begins after the first character, and the run goes on to the angle inside of it. -/
theorem not_isLeast_textSize_straddled :
    let opening := ['a', '<', 'b']
    let text := ['x', 'a', '<', 'b']
    textSize opening text = .ok 2 ∧ 1 ∈ textEnds opening text ∧
      ¬ ∃ n, textSize opening text = .ok n ∧ IsLeast (textEnds opening text) n := by
  intro opening text
  have htwo : textSize opening text = .ok 2 := by decide
  have hone : 1 ∈ textEnds opening text :=
    mem_textEnds (List.cons_ne_nil 'x' []) (.inr (.inr ⟨List.cons_ne_nil _ _, List.prefix_rfl⟩))
  refine ⟨htwo, hone, ?_⟩
  rintro ⟨n, hsize, hleast⟩
  obtain rfl : 2 = n := Except.ok.inj (htwo.symm.trans hsize)
  exact absurd (hleast.2 hone) (by decide)

end MarkupCompiler.Lexeme
