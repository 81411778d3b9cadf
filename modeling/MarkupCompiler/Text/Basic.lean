import MarkupCompiler.Fault

/-!
Texts as lists of characters, measured and cut in UTF-8 bytes. `cut_eq_ok_iff` says which cuts
succeed: those that fall between two characters.
-/

namespace MarkupCompiler

/-- A text is the list of its characters. -/
abbrev Text := List Char

namespace Text

/-- The number of bytes of the UTF-8 form. -/
def byteSize : Text → Nat
  | [] => 0
  | c :: cs => c.utf8Size + byteSize cs

/-- The parts before and after a byte offset, which has to fall between two characters. -/
def cut : Nat → Text → Except Fault (Text × Text)
  | 0, cs => .ok ([], cs)
  | _ + 1, [] => .error .pastEnd
  | n + 1, c :: cs =>
    if c.utf8Size ≤ n + 1 then
      match cut (n + 1 - c.utf8Size) cs with
      | .ok (front, back) => .ok (c :: front, back)
      | .error fault => .error fault
    else .error .insideCharacter

/-- The byte offset of the first occurrence of `pattern`; the empty pattern occurs at once. -/
def find? (pattern : Text) : Text → Option Nat
  | [] => if pattern.isEmpty then some 0 else none
  | c :: cs =>
    if pattern.isPrefixOf (c :: cs) then some 0
    else (find? pattern cs).map (c.utf8Size + ·)

/-- The parts before and after the first `separator`. -/
def splitOnce? (separator : Char) (cs : Text) : Option (Text × Text) :=
  match cs.dropWhile (· != separator) with
  | [] => none
  | _ :: back => some (cs.takeWhile (· != separator), back)

@[simp]
theorem byteSize_nil : byteSize [] = 0 := rfl

@[simp]
theorem byteSize_cons (c : Char) (cs : Text) : byteSize (c :: cs) = c.utf8Size + byteSize cs := rfl

@[simp]
theorem byteSize_append (front back : Text) :
    byteSize (front ++ back) = byteSize front + byteSize back := by
  induction front with
  | nil => simp
  | cons c front ih => simp [ih, Nat.add_assoc]

theorem byteSize_eq_zero_iff {cs : Text} : byteSize cs = 0 ↔ cs = [] := by
  cases cs with
  | nil => simp
  | cons c cs =>
    have hpos := c.utf8Size_pos
    simp only [byteSize_cons, reduceCtorEq, iff_false]
    omega

@[simp]
theorem cut_zero (cs : Text) : cut 0 cs = .ok ([], cs) := by
  cases cs <;> rfl

theorem cut_cons {n : Nat} (c : Char) (cs : Text) (hle : c.utf8Size ≤ n) :
    cut n (c :: cs) =
      match cut (n - c.utf8Size) cs with
      | .ok (front, back) => .ok (c :: front, back)
      | .error fault => .error fault := by
  cases n with
  | zero =>
    have hpos := c.utf8Size_pos
    omega
  | succ n => simp [cut, hle]

/-- A text can be cut after any of its leading parts. -/
@[simp]
theorem cut_append (front back : Text) : cut (byteSize front) (front ++ back) = .ok (front, back) := by
  induction front with
  | nil => simp
  | cons c front ih =>
    rw [List.cons_append, cut_cons c _ (by simp)]
    simp [ih]

theorem eq_append_of_cut {n : Nat} {cs front back : Text} (hcut : cut n cs = .ok (front, back)) :
    cs = front ++ back ∧ byteSize front = n := by
  induction cs generalizing n front back with
  | nil =>
    cases n with
    | zero => simp_all
    | succ n => simp [cut] at hcut
  | cons c cs ih =>
    cases n with
    | zero => simp_all
    | succ n =>
      by_cases hle : c.utf8Size ≤ n + 1
      · rw [cut_cons c cs hle] at hcut
        split at hcut
        · rename_i front' back' htail
          obtain ⟨hcs, hsize⟩ := ih htail
          simp only [Except.ok.injEq, Prod.mk.injEq] at hcut
          obtain ⟨rfl, rfl⟩ := hcut
          exact ⟨by simp [hcs], by simp only [byteSize_cons]; omega⟩
        · cases hcut
      · simp [cut, hle] at hcut

theorem cut_eq_ok_iff {n : Nat} {cs front back : Text} :
    cut n cs = .ok (front, back) ↔ cs = front ++ back ∧ byteSize front = n := by
  constructor
  · exact eq_append_of_cut
  · rintro ⟨rfl, rfl⟩
    exact cut_append front back

end Text

end MarkupCompiler
