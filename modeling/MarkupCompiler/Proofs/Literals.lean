import MarkupCompiler.Proofs.Text
import MarkupCompiler.Text.Quoted

/-!
# Reading string literals

A reader of single-quoted literals, by the rules of the language that they are written in and not by
those of `quote`. It reads back every text that was quoted, and stops right behind the closing quote
(`readLiteral_quote`). What stands between the quotes keeps to one line and has no quote of its own
that could be taken for the closing one (`quote_selfDelimiting`).
-/

namespace MarkupCompiler.Text

/-- The characters that end a line, none of which can stand in a literal as it is. -/
def isLineEnd (c : Char) : Bool :=
  c == '\n' || c == '\r' || c == '\u2028' || c == '\u2029'

/-- The value of a hexadecimal digit, of either case. -/
def hexValue? (c : Char) : Option Nat :=
  if c.isDigit then some (c.toNat - '0'.toNat)
  else if 'a' ≤ c ∧ c ≤ 'f' then some (c.toNat - 'a'.toNat + 10)
  else if 'A' ≤ c ∧ c ≤ 'F' then some (c.toNat - 'A'.toNat + 10)
  else none

/-- The character with a code of hexadecimal digits. -/
def hexChar? (digits : Text) : Option Char := do
  let code ← digits.foldlM (fun code digit => (16 * code + ·) <$> hexValue? digit) 0
  if code.isValidChar then some (Char.ofNat code) else none

/-- What one character behind a backslash stands for. -/
def escaped? (c : Char) : Option Char :=
  if c = '\x27' ∨ c = '\\' then some c
  else if c = 'n' then some '\n'
  else if c = 'r' then some '\r'
  else if c = 't' then some '\t'
  else none

def prepend (c : Char) (read : Text × Text) : Text × Text :=
  (c :: read.1, read.2)

/-- Reads on behind an opening quote: the text up to the closing one, and what follows that. -/
def readQuoted : Text → Option (Text × Text)
  | '\x27' :: cs => some ([], cs)
  | '\\' :: 'u' :: d₁ :: d₂ :: d₃ :: d₄ :: cs => do
    let c ← hexChar? [d₁, d₂, d₃, d₄]
    (readQuoted cs).map (prepend c)
  | '\\' :: c :: cs => do
    let c ← escaped? c
    (readQuoted cs).map (prepend c)
  | c :: cs =>
    if c = '\\' ∨ isLineEnd c then none
    else (readQuoted cs).map (prepend c)
  | [] => none

/-- The text of the literal that stands at the front, and what follows it. -/
def readLiteral : Text → Option (Text × Text)
  | '\x27' :: cs => readQuoted cs
  | _ => none

/-! ### Escapes -/

theorem hexValue?_digitChar {n : Nat} (hn : n < 16) : hexValue? (Nat.digitChar n) = some n := by
  have hall : ∀ n < 16, hexValue? (Nat.digitChar n) = some n := by decide
  exact hall n hn

theorem hexChar?_hexDigits {c : Char} (hc : c.toNat < 65536) :
    hexChar? (hexDigits c.toNat) = some c := by
  have hdigit (k : Nat) : hexValue? (Nat.digitChar (k % 16)) = some (k % 16) :=
    hexValue?_digitChar (Nat.mod_lt k (by decide))
  have hcode : 16 * (16 * (16 * (c.toNat / 4096 % 16) + c.toNat / 256 % 16) +
      c.toNat / 16 % 16) + c.toNat % 16 = c.toNat := by
    omega
  have hvalid : c.toNat.isValidChar := c.valid
  simp [hexChar?, hexDigits, hdigit, hcode, hvalid]

theorem readQuoted_backslash {c d : Char} (hescaped : escaped? d = some c) (hcode : d ≠ 'u')
    (cs : Text) : readQuoted ('\\' :: d :: cs) = (readQuoted cs).map (prepend c) := by
  rw [readQuoted, hescaped]
  · rfl
  · intro _ _ _ _ _ hd
    exact absurd hd hcode

/-- Each escape is read as the character that it was written for. -/
theorem readQuoted_escape (c : Char) (cs : Text) :
    readQuoted (escape c ++ cs) = (readQuoted cs).map (prepend c) := by
  unfold escape
  split_ifs with hquote hslash hfeed hreturn htab hcode
  · exact readQuoted_backslash (by rw [hquote]; rfl) (by decide) cs
  · exact readQuoted_backslash (by rw [hslash]; rfl) (by decide) cs
  · exact readQuoted_backslash (by rw [hfeed]; rfl) (by decide) cs
  · exact readQuoted_backslash (by rw [hreturn]; rfl) (by decide) cs
  · exact readQuoted_backslash (by rw [htab]; rfl) (by decide) cs
  · -- the characters that are written by their code all have one of four digits
    have hsmall : c.toNat < 65536 := by
      rcases hcode with rfl | rfl | hcontrol
      · decide
      · decide
      · simp only [isControl, Bool.or_eq_true, Bool.and_eq_true, decide_eq_true_eq] at hcontrol
        omega
    have hread := hexChar?_hexDigits hsmall
    simp only [hexDigits, List.map_cons, List.map_nil] at hread ⊢
    simp [readQuoted, hread]
  · have hline : isLineEnd c = false := by
      rw [not_or, not_or] at hcode
      simp [isLineEnd, hfeed, hreturn, hcode]
    simp [readQuoted, hslash, hline]

theorem readQuoted_append (cs tail : Text) :
    readQuoted (cs.flatMap escape ++ '\x27' :: tail) = some (cs, tail) := by
  induction cs with
  | nil => rfl
  | cons c cs ih =>
    rw [List.flatMap_cons, List.append_assoc, readQuoted_escape, ih]
    rfl

theorem readLiteral_quote (cs tail : Text) : readLiteral (quote cs ++ tail) = some (cs, tail) := by
  rw [quote, List.cons_append, readLiteral, List.append_assoc, List.singleton_append,
    readQuoted_append]

/-! ### What is left of a text -/

theorem exists_of_map_prepend {c : Char} {read : Option (Text × Text)} {text rest : Text}
    (hread : read.map (prepend c) = some (text, rest)) : ∃ text', read = some (text', rest) := by
  obtain ⟨⟨text', rest'⟩, hsome, heq⟩ := Option.map_eq_some_iff.mp hread
  cases heq
  exact ⟨text', hsome⟩

theorem length_lt_of_readQuoted {cs text rest : Text} (hread : readQuoted cs = some (text, rest)) :
    rest.length < cs.length := by
  fun_induction readQuoted cs generalizing text with
  | case1 cs =>
    cases hread
    simp
  | case2 d₁ d₂ d₃ d₄ cs ih =>
    obtain ⟨c, _, hread⟩ := Option.bind_eq_some_iff.mp hread
    obtain ⟨text', hlater⟩ := exists_of_map_prepend hread
    have hshorter := ih hlater
    simp only [List.length_cons]
    omega
  | case3 c cs _ ih =>
    obtain ⟨c, _, hread⟩ := Option.bind_eq_some_iff.mp hread
    obtain ⟨text', hlater⟩ := exists_of_map_prepend hread
    have hshorter := ih hlater
    simp only [List.length_cons]
    omega
  | case4 => cases hread
  | case5 c cs _ _ _ _ ih =>
    obtain ⟨text', hlater⟩ := exists_of_map_prepend hread
    have hshorter := ih hlater
    simp only [List.length_cons]
    omega
  | case6 => cases hread

theorem length_lt_of_readLiteral {cs text rest : Text}
    (hread : readLiteral cs = some (text, rest)) : rest.length < cs.length := by
  unfold readLiteral at hread
  split at hread
  · have hshorter := length_lt_of_readQuoted hread
    simp only [List.length_cons]
    omega
  · cases hread

/-! ### Between the quotes -/

/-- The number of backslashes that a text ends with. -/
def trailingBackslashes (cs : Text) : Nat :=
  (cs.rtakeWhile (· == '\\')).length

/-- The backslashes right before every quote are odd in number, so that the last of them escapes
the quote and is not itself escaped. -/
def QuotesEscaped (cs : Text) : Prop :=
  ∀ front back, cs = front ++ '\x27' :: back → trailingBackslashes front % 2 = 1

theorem trailingBackslashes_backslash (cs : Text) :
    trailingBackslashes (cs ++ ['\\']) = trailingBackslashes cs + 1 := by
  unfold trailingBackslashes
  rw [List.rtakeWhile_concat_pos _ _ _ (by rfl), List.length_append]
  rfl

theorem trailingBackslashes_of_getLast? {cs : Text} {c : Char} (hlast : cs.getLast? = some c)
    (hc : c ≠ '\\') (front : Text) : trailingBackslashes (front ++ cs) = 0 := by
  obtain ⟨cs, rfl⟩ := List.getLast?_eq_some_iff.mp hlast
  unfold trailingBackslashes
  rw [← List.append_assoc, List.rtakeWhile_concat_neg _ _ _ (by simpa using hc), List.length_nil]

theorem digit_of_mem_hexDigits {n : Nat} {d : Char} (hd : d ∈ hexDigits n) :
    isControl d = false ∧ isLineEnd d = false ∧ d ≠ '\x27' ∧ d ≠ '\\' := by
  have hall : ∀ k < 16, isControl (Nat.digitChar k) = false ∧ isLineEnd (Nat.digitChar k) = false ∧
      Nat.digitChar k ≠ '\x27' ∧ Nat.digitChar k ≠ '\\' := by decide
  obtain ⟨k, _, rfl⟩ := List.mem_map.mp hd
  exact hall (k % 16) (Nat.mod_lt k (by decide))

theorem escape_cases (c : Char) :
    (∃ d ∈ ['\x27', '\\', 'n', 'r', 't'], escape c = ['\\', d]) ∨
      escape c = '\\' :: 'u' :: hexDigits c.toNat ∨
      escape c = [c] ∧ c ≠ '\x27' ∧ c ≠ '\\' ∧ isControl c = false ∧ isLineEnd c = false := by
  unfold escape
  split_ifs with hquote hslash hfeed hreturn htab hcode
  · exact .inl ⟨'\x27', by simp, rfl⟩
  · exact .inl ⟨'\\', by simp, rfl⟩
  · exact .inl ⟨'n', by simp, rfl⟩
  · exact .inl ⟨'r', by simp, rfl⟩
  · exact .inl ⟨'t', by simp, rfl⟩
  · exact .inr (.inl rfl)
  · simp only [not_or, Bool.not_eq_true] at hcode
    refine .inr (.inr ⟨rfl, hquote, hslash, hcode.2.2, ?_⟩)
    simp [isLineEnd, hfeed, hreturn, hcode]

theorem visible_of_mem_escape {c d : Char} (hd : d ∈ escape c) :
    isControl d = false ∧ isLineEnd d = false := by
  rcases escape_cases c with ⟨e, he, heq⟩ | heq | ⟨heq, _, _, hvisible⟩
  · have hall : (['\x27', '\\', 'n', 'r', 't'].all fun e =>
        !isControl e && !isLineEnd e) = true := by decide
    rw [heq, List.mem_cons, List.mem_singleton] at hd
    rcases hd with rfl | rfl
    · decide
    · simpa using List.all_eq_true.mp hall d he
  · rw [heq, List.mem_cons, List.mem_cons] at hd
    rcases hd with rfl | rfl | hd
    · decide
    · decide
    · obtain ⟨hcontrol, hline, _⟩ := digit_of_mem_hexDigits hd
      exact ⟨hcontrol, hline⟩
  · rw [heq, List.mem_singleton] at hd
    rwa [hd]

theorem trailingBackslashes_escape {front : Text} (heven : trailingBackslashes front % 2 = 0)
    (c : Char) : trailingBackslashes (front ++ escape c) % 2 = 0 := by
  rcases escape_cases c with ⟨d, _, heq⟩ | heq | ⟨heq, _, hslash, _⟩
  · by_cases hslash : d = '\\'
    · have htwo : front ++ ['\\', '\\'] = (front ++ ['\\']) ++ ['\\'] := by simp
      rw [heq, hslash, htwo, trailingBackslashes_backslash, trailingBackslashes_backslash]
      omega
    · rw [heq, trailingBackslashes_of_getLast? rfl hslash]
  · have hlast : (escape c).getLast? = some (Nat.digitChar (c.toNat % 16)) := by
      rw [heq]
      rfl
    have hdigit : Nat.digitChar (c.toNat % 16) ∈ hexDigits c.toNat := by simp [hexDigits]
    rw [trailingBackslashes_of_getLast? hlast (digit_of_mem_hexDigits hdigit).2.2.2]
  · rw [heq, trailingBackslashes_of_getLast? rfl hslash]

/-- A quote is written only for a quote, behind one more backslash. -/
theorem eq_backslash_of_escape {c : Char} {front back : Text}
    (hsplit : escape c = front ++ '\x27' :: back) : front = ['\\'] := by
  have hmem : '\x27' ∈ escape c := by simp [hsplit]
  rcases escape_cases c with ⟨d, _, heq⟩ | heq | ⟨heq, hquote, _⟩
  · rw [heq, List.cons_eq_append_iff] at hsplit
    rcases hsplit with ⟨_, hhead⟩ | ⟨front, rfl, hrest⟩
    · simp at hhead
    · obtain ⟨rfl, _⟩ : front = [] ∧ _ := by simpa [List.singleton_eq_append_iff] using hrest
      rfl
  · rw [heq, List.mem_cons, List.mem_cons] at hmem
    rcases hmem with hslash | hu | hdigit
    · cases hslash
    · cases hu
    · exact absurd rfl (digit_of_mem_hexDigits hdigit).2.2.1
  · rw [heq, List.mem_singleton] at hmem
    exact absurd hmem.symm hquote

theorem escaped_flatMap (cs : Text) :
    trailingBackslashes (cs.flatMap escape) % 2 = 0 ∧ QuotesEscaped (cs.flatMap escape) := by
  -- from the end, since the backslashes before a quote belong to the characters before it
  induction cs using List.reverseRecOn with
  | nil =>
    refine ⟨rfl, ?_⟩
    intro front back hsplit
    simp at hsplit
  | append_singleton cs c ih =>
    obtain ⟨heven, hquotes⟩ := ih
    rw [List.flatMap_append, List.flatMap_singleton]
    refine ⟨trailingBackslashes_escape heven c, ?_⟩
    intro front back hsplit
    rcases List.append_eq_append_iff.mp hsplit with ⟨inner, rfl, hescape⟩ | ⟨inner, hbody, hrest⟩
    · rw [eq_backslash_of_escape hescape, trailingBackslashes_backslash]
      omega
    · cases inner with
      | nil =>
        have hnil : escape c = [] ++ '\x27' :: back := hrest.symm
        cases eq_backslash_of_escape hnil
      | cons d inner =>
        obtain ⟨rfl, _⟩ := List.cons_eq_cons.mp hrest
        exact hquotes front inner hbody

theorem eq_of_quote_begins {cs other : Text} (hbegins : quote cs <+: quote other) :
    cs = other := by
  obtain ⟨rest, hrest⟩ := hbegins
  have hread := readLiteral_quote other []
  rw [List.append_nil, ← hrest, readLiteral_quote] at hread
  exact congrArg Prod.fst (Option.some.inj hread)

/-- **Literals are self-delimiting.** A literal is read back as the text that it was written for,
whatever follows it. So no two texts have one literal, and no literal begins with another. Between
its quotes stand no control character, no end of a line and no quote that is not escaped. -/
theorem quote_selfDelimiting (cs tail : Text) :
    readLiteral (quote cs ++ tail) = some (cs, tail) ∧ Function.Injective quote ∧
      (∀ other, quote cs <+: quote other → quote cs = quote other) ∧
      ∃ body, quote cs = '\x27' :: (body ++ ['\x27']) ∧
        (∀ c ∈ body, isControl c = false ∧ isLineEnd c = false) ∧ QuotesEscaped body := by
  refine ⟨readLiteral_quote cs tail, ?_, ?_, cs.flatMap escape, rfl, ?_, (escaped_flatMap cs).2⟩
  · intro cs other heq
    exact eq_of_quote_begins (heq ▸ List.prefix_rfl)
  · intro other hother
    rw [eq_of_quote_begins hother]
  · intro d hd
    obtain ⟨c, _, hc⟩ := List.mem_flatMap.mp hd
    exact visible_of_mem_escape hc

/-- Backslashes before quotes, text that looks escaped, a control character and a line separator. -/
theorem quote_selfDelimiting_hostile :
    let text := "\\''\\n\x85\u2028".toList
    let literal := "'\\\\\\'\\'\\\\n\\u0085\\u2028'".toList
    quote text = literal ∧
      readLiteral (literal ++ "', x'".toList) = some (text, "', x'".toList) := by
  intro text literal
  have hquote : quote text = literal := by decide
  obtain ⟨hread, _⟩ := quote_selfDelimiting text "', x'".toList
  rw [hquote] at hread
  exact ⟨hquote, hread⟩

end MarkupCompiler.Text
