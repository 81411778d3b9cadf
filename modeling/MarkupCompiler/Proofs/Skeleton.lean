import MarkupCompiler.Proofs.Literals

/-!
# Reading calls

The skeleton of a call is all that a generated call says: the tag name, the properties and the
children, in order. `Skeleton.ofCode?` reads it back from the text of a call alone, without knowing
the names of the helper and the view model. Each reader gives what it has read and a shorter rest,
which is why the nested ones end.
-/

namespace MarkupCompiler

/-- One property of a call; a dynamic one is given by an expression. -/
structure Property where
  field : Text
  isDynamic : Bool
  value : Text
  deriving DecidableEq, Repr

/-- What can stand in the children of a call. -/
inductive Skeleton where
  | text (content : Text)
  | expression (content : Text)
  | call (tagName : Text) (properties : List Property) (children : List Skeleton)

/-- The characters of names and of paths through them. -/
def Text.isPathChar (c : Char) : Bool :=
  c == '.' || isIdentifierChar c

/-- What can be read as a word. -/
def Text.IsWord (word : Text) : Prop :=
  word ≠ [] ∧ ∀ c ∈ word, isPathChar c = true

/-- A value read off the front of a text, with the rest, which is shorter. -/
structure Front (cs : Text) (α : Type) where
  value : α
  rest : Text
  shorter : rest.length < cs.length

namespace Front

variable {α β : Type} {cs : Text}

def map (f : α → β) (r : Front cs α) : Front cs β :=
  { r with value := f r.value }

/-- What was read off the rest of an earlier front. -/
def after (earlier : Front cs α) (r : Front earlier.rest β) : Front cs β :=
  { r with shorter := r.shorter.trans earlier.shorter }

end Front

namespace Skeleton

open Text

/-- A literal, or a word of names and points. -/
inductive Atom where
  | literal (content : Text)
  | word (content : Text)

def Atom.content : Atom → Text
  | .literal content => content
  | .word content => content

def Atom.isWord : Atom → Bool
  | .literal _ => false
  | .word _ => true

/-! ### The readers -/

def mark? (c : Char) (more cs : Text) : Option (Front cs Unit) :=
  if hbegins : c :: more <+: cs then
    have hshorter : (cs.drop (more.length + 1)).length < cs.length := by
      have hlength := hbegins.length_le
      rw [List.length_cons] at hlength
      rw [List.length_drop]
      omega
    some ⟨(), cs.drop (more.length + 1), hshorter⟩
  else none

def literal? (cs : Text) : Option (Front cs Text) :=
  match hread : readLiteral cs with
  | some (content, rest) => some ⟨content, rest, length_lt_of_readLiteral hread⟩
  | none => none

def word? (cs : Text) : Option (Front cs Text) :=
  if hne : cs.takeWhile isPathChar ≠ [] then
    have hshorter : (cs.dropWhile isPathChar).length < cs.length := by
      have hpositive := List.length_pos_iff.mpr hne
      have hsplit : (cs.takeWhile isPathChar ++ cs.dropWhile isPathChar).length = cs.length := by
        rw [List.takeWhile_append_dropWhile]
      rw [List.length_append] at hsplit
      omega
    some ⟨cs.takeWhile isPathChar, cs.dropWhile isPathChar, hshorter⟩
  else none

def atom? (cs : Text) : Option (Front cs Atom) :=
  match literal? cs with
  | some r => some (r.map .literal)
  | none => (word? cs).map (Front.map .word)

def property? (cs : Text) : Option (Front cs Property) := do
  let key ← atom? cs
  let colon ← mark? ':' [' '] key.rest
  let value ← atom? colon.rest
  return key.after (colon.after (value.map fun a =>
    { field := key.value.content, isDynamic := a.isWord, value := a.content }))

/-- Reads properties, each after a comma, and the closing brace. -/
def moreProperties? (cs : Text) : Option (Front cs (List Property)) :=
  match mark? ',' [' '] cs with
  | none => (mark? ' ' ['\x7d'] cs).map (Front.map fun _ => [])
  | some comma => do
    have := comma.shorter
    let first ← property? comma.rest
    have := first.shorter
    let more ← moreProperties? first.rest
    return comma.after (first.after (more.map (first.value :: ·)))
termination_by cs.length

/-- Reads the properties of a call, with the comma before them. -/
def properties? (cs : Text) : Option (Front cs (List Property)) := do
  let brace ← mark? ',' [' ', '\x7b', ' '] cs
  let first ← property? brace.rest
  let more ← moreProperties? first.rest
  return brace.after (first.after (more.map (first.value :: ·)))

mutual

def node? (cs : Text) : Option (Front cs Skeleton) := do
  let atom ← atom? cs
  have := atom.shorter
  match atom.value, mark? '(' [] atom.rest with
  | .literal content, _ => return atom.map fun _ => .text content
  | .word content, none => return atom.map fun _ => .expression content
  | .word _, some opening => do
    have := opening.shorter
    let tag ← literal? opening.rest
    have := tag.shorter
    match properties? tag.rest with
    | none => do
      let children ← children? tag.rest
      return atom.after (opening.after (tag.after (children.map (.call tag.value []))))
    | some properties => do
      have := properties.shorter
      let children ← children? properties.rest
      return atom.after (opening.after (tag.after (properties.after
        (children.map (.call tag.value properties.value)))))
termination_by cs.length

/-- Reads the children of a call, if it has any, and the closing parenthesis. -/
def children? (cs : Text) : Option (Front cs (List Skeleton)) :=
  match mark? ',' [' ', '['] cs with
  | none => (mark? ')' [] cs).map (Front.map fun _ => [])
  | some bracket => do
    have := bracket.shorter
    let first ← node? bracket.rest
    have := first.shorter
    let more ← more? first.rest
    let closing ← mark? ')' [] more.rest
    return bracket.after (first.after (more.after (closing.map fun _ => first.value :: more.value)))
termination_by cs.length

/-- Reads children, each after a comma, and the closing bracket. -/
def more? (cs : Text) : Option (Front cs (List Skeleton)) :=
  match mark? ',' [' '] cs with
  | none => (mark? ']' [] cs).map (Front.map fun _ => [])
  | some comma => do
    have := comma.shorter
    let first ← node? comma.rest
    have := first.shorter
    let more ← more? first.rest
    return comma.after (first.after (more.map (first.value :: ·)))
termination_by cs.length

end

/-- The skeleton that a whole text spells. -/
def ofCode? (code : Text) : Option Skeleton := do
  let r ← node? code
  if r.rest.isEmpty then some r.value else none

/-! ### What is read off a text -/

/-- The reader takes `value` off the front of a text and leaves `rest`. -/
def Gives {α : Type} (read : (cs : Text) → Option (Front cs α)) (cs : Text) (value : α)
    (rest : Text) : Prop :=
  ∃ hshorter, read cs = some ⟨value, rest, hshorter⟩

theorem gives_mark (c : Char) (more rest : Text) :
    Gives (mark? c more) (c :: (more ++ rest)) () rest := by
  have hbegins : c :: more <+: c :: (more ++ rest) := List.prefix_append (c :: more) rest
  have hshorter : rest.length < (c :: (more ++ rest)).length := by
    rw [List.length_cons, List.length_append]
    omega
  refine ⟨hshorter, ?_⟩
  simp [mark?, hbegins]

theorem mark?_eq_none {c : Char} {more cs : Text} (hbegins : ¬ c :: more <+: cs) :
    mark? c more cs = none := by
  rw [mark?, dif_neg hbegins]

theorem gives_literal (content rest : Text) :
    Gives literal? (quote content ++ rest) content rest := by
  have hread := readLiteral_quote content rest
  refine ⟨length_lt_of_readLiteral hread, ?_⟩
  unfold literal?
  split
  · rename_i hread'
    rw [hread] at hread'
    cases hread'
    rfl
  · rename_i hread'
    rw [hread] at hread'
    cases hread'

theorem literal?_eq_none {c : Char} (hc : c ≠ '\x27') (cs : Text) : literal? (c :: cs) = none := by
  have hnone : readLiteral (c :: cs) = none := by
    unfold readLiteral
    split
    · rename_i heq
      exact absurd (List.cons.inj heq).1 hc
    · rfl
  unfold literal?
  split
  · rename_i hread
    rw [hnone] at hread
    cases hread
  · rfl

theorem gives_atom_literal (content rest : Text) :
    Gives atom? (quote content ++ rest) (.literal content) rest := by
  obtain ⟨hshorter, hread⟩ := gives_literal content rest
  refine ⟨hshorter, ?_⟩
  rw [atom?, hread]
  rfl

theorem gives_atom_word {word rest : Text} (hword : IsWord word) (hrest : Stops isPathChar rest) :
    Gives atom? (word ++ rest) (.word word) rest := by
  obtain ⟨hne, hchars⟩ := hword
  have htake := takeWhile_append_of_stops hchars hrest
  have hdrop := dropWhile_append_of_stops hchars hrest
  have hnot : literal? (word ++ rest) = none := by
    obtain ⟨c, word, rfl⟩ := List.exists_cons_of_ne_nil hne
    refine literal?_eq_none ?_ _
    rintro rfl
    cases hchars '\x27' (by simp)
  have hpositive := List.length_pos_iff.mpr hne
  refine ⟨by rw [List.length_append]; omega, ?_⟩
  simp [atom?, hnot, word?, htake, hdrop, hne, Front.map]

/-! ### One reader after another -/

section Rules

variable {cs cs₁ cs₂ cs₃ rest : Text} {key value : Atom} {word tagName content : Text}
  {property : Property} {properties : List Property} {child : Skeleton} {children : List Skeleton}

theorem gives_property (hkey : Gives atom? cs key cs₁) (hcolon : Gives (mark? ':' [' ']) cs₁ () cs₂)
    (hvalue : Gives atom? cs₂ value rest) :
    Gives property? cs
      { field := key.content, isDynamic := value.isWord, value := value.content } rest := by
  obtain ⟨hlt₁, hkey⟩ := hkey
  obtain ⟨hlt₂, hcolon⟩ := hcolon
  obtain ⟨hlt, hvalue⟩ := hvalue
  refine ⟨hlt.trans (hlt₂.trans hlt₁), ?_⟩
  simp only [property?, hkey, hcolon, hvalue, Option.bind_eq_bind, Option.bind_some]
  rfl

theorem gives_moreProperties_nil (hcomma : mark? ',' [' '] cs = none)
    (hbrace : Gives (mark? ' ' ['\x7d']) cs () rest) : Gives moreProperties? cs [] rest := by
  obtain ⟨hlt, hbrace⟩ := hbrace
  refine ⟨hlt, ?_⟩
  rw [moreProperties?, hcomma, hbrace]
  rfl

theorem gives_moreProperties_cons (hcomma : Gives (mark? ',' [' ']) cs () cs₁)
    (hfirst : Gives property? cs₁ property cs₂)
    (hmore : Gives moreProperties? cs₂ properties rest) :
    Gives moreProperties? cs (property :: properties) rest := by
  obtain ⟨hlt₁, hcomma⟩ := hcomma
  obtain ⟨hlt₂, hfirst⟩ := hfirst
  obtain ⟨hlt, hmore⟩ := hmore
  refine ⟨hlt.trans (hlt₂.trans hlt₁), ?_⟩
  rw [moreProperties?, hcomma]
  simp only [hfirst, hmore, Option.bind_eq_bind, Option.bind_some]
  rfl

theorem gives_properties (hbrace : Gives (mark? ',' [' ', '\x7b', ' ']) cs () cs₁)
    (hfirst : Gives property? cs₁ property cs₂)
    (hmore : Gives moreProperties? cs₂ properties rest) :
    Gives properties? cs (property :: properties) rest := by
  obtain ⟨hlt₁, hbrace⟩ := hbrace
  obtain ⟨hlt₂, hfirst⟩ := hfirst
  obtain ⟨hlt, hmore⟩ := hmore
  refine ⟨hlt.trans (hlt₂.trans hlt₁), ?_⟩
  simp only [properties?, hbrace, hfirst, hmore, Option.bind_eq_bind, Option.bind_some]
  rfl

theorem properties?_eq_none (hbrace : mark? ',' [' ', '\x7b', ' '] cs = none) :
    properties? cs = none := by
  rw [properties?, hbrace]
  rfl

theorem gives_text (hatom : Gives atom? cs (.literal content) rest) :
    Gives node? cs (.text content) rest := by
  obtain ⟨hlt, hatom⟩ := hatom
  refine ⟨hlt, ?_⟩
  simp only [node?, hatom, Option.bind_eq_bind, Option.bind_some]
  rfl

theorem gives_expression (hatom : Gives atom? cs (.word content) rest)
    (hopening : mark? '(' [] rest = none) : Gives node? cs (.expression content) rest := by
  obtain ⟨hlt, hatom⟩ := hatom
  refine ⟨hlt, ?_⟩
  simp only [node?, hatom, hopening, Option.bind_eq_bind, Option.bind_some]
  rfl

theorem gives_call_bare (hatom : Gives atom? cs (.word word) cs₁)
    (hopening : Gives (mark? '(' []) cs₁ () cs₂) (htag : Gives literal? cs₂ tagName cs₃)
    (hproperties : properties? cs₃ = none) (hchildren : Gives children? cs₃ children rest) :
    Gives node? cs (.call tagName [] children) rest := by
  obtain ⟨hlt₁, hatom⟩ := hatom
  obtain ⟨hlt₂, hopening⟩ := hopening
  obtain ⟨hlt₃, htag⟩ := htag
  obtain ⟨hlt, hchildren⟩ := hchildren
  refine ⟨hlt.trans (hlt₃.trans (hlt₂.trans hlt₁)), ?_⟩
  simp only [node?, hatom, hopening, htag, hproperties, hchildren, Option.bind_eq_bind,
    Option.bind_some]
  rfl

theorem gives_call {cs₄ : Text} (hatom : Gives atom? cs (.word word) cs₁)
    (hopening : Gives (mark? '(' []) cs₁ () cs₂) (htag : Gives literal? cs₂ tagName cs₃)
    (hproperties : Gives properties? cs₃ properties cs₄)
    (hchildren : Gives children? cs₄ children rest) :
    Gives node? cs (.call tagName properties children) rest := by
  obtain ⟨hlt₁, hatom⟩ := hatom
  obtain ⟨hlt₂, hopening⟩ := hopening
  obtain ⟨hlt₃, htag⟩ := htag
  obtain ⟨hlt₄, hproperties⟩ := hproperties
  obtain ⟨hlt, hchildren⟩ := hchildren
  refine ⟨hlt.trans (hlt₄.trans (hlt₃.trans (hlt₂.trans hlt₁))), ?_⟩
  simp only [node?, hatom, hopening, htag, hproperties, hchildren, Option.bind_eq_bind,
    Option.bind_some]
  rfl

theorem gives_children_nil (hbracket : mark? ',' [' ', '['] cs = none)
    (hclosing : Gives (mark? ')' []) cs () rest) : Gives children? cs [] rest := by
  obtain ⟨hlt, hclosing⟩ := hclosing
  refine ⟨hlt, ?_⟩
  rw [children?, hbracket, hclosing]
  rfl

theorem gives_children_cons (hbracket : Gives (mark? ',' [' ', '[']) cs () cs₁)
    (hfirst : Gives node? cs₁ child cs₂) (hmore : Gives more? cs₂ children cs₃)
    (hclosing : Gives (mark? ')' []) cs₃ () rest) :
    Gives children? cs (child :: children) rest := by
  obtain ⟨hlt₁, hbracket⟩ := hbracket
  obtain ⟨hlt₂, hfirst⟩ := hfirst
  obtain ⟨hlt₃, hmore⟩ := hmore
  obtain ⟨hlt, hclosing⟩ := hclosing
  refine ⟨hlt.trans (hlt₃.trans (hlt₂.trans hlt₁)), ?_⟩
  rw [children?, hbracket]
  simp only [hfirst, hmore, hclosing, Option.bind_eq_bind, Option.bind_some]
  rfl

theorem gives_more_nil (hcomma : mark? ',' [' '] cs = none)
    (hbracket : Gives (mark? ']' []) cs () rest) : Gives more? cs [] rest := by
  obtain ⟨hlt, hbracket⟩ := hbracket
  refine ⟨hlt, ?_⟩
  rw [more?, hcomma, hbracket]
  rfl

theorem gives_more_cons (hcomma : Gives (mark? ',' [' ']) cs () cs₁)
    (hfirst : Gives node? cs₁ child cs₂) (hmore : Gives more? cs₂ children rest) :
    Gives more? cs (child :: children) rest := by
  obtain ⟨hlt₁, hcomma⟩ := hcomma
  obtain ⟨hlt₂, hfirst⟩ := hfirst
  obtain ⟨hlt, hmore⟩ := hmore
  refine ⟨hlt.trans (hlt₂.trans hlt₁), ?_⟩
  rw [more?, hcomma]
  simp only [hfirst, hmore, Option.bind_eq_bind, Option.bind_some]
  rfl

end Rules

theorem ofCode?_of_gives {code : Text} {k : Skeleton} (hgives : Gives node? code k []) :
    ofCode? code = some k := by
  obtain ⟨_, hread⟩ := hgives
  rw [ofCode?, hread]
  rfl

end Skeleton

end MarkupCompiler
