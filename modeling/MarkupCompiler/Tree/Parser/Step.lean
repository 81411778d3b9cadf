import MarkupCompiler.Tree.Parser.TagBody

/-!
One construct of a template at a time, with the elements that are open kept on a stack, innermost
first. A malformed construct stops the parse; an end tag too many and end tags too few are reported,
and the tree read so far is the result.
-/

namespace MarkupCompiler.Parser

/-- An open element with the children read so far, newest first. -/
structure Frame where
  head : Head
  children : List Node := []

def Frame.add (f : Frame) (node : Node) : Frame :=
  { f with children := node :: f.children }

def Frame.close (f : Frame) : Element :=
  { f.head with children := f.children.reverse }

structure State where
  cursor : Cursor
  frames : List Frame := []

def reportStrayEnd (name : Text) (location : Location) : Traced Unit :=
  Traced.report
    { cause := .strayEndTag, detail := some ([' ', '<', '/'] ++ name ++ ['>']), location }

def reportMissingEnd (head : Head) : Traced Unit :=
  Traced.report
    { cause := .missingEndTag
      detail := some ([' ', '<'] ++ head.tagName ++ ['>'])
      location := head.location }

/-- Notes an end tag of another name than the element it closes. -/
def noteMismatch (found expected : Text) : Traced Unit :=
  if found = expected then return () else Traced.emit (.mismatch found expected)

/-- Puts a node into the innermost open element; without one it is dropped. -/
def attach (node : Node) : List Frame → Traced (List Frame)
  | [] => do
    Traced.emit (.outsideRoot node.location.start)
    return []
  | frame :: frames => return frame.add node :: frames

/-- Only an end tag is reported of what follows the root. -/
def checkTrailing (c : Cursor) : Traced Unit := do
  let c ← Traced.check c.skipBlanks
  match ← Traced.check (Lexeme.endTag? c.rest) with
  | some (name, size) =>
    let location ← Traced.check (c.peek size)
    reportStrayEnd name location
  | none =>
    if !c.rest.isEmpty then
      Traced.emit (.afterRoot c.position)

/-- Goes on after a complete element. -/
def complete (e : Element) (c : Cursor) : List Frame → Traced (Round State Element)
  | [] => do
    checkTrailing c
    return .done e
  | frame :: frames => return .more { cursor := c, frames := frame.add e.toNode :: frames }

/-- Folds an unfinished element into the open ones around it, each reported in turn. -/
def foldUnfinished (e : Element) : List Frame → Traced Element
  | [] => return e
  | frame :: frames => do
    reportMissingEnd frame.head
    foldUnfinished (frame.add e.toNode).close frames

/-- The tree at the end of the text. -/
def finish : List Frame → Traced Element
  | [] => return Element.emptyRoot
  | frame :: frames => do
    reportMissingEnd frame.head
    foldUnfinished frame.close frames

def readStartTag (g : Grammar) (c : Cursor) (frames : List Frame) :
    Traced (Round State Element) := do
  match Lexeme.tagOpening? c.rest with
  | none => failAhead .malformedStartTag c 1
  | some size =>
    let (opening, c₁) ← Traced.check (c.moveBy size)
    let (_, tagName) ← Traced.check (opening.cut 1)
    let kind : ElementKind := if frames.isEmpty then .root else .element
    Traced.emit (.startTag tagName kind)
    let body ← readTagBody g c.position c₁
    let head : Head :=
      { kind, tagName, attributes := body.attributes
        location := body.cursor.locationFrom c.position }
    if body.isSelfClosing then
      complete { head with } body.cursor frames
    else
      return .more { cursor := body.cursor, frames := { head } :: frames }

/-- An end tag closes the innermost open element, whatever the name in it. -/
def readEndTag (c : Cursor) (frames : List Frame) : Traced (Round State Element) := do
  match ← Traced.check (Lexeme.endTag? c.rest) with
  | none => failAhead .malformedEndTag c 2
  | some (name, size) =>
    let (_, c') ← Traced.check (c.moveBy size)
    let location := c'.locationFrom c.position
    match frames with
    | [] =>
      reportStrayEnd name location
      return .done Element.emptyRoot
    | frame :: frames =>
      noteMismatch name frame.head.tagName
      let e := frame.close
      complete { e with location.stop := location.stop } c' frames

def readInterpolation (g : Grammar) (c : Cursor) (frames : List Frame) :
    Traced (Round State Element) := do
  match ← Traced.check (Lexeme.interpolation? g.delimiters c.rest) with
  | none => failAhead .missingInterpolationEnd c c.rest.byteSize
  | some (content, size) =>
    let (_, c') ← Traced.check (c.moveBy size)
    let run : TextRun := { kind := .interpolation, content, location := c'.locationFrom c.position }
    return .more { cursor := c', frames := ← attach (.text run) frames }

def readText (g : Grammar) (c : Cursor) (frames : List Frame) :
    Traced (Round State Element) := do
  let size ← Traced.check (Lexeme.textSize g.delimiters.opening c.rest)
  let (content, c') ← Traced.check (c.moveBy size)
  let run : TextRun := { kind := .plain, content, location := c'.locationFrom c.position }
  return .more { cursor := c', frames := ← attach (.text run) frames }

/-- Reads one construct. Tags come before interpolations, and an empty delimiter opens none. -/
def step (g : Grammar) (s : State) : Traced (Round State Element) := do
  let c ← Traced.check s.cursor.skipBlanks
  if c.rest.isEmpty then
    return .done (← finish s.frames)
  else if ['<', '/'].isPrefixOf c.rest then
    readEndTag c s.frames
  else if ['<'].isPrefixOf c.rest then
    readStartTag g c s.frames
  else if !g.delimiters.opening.isEmpty && g.delimiters.opening.isPrefixOf c.rest then
    readInterpolation g c s.frames
  else
    readText g c s.frames

end MarkupCompiler.Parser
