import JsonRules.Settings.Yaml.Scalar

/-!
# Tokens of YAML

Cuts a text into tokens. Blocks have no marks of their own in the text, so the scanner keeps the
indentations that are open and puts tokens for their beginnings and ends. That a key has been read
shows only at the colon after it: the place of what may be a key is remembered, and the token that
announces it is put there afterwards. `Token.scan?` gives the tokens of a text.
-/

namespace JsonRules
namespace Yaml

inductive Token where
  | version
  | tagDirective (handle start : String)
  | documentStart
  | documentEnd
  | blockSequence
  | blockMapping
  | blockEnd
  | flowSequence
  | flowSequenceEnd
  | flowMapping
  | flowMappingEnd
  | item
  | comma
  | key
  | value
  | alias (name : String)
  | anchor (name : String)
  | tag (handle suffix : String)
  | scalar (isPlain : Bool) (text : String)
deriving DecidableEq, Repr

/-- A place where a key may have begun. -/
structure KeyPlace where
  possible : Bool := false
  /-- Nothing but a key may begin there. -/
  required : Bool := false
  /-- How many tokens come before it. -/
  tokens : Nat := 0
  index : Nat := 0
  line : Nat := 0
  column : Nat := 0

/-- An indentation that is open. -/
structure Level where
  /-- The indentation around it. -/
  outer : Int
  /-- It is that of a block, and not only the least one of what follows a mark. -/
  isBlock : Bool

/-- The scanner at a place of the text. -/
structure Scanner where
  cursor : Cursor
  /-- The tokens so far, the last one first. -/
  tokens : List Token := []
  /-- A key may begin here. -/
  keyAllowed : Bool := true
  /-- The places of possible keys, for each flow collection that is open and for the block. -/
  keys : List KeyPlace := [{}]
  indent : Int := -1
  levels : List Level := []
  /-- The flow collections that are open. -/
  flow : Nat := 0
  /-- Where a colon needs no blank after it. -/
  colonAt : Option Nat := none
  /-- A mapping with marks of its own has begun in a flow collection. -/
  inMapping : Bool := false
  /-- For each flow sequence that is open, whether a mapping without marks has begun in it. -/
  implicits : List Bool := []
  /-- The last token is an anchor or a tag at the beginning of a line. -/
  propertyAtLine : Bool := false

namespace Scanner

def push (t : Token) (s : Scanner) : Scanner :=
  { s with tokens := t :: s.tokens, propertyAtLine := false }

/-- Puts a token where so many come before it. -/
def insert (before : Nat) (t : Token) (s : Scanner) : Scanner :=
  { s with tokens := s.tokens.insertIdx (s.tokens.length - before) t }

def inFlow (s : Scanner) : Bool := s.flow != 0

def inBlockLevel (s : Scanner) : Bool := s.levels.head?.any (·.isBlock)

/-! ### Levels -/

/-- Closes levels that are indented further than a column. -/
def closeLevels (column : Int) (s : Scanner) : Scanner :=
  if s.inFlow then s
  else
    let rec go (s : Scanner) : List Level → Scanner
      | [] => s
      | level :: rest =>
        if column < s.indent then
          let s := { s with indent := level.outer, levels := rest }
          go (if level.isBlock then s.push .blockEnd else s) rest
        else s
    go s s.levels

/-- Closes the levels that are no blocks. -/
def closeLoose (s : Scanner) : Scanner :=
  let rec go (s : Scanner) : List Level → Scanner
    | [] => s
    | level :: rest =>
      if level.isBlock then s else go { s with indent := level.outer, levels := rest } rest
  go s s.levels

/-- Opens the level of a block at a column, unless it is open. The token that begins it is put where
`before` tokens come before it. -/
def openBlock (column before : Nat) (t : Token) (s : Scanner) : Scanner :=
  if s.inFlow then s
  else
    let s := match s.levels with
      | ⟨outer, false⟩ :: rest =>
        if s.indent ≤ (column : Int) then { s with indent := outer, levels := rest } else s
      | _ => s
    if s.indent < (column : Int) then
      { s with indent := column, levels := ⟨s.indent, true⟩ :: s.levels }.insert before t
    else s

/-- Opens a level one further in for what follows a mark of a block. -/
def openLoose (s : Scanner) : Scanner :=
  if !s.inFlow && s.inBlockLevel then
    { s with indent := s.indent + 1, levels := ⟨s.indent, false⟩ :: s.levels }
  else s

/-! ### Places of keys -/

/-- Remembers that a key may begin here. -/
def saveKey (s : Scanner) : Scanner :=
  if s.keyAllowed then
    let c := s.cursor
    let place : KeyPlace :=
      { possible := true
        required := !s.inFlow && s.indent == c.column && s.inBlockLevel
        tokens := s.tokens.length
        index := c.index
        line := c.line
        column := c.column }
    { s with keys := place :: s.keys.tail }
  else s

/-- Gives up the last place of a key, which must not have been one that needs a key. -/
def dropKey? (s : Scanner) : Option Scanner :=
  match s.keys with
  | [] => some s
  | place :: rest =>
    if place.possible ∧ place.required then none
    else some { s with keys := { place with possible := false } :: rest }

/-- Gives up the places of keys that have become too long. In a block a key is on one line. -/
def dropStale? (s : Scanner) : Option Scanner := do
  let isStale (place : KeyPlace) : Bool :=
    place.possible && !s.inFlow &&
      (decide (place.line < s.cursor.line) || decide (place.index + 1024 < s.cursor.index))
  if s.keys.any fun place => isStale place && place.required then none
  else some { s with
    keys := s.keys.map fun place => if isStale place then { place with possible := false } else place }

/-! ### Gaps -/

/-- Skips blanks, line ends and comments. -/
def skipGap? : (fuel : Nat) → Scanner → Option Scanner
  | 0, _ => none
  | fuel + 1, s =>
    let c := s.cursor
    if c.peek = '\t' ∧ !s.levels.isEmpty ∧ c.atMargin ∧ c.column < s.indent then do
      let after ← c.skipRest?
      if endsLine after.peek then skipGap? fuel { s with cursor := after } else none
    else if isSpace c.peek then skipGap? fuel { s with cursor := c.skip 1 }
    else if isBreak c.peek then
      skipGap? fuel { s with cursor := c.nextLine, keyAllowed := s.keyAllowed || !s.inFlow }
    else if c.peek = '#' then skipGap? fuel { s with cursor := c.skipComment }
    else some s

/-- Skips spaces, line ends and comments after the mark of a key; the result says too whether there
was a space or a line end. -/
def skipAfterKey : (fuel : Nat) → (found : Bool) → Scanner → Bool × Scanner
  | 0, found, s => (found, s)
  | fuel + 1, found, s =>
    let c := s.cursor
    if c.peek = ' ' then skipAfterKey fuel true { s with cursor := c.skip 1 }
    else if isBreak c.peek then
      skipAfterKey fuel true { s with cursor := c.nextLine, keyAllowed := s.keyAllowed || !s.inFlow }
    else if c.peek = '#' then skipAfterKey fuel found { s with cursor := c.skipComment }
    else (found, s)

/-- Skips the rest of a line as far as it holds blanks and a comment. -/
def skipRest? (s : Scanner) : Option Scanner :=
  s.cursor.skipRest?.map fun cursor => { s with cursor }

/-! ### Directives, tags and anchors -/

/-- A byte that a tag writes as `%` and two hexadecimal digits, and the text after it. -/
def escapedByte? : List Char → Option (Nat × List Char)
  | '%' :: a :: b :: rest => (Json.Token.hexValue? [a, b]).map (·, rest)
  | _ => none

/-- How many bytes a character has that begins with a given byte. -/
def byteCount? (byte : Nat) : Option Nat :=
  if byte < 0x80 then some 1
  else if byte / 0x20 = 6 then some 2
  else if byte / 0x10 = 14 then some 3
  else if byte / 8 = 30 then some 4
  else none

/-- The character of escaped bytes, and the text after them. -/
def uriEscape? (s : List Char) : Option (Char × List Char) := do
  let (byte, rest) ← escapedByte? s
  let rec more : Nat → Nat → List Char → Option (Nat × List Char)
    | 0, code, s => some (code, s)
    | n + 1, code, s => do
      let (byte, rest) ← escapedByte? s
      if byte / 0x40 = 2 then more n (256 * code + byte) rest else none
  let (code, rest) ← more ((← byteCount? byte) - 1) byte rest
  if code.isValidChar then some (Char.ofNat code, rest) else none

/-- Reads characters of a tag. -/
def uri? (isIn : Char → Bool) :
    (fuel : Nat) → (read : List Char) → Cursor → Option (List Char × Cursor)
  | 0, _, _ => none
  | fuel + 1, read, c =>
    if c.peek = '%' then do
      let (char, rest) ← uriEscape? c.rest
      uri? isIn fuel (char :: read) (c.advance (c.rest.length - rest.length))
    else if isIn c.peek then uri? isIn fuel (c.peek :: read) (c.advance 1)
    else some (read.reverse, c)

/-- A handle of tags: a name between two marks, or the beginning of a tag. -/
def handle? (inDirective : Bool) (c : Cursor) : Option (List Char × Cursor) := do
  if c.peek ≠ '!' then none
  let (name, c) := (c.advance 1).takeWhile isNameChar
  if c.peek = '!' then some ('!' :: name ++ ['!'], c.advance 1)
  else if inDirective ∧ !name.isEmpty then none
  else some ('!' :: name, c)

/-- A tag and the place after it. -/
def tag? (c : Cursor) : Option (Token × Cursor) := do
  let fuel := c.rest.length + 1
  if c.peekAt 1 = '<' then
    let (uri, c) ← uri? isUriChar fuel [] (c.advance 2)
    if c.peek = '>' then some (.tag "" (String.ofList uri), c.advance 1) else none
  else
    let (handle, c) ← handle? false c
    let (suffix, c) ← uri? isTagChar fuel [] c
    if 2 ≤ handle.length ∧ handle.getLast? = some '!' then
      if suffix.isEmpty then none
      else some (.tag (String.ofList handle) (String.ofList suffix), c)
    else
      let suffix := handle.drop 1 ++ suffix
      if suffix.isEmpty then some (.tag "" "!", c)
      else some (.tag "!" (String.ofList suffix), c)

/-- The number of a version, in up to nine digits. -/
def versionNumber? (c : Cursor) : Option Cursor :=
  let (digits, c) := c.takeWhile Char.isDigit
  if digits.isEmpty ∨ 9 < digits.length then none else some c

/-- The beginning of the tags that a handle stands for. -/
def tagStart? (c : Cursor) : Option (List Char × Cursor) :=
  let fuel := c.rest.length + 1
  if c.peek = '!' then uri? isUriChar fuel ['!'] (c.advance 1)
  else if isTagChar c.peek then uri? isUriChar fuel [] c
  else none

/-- A directive, which takes a whole line. An unknown one declares no tags. -/
def directive? (c : Cursor) : Option (Token × Cursor) := do
  let (name, c) := (c.advance 1).takeWhile isNameChar
  if name.isEmpty ∨ !endsWord c.peek then none
  let (t, c) ←
    if name = "YAML".toList then do
      let c ← versionNumber? (c.skipWhile isSpace)
      if c.peek ≠ '.' then none
      let c ← versionNumber? (c.advance 1)
      some (Token.version, c)
    else if name = "TAG".toList then do
      let (handle, c) ← handle? true (c.skipWhile isSpace)
      let (start, c) ← tagStart? (c.skipWhile isSpace)
      if endsWord c.peek then
        some (Token.tagDirective (String.ofList handle) (String.ofList start), c)
      else none
    else some (Token.tagDirective "" "", c.skipComment)
  let c ← c.skipRest?
  if isBreak c.peek then some (t, c.nextLine) else none

/-! ### One token -/

/-- Reads an anchor, or the name of one. -/
def anchor? (make : String → Token) (s : Scanner) : Option Scanner :=
  let s := { s.saveKey with keyAllowed := false }
  let (name, c) := (s.cursor.advance 1).takeWhile isAnchorChar
  if name.isEmpty then none
  else some { s.push (make (String.ofList name)) with cursor := c }

/-- Reads a tag. A word must end after it. -/
def tagToken? (s : Scanner) : Option Scanner := do
  let s := { s.saveKey with keyAllowed := false }
  let (t, c) ← tag? s.cursor
  if endsWord c.peek ∨ (s.inFlow ∧ isFlow c.peek) then some { s.push t with cursor := c } else none

/-- Reads a directive, before which all blocks end. -/
def directiveToken? (s : Scanner) : Option Scanner := do
  let s ← (s.closeLevels (-1)).dropKey?
  let (t, c) ← directive? s.cursor
  return { s.push t with cursor := c, keyAllowed := false }

/-- Reads the mark of a document, before which all blocks end. -/
def documentMark? (t : Token) (s : Scanner) : Option Scanner := do
  let s ← (s.closeLevels (-1)).dropKey?
  return { s.push t with cursor := s.cursor.advance 3, keyAllowed := false }

/-- Ends a mapping without marks in a flow sequence. -/
def closeImplicit (s : Scanner) : Scanner :=
  match s.implicits with
  | true :: rest =>
    { s.push .flowMappingEnd with inMapping := false, implicits := false :: rest }
  | _ => s

/-- Opens a flow collection. They nest up to 255 deep. -/
def openFlow? (t : Token) (s : Scanner) : Option Scanner :=
  let s := s.saveKey.openLoose
  if s.flow = 255 then none
  else
    let s := { s with keys := {} :: s.keys, flow := s.flow + 1, keyAllowed := true,
                      cursor := s.cursor.advance 1 }
    let s := if t = .flowMapping then { s with inMapping := true }
      else { s with implicits := false :: s.implicits }
    s.skipRest?.map (push t)

/-- Closes a flow collection. A colon after it may need no blank. -/
def closeFlow? (t : Token) (s : Scanner) : Option Scanner := do
  let s ← s.dropKey?
  let s := if s.inFlow then { s with flow := s.flow - 1, keys := s.keys.tail } else s
  let s := { s with keyAllowed := false }
  let s := if t = .flowSequenceEnd then
      let s := s.closeImplicit
      { s with implicits := s.implicits.tail }
    else s
  let s ← { s with cursor := s.cursor.advance 1 }.skipRest?
  return { s with colonAt := if s.inFlow then some s.cursor.index else s.colonAt }.push t

/-- Reads a comma. -/
def comma? (s : Scanner) : Option Scanner := do
  let s ← s.dropKey?
  let s := { s with keyAllowed := true }.closeImplicit
  let s ← { s with cursor := s.cursor.advance 1 }.skipRest?
  return s.push .comma

/-- Reads the dash of an item of a block. -/
def item? (s : Scanner) : Option Scanner := do
  let column := s.cursor.column
  if s.inFlow ∨ !s.keyAllowed ∨ (s.propertyAtLine ∧ column = 0 ∧ -1 < s.indent) then none
  let s := { s with cursor := s.cursor.advance 1 }.openBlock column s.tokens.length .blockSequence
  let blanks := s.cursor.rest.takeWhile isSpace
  let s ← s.skipRest?
  if blanks.contains '\t' ∧ s.cursor.peek = '-' ∧ endsWord (s.cursor.peekAt 1) then none
  let s := if isBreak s.cursor.peek ∨ isFlow s.cursor.peek then s.openLoose else s
  let s ← s.dropKey?
  return { s with keyAllowed := true }.push .item

/-- Reads the mark of a key. -/
def key? (s : Scanner) : Option Scanner := do
  if !s.inFlow ∧ !s.keyAllowed then none
  let s := if s.inFlow then { s with inMapping := true }
    else s.openBlock s.cursor.column s.tokens.length .blockMapping
  let s ← s.dropKey?
  let s := { s with keyAllowed := !s.inFlow, cursor := s.cursor.advance 1 }
  let (found, s) := skipAfterKey (s.cursor.rest.length + 1) false s
  if !found ∨ s.cursor.peek = '\t' then none
  return s.push .key

/-- Reads a colon and puts the tokens of the key before it where that began. -/
def value? (s : Scanner) : Option Scanner := do
  let column := s.cursor.column
  let line := s.cursor.line
  let implicit := !s.implicits.isEmpty && !s.inMapping
  let s := if implicit then { s with implicits := true :: s.implicits.tail } else s
  let s := { s with cursor := s.cursor.advance 1 }
  let blanks := s.cursor.rest.takeWhile isSpace
  let s ← if s.cursor.peek = '\t' then s.skipRest? else some s
  if blanks.head? = some '\t' ∧ !blanks.contains ' ' ∧ isNameChar s.cursor.peek then none
  match s.keys with
  | place :: rest =>
    if place.possible then
      let s := s.insert place.tokens .key
      if implicit ∧ place.line < line then none
      let s := if implicit then s.insert place.tokens .flowMapping else s
      let s := (s.openBlock place.column place.tokens .blockMapping).openLoose
      return { s with keys := { place with possible := false } :: rest, keyAllowed := false }.push
        .value
    else
      let s := if implicit then s.push .flowMapping else s
      if !s.inFlow ∧ !s.keyAllowed then none
      let s := (s.openBlock column s.tokens.length .blockMapping).openLoose
      return { s with keyAllowed := !s.inFlow }.push .value
  | [] => none

/-- Reads a block of lines. -/
def blockScalar? (folded : Bool) (s : Scanner) : Option Scanner := do
  let s := { s.saveKey with keyAllowed := true }.closeLoose
  let (text, c) ← block? folded s.indent (s.cursor.advance 1)
  return { s.push (.scalar false (String.ofList text)) with cursor := c }

/-- Reads a text in quotes. Where it may be a key, a colon needs no blank. -/
def quotedScalar? (quote : Char) (s : Scanner) : Option Scanner := do
  let s := { s.saveKey with keyAllowed := false }
  let line := s.cursor.line
  let fuel := s.cursor.rest.length + 1
  let (text, c) ← quoted? quote s.indent fuel [] (s.cursor.advance 1)
  let c ← c.skipRest?
  let next := c.peek
  if !endsLine next ∧ !(s.inFlow ∧ (next = ',' ∨ next = ']' ∨ next = '\x7d' ∨ next = ':')) ∧
      !(!s.inFlow ∧ next = ':' ∧ line = c.line) then none
  let s ← skipGap? (c.rest.length + 1) { s with cursor := c }
  return { s with colonAt := some s.cursor.index }.push (.scalar false (String.ofList text))

/-- Reads a plain text. -/
def plainScalar? (s : Scanner) : Option Scanner := do
  let s := { s.saveKey with keyAllowed := false }.closeLoose
  let indent := s.indent + 1
  if s.inFlow ∧ s.cursor.column < indent then none
  let (text, c) ← plain? s.inFlow indent (s.cursor.rest.length + 1) [] [] s.cursor
  if text.isEmpty then none
  return { s.push (.scalar true (String.ofList text)) with
    cursor := c, keyAllowed := c.atMargin }

/-- Reads a token that begins with a given character, before another one. -/
def begin? (c next : Char) (s : Scanner) : Option Scanner :=
  if c = '[' then s.openFlow? .flowSequence
  else if c = '\x7b' then s.openFlow? .flowMapping
  else if c = ']' then s.closeFlow? .flowSequenceEnd
  else if c = '\x7d' then s.closeFlow? .flowMappingEnd
  else if c = ',' then s.comma?
  else if c = '-' ∧ endsWord next then s.item?
  else if c = '?' ∧ endsWord next then s.key?
  else if c = ':' ∧ endsWord next then s.value?
  else if c = ':' ∧ s.inFlow ∧ (isFlow next ∨ s.colonAt = some s.cursor.index) then
    if s.colonAt ≠ some s.cursor.index ∧ (next = '[' ∨ next = '\x7b') then none else s.value?
  else if c = '*' then s.anchor? .alias
  else if c = '&' then s.anchor? .anchor
  else if c = '!' then s.tagToken?
  else if c = '|' ∧ !s.inFlow then s.blockScalar? false
  else if c = '>' ∧ !s.inFlow then s.blockScalar? true
  else if c = '\'' ∨ c = '"' then s.quotedScalar? c
  else if c = '%' ∨ c = '@' ∨ c = '\x60' then none
  else s.plainScalar?

/-- Ends all blocks at the end of the text. No place may need a key then. -/
def finish? (s : Scanner) : Option Scanner :=
  if s.keys.any fun place => place.possible && place.required then none
  else some (s.closeLevels (-1))

/-- Reads a token. At the end of the text there is none. -/
def step? (s : Scanner) : Option (Option Scanner) := do
  let s ← skipGap? (s.cursor.rest.length + 1) s
  let s ← s.dropStale?
  let s := s.closeLevels s.cursor.column
  let c := s.cursor
  if c.peek = endMark then some none
  else if c.column = 0 ∧ c.peek = '%' then return some (← s.directiveToken?)
  else if c.column = 0 ∧ c.isMark '-' then return some (← s.documentMark? .documentStart)
  else if c.column = 0 ∧ c.isMark '.' then
    let s ← s.documentMark? .documentEnd
    let s ← s.skipRest?
    if endsLine s.cursor.peek then some (some s) else none
  else if c.column < s.indent then none
  else
    let s ← s.begin? c.peek (c.peekAt 1)
    return some { s with propertyAtLine := c.column == 0 && (c.peek == '&' || c.peek == '!') }

/-- Reads all tokens. -/
def run? : (fuel : Nat) → Scanner → Option (List Token)
  | 0, _ => none
  | fuel + 1, s => do
    match ← s.step? with
    | some s => run? fuel s
    | none => return (← s.finish?).tokens.reverse

end Scanner

/-- The tokens of a text. -/
def Token.scan? (text : List Char) : Option (List Token) :=
  let text := text.takeWhile (· != endMark)
  Scanner.run? (text.length + 2) { cursor := { rest := text } }

end Yaml
end JsonRules
