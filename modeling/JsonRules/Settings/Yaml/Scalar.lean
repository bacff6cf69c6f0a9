import JsonRules.Json.Token

/-!
# Scalars of YAML

Layout matters in YAML, so a reader knows its line and its column and whether it is still at the
margin, with nothing but blanks before it on its line. `Cursor` is such a place together with the text
that is left. At the end of the text it stands on the character `endMark`.

The readers take the texts that a scalar may be: in quotes, plain, or a block of lines below a header.
Lines of one scalar are folded: a line end between words is a space, and one that empty lines follow
stands for as many line ends as there are of those.
-/

namespace JsonRules

/-! ## Places in a text -/

namespace Yaml

/-! ### Classes of characters -/

/-- What a cursor stands on at the end of a text. A text ends before the first one. -/
def endMark : Char := '\x00'

def isBreak (c : Char) : Bool := c == '\n' || c == '\r'

def isSpace (c : Char) : Bool := c == ' ' || c == '\t'

/-- Whether a line ends before a character. -/
def endsLine (c : Char) : Bool := isBreak c || c == endMark

/-- Whether a word ends before a character. -/
def endsWord (c : Char) : Bool := isSpace c || endsLine c

/-- The characters of flow collections. -/
def isFlow (c : Char) : Bool :=
  c == ',' || c == '[' || c == ']' || c == '\x7b' || c == '\x7d'

/-- The characters of names. -/
def isNameChar (c : Char) : Bool := c.isAlphanum || c == '_' || c == '-'

/-- The characters of the names of anchors. -/
def isAnchorChar (c : Char) : Bool := !endsWord c && !isFlow c && c != '\ufeff'

/-- The characters of tags that are written out. -/
def isUriChar (c : Char) : Bool :=
  c.isAlphanum || ['-', '#', ';', '/', '?', ':', '@', '&', '=', '+', '$', ',', '_', '.', '!', '~',
    '*', '\'', '(', ')', '[', ']', '%'].contains c

/-- The characters of tags after their handle. -/
def isTagChar (c : Char) : Bool := isUriChar c && !isFlow c && c != '!'

/-! ### Cursors -/

/-- A place in a text. -/
structure Cursor where
  rest : List Char
  index : Nat := 0
  line : Nat := 0
  column : Nat := 0
  /-- Only blanks stand before this place on its line. -/
  atMargin : Bool := true

namespace Cursor

def peek (c : Cursor) : Char := c.rest.headD endMark

def peekAt (c : Cursor) (n : Nat) : Char := c.rest.getD n endMark

/-- Goes on by blanks, which do not leave the margin. -/
def skip (c : Cursor) (n : Nat) : Cursor :=
  { c with rest := c.rest.drop n, index := c.index + n, column := c.column + n }

/-- Goes on by characters that leave the margin. -/
def advance (c : Cursor) (n : Nat) : Cursor := { c.skip n with atMargin := false }

/-- Goes on behind a line end, which may have two characters. -/
def nextLine (c : Cursor) : Cursor :=
  let n := if c.peek = '\r' ∧ c.peekAt 1 = '\n' then 2 else 1
  { rest := c.rest.drop n, index := c.index + n, line := c.line + 1, column := 0, atMargin := true }

/-- Goes on by all characters of a class. -/
def skipWhile (isIn : Char → Bool) (c : Cursor) : Cursor :=
  c.skip (c.rest.takeWhile isIn).length

/-- Takes all characters of a class. -/
def takeWhile (isIn : Char → Bool) (c : Cursor) : List Char × Cursor :=
  let read := c.rest.takeWhile isIn
  (read, if read.isEmpty then c else c.advance read.length)

def skipComment (c : Cursor) : Cursor := c.skipWhile fun d => !endsLine d

/-- Whether a mark of three characters and then the end of a word stand here. -/
def isMark (mark : Char) (c : Cursor) : Bool :=
  c.rest.take 3 == [mark, mark, mark] && endsWord (c.peekAt 3)

/-- Whether a document begins or ends here. -/
def atDocument (c : Cursor) : Bool := c.column == 0 && (c.isMark '-' || c.isMark '.')

/-- Goes on by blanks and a comment on the same line, before which there must be a blank. -/
def skipRest? (c : Cursor) : Option Cursor :=
  let after := c.skipWhile isSpace
  if after.peek = '#' then (if after.index = c.index then none else some after.skipComment)
  else some after

end Cursor
/-! ## Readers of scalars -/

/-! ### Gaps between words -/

/-- What has been read between two words of a scalar. -/
inductive WordGap where
  /-- Blanks on one line, the last one first. -/
  | blanks (read : List Char)
  /-- Line ends: one that is folded, unless it is escaped, and others. -/
  | breaks (folded : Bool) (others : Nat)

namespace WordGap

/-- The characters that a gap stands for, the last one first. -/
def chars : WordGap → List Char
  | .blanks read => read
  | .breaks true 0 => [' ']
  | .breaks _ others => List.replicate others '\n'

/-- A gap with one line end more. -/
def addBreak : WordGap → WordGap
  | .blanks _ => .breaks true 0
  | .breaks folded others => .breaks folded (others + 1)

/-- Reads a gap. A tab may not indent what follows; where `lenient` says so it may stand on a line
that is otherwise empty. -/
def read? (lenient : Bool) (indent : Int) :
    (fuel : Nat) → WordGap → Cursor → Option (WordGap × Cursor)
  | 0, _, _ => none
  | fuel + 1, gap, c =>
    if isBreak c.peek then read? lenient indent fuel gap.addBreak c.nextLine
    else if isSpace c.peek then
      match gap with
      | .blanks read => read? lenient indent fuel (.blanks (c.peek :: read)) (c.skip 1)
      | gap =>
        if c.peek = '\t' ∧ c.column < indent then do
          let after ← if lenient then c.skipRest? else none
          if endsLine after.peek then read? lenient indent fuel gap after else none
        else read? lenient indent fuel gap (c.skip 1)
    else some (gap, c)

end WordGap

/-! ### Texts in quotes -/

/-- The character that so many hexadecimal digits stand for, and the text after them. -/
def coded? (digits : Nat) (s : List Char) : Option (Char × List Char) := do
  let n ← Json.Token.hexValue? (s.take digits)
  if s.length < digits ∨ ¬ n.isValidChar then none else some (Char.ofNat n, s.drop digits)

/-- The character that an escape stands for, from after its backslash, and the text after it. -/
def escape? : List Char → Option (Char × List Char)
  | '0' :: rest => some ('\x00', rest)
  | 'a' :: rest => some ('\x07', rest)
  | 'b' :: rest => some ('\x08', rest)
  | 't' :: rest => some ('\t', rest)
  | '\t' :: rest => some ('\t', rest)
  | 'n' :: rest => some ('\n', rest)
  | 'v' :: rest => some ('\x0b', rest)
  | 'f' :: rest => some ('\x0c', rest)
  | 'r' :: rest => some ('\r', rest)
  | 'e' :: rest => some ('\x1b', rest)
  | ' ' :: rest => some (' ', rest)
  | '"' :: rest => some ('"', rest)
  | '/' :: rest => some ('/', rest)
  | '\\' :: rest => some ('\\', rest)
  | 'N' :: rest => some ('\x85', rest)
  | '_' :: rest => some ('\xa0', rest)
  | 'L' :: rest => some ('\u2028', rest)
  | 'P' :: rest => some ('\u2029', rest)
  | 'x' :: rest => coded? 2 rest
  | 'u' :: rest => coded? 4 rest
  | 'U' :: rest => coded? 8 rest
  | _ => none

/-- Reads up to a blank, a line end or the quote that closes. A backslash before a line end joins the
lines, and then the gap that follows has begun. -/
def quotedWord? (quote : Char) :
    (fuel : Nat) → (read : List Char) → Cursor → Option (List Char × WordGap × Cursor)
  | 0, _, _ => none
  | fuel + 1, read, c =>
    if endsWord c.peek then some (read, .blanks [], c)
    else if c.peek = quote then
      if quote = '\'' ∧ c.peekAt 1 = quote then quotedWord? quote fuel (quote :: read) (c.advance 2)
      else some (read, .blanks [], c)
    else if c.peek = '\\' ∧ quote = '"' then
      if isBreak (c.peekAt 1) then some (read, .breaks false 0, (c.advance 1).nextLine)
      else do
        let (char, rest) ← escape? (c.rest.drop 1)
        quotedWord? quote fuel (char :: read) (c.advance (c.rest.length - rest.length))
    else quotedWord? quote fuel (c.peek :: read) (c.advance 1)

/-- Reads a text in quotes from after the first to after the last. Its lines must be indented. -/
def quoted? (quote : Char) (indent : Int) :
    (fuel : Nat) → (read : List Char) → Cursor → Option (List Char × Cursor)
  | 0, _, _ => none
  | fuel + 1, read, c => do
    if c.atDocument ∨ c.peek = endMark ∨ c.column < indent then none
    else
      let (read, gap, c) ← quotedWord? quote (fuel + 1) read c
      if c.peek = quote then some (read.reverse, c.advance 1)
      else
        let (gap, c) ← gap.read? false indent (fuel + 1) c
        quoted? quote indent fuel (gap.chars ++ read) c

/-! ### Plain texts -/

/-- The plain characters at the beginning of a text. A colon ends them where it may be a mark. -/
def plainWord (inFlow : Bool) : List Char → List Char
  | [] => []
  | c :: rest =>
    let next := rest.headD endMark
    if endsWord c || (inFlow && isFlow c) ||
        (c == ':' && (endsWord next || (inFlow && isFlow next))) then []
    else c :: plainWord inFlow rest

/-- Reads a plain text and the gap after it. Lines that are indented less do not belong to it, and
neither does a comment. -/
def plain? (inFlow : Bool) (indent : Int) :
    (fuel : Nat) → (read gap : List Char) → Cursor → Option (List Char × Cursor)
  | 0, _, _, _ => none
  | fuel + 1, read, gap, c => do
    if c.atDocument ∨ c.peek = '#' then some (read.reverse, c)
    else if inFlow ∧ c.peek = '-' ∧ isFlow (c.peekAt 1) then none
    else
      let word := plainWord inFlow c.rest
      let (read, c) :=
        if word.isEmpty then (read, c) else (word.reverse ++ gap ++ read, c.advance word.length)
      if !(isSpace c.peek || isBreak c.peek) then some (read.reverse, c)
      else
        let (gap, c) ← WordGap.read? true indent (fuel + 1) (.blanks []) c
        if !inFlow ∧ c.column < indent then some (read.reverse, c)
        else plain? inFlow indent fuel read gap.chars c

/-! ### Blocks -/

/-- What becomes of the line ends at the end of a block. -/
inductive Chomping where
  | strip
  | clip
  | keep
deriving DecidableEq

/-- The mark of a chomping at a place. -/
def chompingMark (c : Cursor) : Option Chomping :=
  if c.peek = '+' then some .keep else if c.peek = '-' then some .strip else none

/-- The digit that says how far a block is indented, which must not be zero; zero if it is missing. -/
def indentMark? (c : Cursor) : Option (Nat × Cursor) :=
  if c.peek.isDigit then
    if c.peek = '0' then none else some (c.peek.toNat - '0'.toNat, c.advance 1)
  else some (0, c)

/-- Reads the header of a block: the two marks in either order. -/
def blockHeader? (c : Cursor) : Option (Chomping × Nat × Cursor) := do
  match chompingMark c with
  | some chomping =>
    let (indent, c) ← indentMark? (c.advance 1)
    return (chomping, indent, c)
  | none =>
    let (indent, c) ← indentMark? c
    match if indent = 0 then none else chompingMark c with
    | some chomping => return (chomping, indent, c.advance 1)
    | none => return (.clip, indent, c)

/-- Skips empty lines, whose number is the result, and the indentation of the line after them. -/
def skipIndent (indent : Nat) : (fuel : Nat) → (breaks : Nat) → Cursor → Nat × Cursor
  | 0, breaks, c => (breaks, c)
  | fuel + 1, breaks, c =>
    let c := c.skip ((c.rest.take (indent - c.column)).takeWhile (· == ' ')).length
    if isBreak c.peek then skipIndent indent fuel (breaks + 1) c.nextLine else (breaks, c)

/-- Skips empty lines and the indentation of the first line of a block. The indentation is that of
the line that is indented most. -/
def findIndent (most : Nat) : (fuel : Nat) → (breaks : Nat) → Cursor → Nat × Nat × Cursor
  | 0, breaks, c => (most, breaks, c)
  | fuel + 1, breaks, c =>
    let c := c.skipWhile (· == ' ')
    let most := max most c.column
    if isBreak c.peek then findIndent most fuel (breaks + 1) c.nextLine else (most, breaks, c)

/-- What has been read of a block: its text, the last character first, and the line ends after it. -/
structure BlockPart where
  read : List Char
  /-- There is a line end after the last line. -/
  ended : Bool
  /-- How many empty lines follow. -/
  breaks : Nat
  /-- The last line begins with a blank, so that its end is not folded. -/
  spaced : Bool

/-- The line ends between two lines of a block, of which the second begins with a blank or not. -/
def BlockPart.between (folded : Bool) (part : BlockPart) (spaced : Bool) : List Char :=
  if folded && part.ended && !part.spaced && !spaced then (WordGap.breaks true part.breaks).chars
  else List.replicate (part.ended.toNat + part.breaks) '\n'

/-- Reads the lines of a block from the first character of one. -/
def blockLines (folded : Bool) (indent : Nat) : (fuel : Nat) → BlockPart → Cursor → BlockPart × Cursor
  | 0, part, c => (part, c)
  | fuel + 1, part, c =>
    if c.column ≠ indent ∨ c.peek = endMark ∨ (indent = 0 ∧ c.isMark '.') then (part, c)
    else
      let spaced := isSpace c.peek
      let line := c.rest.takeWhile fun d => !endsLine d
      let read := line.reverse ++ part.between folded spaced ++ part.read
      let c := c.skip line.length
      if c.peek = endMark then (⟨read, false, 0, spaced⟩, c)
      else
        let (breaks, c) := skipIndent indent (fuel + 1) 0 c.nextLine
        blockLines folded indent fuel ⟨read, true, breaks, spaced⟩ c

/-- Reads a block from after its first mark, within a collection that is indented as `parent` says. -/
def block? (folded : Bool) (parent : Int) (start : Cursor) : Option (List Char × Cursor) := do
  let fuel := start.rest.length + 1
  let (chomping, mark, c) ← blockHeader? start
  let c ← c.skipRest?
  if !endsLine c.peek then none
  let c := if isBreak c.peek then c.nextLine else c
  if c.peek = '\t' then none
  let (indent, breaks, c) :=
    if 0 < mark then
      let indent := (max parent 0).toNat + mark
      (indent, skipIndent indent fuel 0 c)
    else
      let (most, breaks, c) := findIndent 0 fuel 0 c
      (max (max most (parent + 1).toNat) (if 0 < parent then 1 else 0), breaks, c)
  if c.peek = endMark then
    let breaks := match chomping with
      | .strip => 0
      | .clip => min 1 (c.line - start.line)
      | .keep => min (max 1 breaks) (c.line - start.line)
    some (List.replicate breaks '\n', c)
  else if c.column < indent ∧ parent < c.column then none
  else
    let (part, c) := blockLines folded indent fuel ⟨[], false, breaks, false⟩ c
    let ended := if c.peek = endMark ∧ max indent 1 ≤ c.column then 1 else 0
    let breaks := match chomping with
      | .strip => 0
      | .clip => part.ended.toNat + ended
      | .keep => part.ended.toNat + ended + part.breaks
    some ((List.replicate breaks '\n' ++ part.read).reverse, c)

end Yaml
end JsonRules
