/-!
# Texts

Classes of characters, parts of texts, and the gaps between tokens.

A gap holds blanks, comments from `//` to the end of the line, and comments between `/*` and `*/`.
`Gap.skip?` passes over one and fails on a comment without its end.
-/

namespace JsonRules

/-- The characters with the property `White_Space`. -/
def isBlank (c : Char) : Bool :=
  let n := c.toNat
  (0x9 ≤ n && n ≤ 0xd) || n == 0x20 || n == 0x85 || n == 0xa0 || n == 0x1680 ||
    (0x2000 ≤ n && n ≤ 0x200a) || n == 0x2028 || n == 0x2029 || n == 0x202f || n == 0x205f ||
    n == 0x3000

/-- The blocks of characters beyond ASCII that hold punctuation, symbols or nothing, each from its first
to its last. -/
def symbolBlocks : List (Nat × Nat) :=
  [(0x80, 0xa9), (0xab, 0xb4), (0xb6, 0xb6), (0xb8, 0xb9), (0xbb, 0xbf), (0xd7, 0xd7), (0xf7, 0xf7),
    (0x2000, 0x203e), (0x2041, 0x2053), (0x2055, 0x2070), (0x2072, 0x207e), (0x2080, 0x208f),
    (0x209d, 0x20cf), (0x2190, 0x2bff), (0x2e00, 0x3004), (0x3008, 0x3020), (0x3200, 0x33ff),
    (0x4dc0, 0x4dff), (0xe000, 0xf8ff), (0xff00, 0xff0f), (0x1f000, 0x1fbef), (0xf0000, 0x10ffff)]

/-- Whether a character beyond ASCII is a letter, a digit or a mark, told by its block. -/
def isForeignLetter (c : Char) : Bool :=
  128 ≤ c.toNat && !symbolBlocks.any fun (first, last) => first ≤ c.toNat && c.toNat ≤ last

/-- A text without the blanks at both of its ends. -/
def trimBlanks (text : List Char) : List Char :=
  ((text.dropWhile isBlank).reverse.dropWhile isBlank).reverse

/-- Whether a text occurs within another. -/
def occursIn (needle : List Char) : List Char → Bool
  | [] => needle.isEmpty
  | c :: rest => needle.isPrefixOf (c :: rest) || occursIn needle rest

/-! ## Gaps between tokens -/

/-- What a format allows between its tokens. -/
structure Gap where
  isBlank : Char → Bool
  isLineEnd : Char → Bool
  /-- Whether comments may hold comments. -/
  nests : Bool

namespace Gap

/-- Where in a gap a reader is. -/
inductive Place where
  | blanks
  | line
  /-- Within so many comments and one more. -/
  | comment (others : Nat)

/-- The text after a gap. -/
def skip? (gap : Gap) : Place → List Char → Option (List Char)
  | .comment _, [] => none
  | .comment 0, '*' :: '/' :: rest => skip? gap .blanks rest
  | .comment (n + 1), '*' :: '/' :: rest => skip? gap (.comment n) rest
  | .comment n, '/' :: '*' :: rest => skip? gap (.comment (if gap.nests then n + 1 else n)) rest
  | .comment n, _ :: rest => skip? gap (.comment n) rest
  | _, [] => some []
  | .line, c :: rest => skip? gap (if gap.isLineEnd c then .blanks else .line) rest
  | .blanks, '/' :: '*' :: rest => skip? gap (.comment 0) rest
  | .blanks, '/' :: '/' :: rest => skip? gap .line rest
  | .blanks, c :: rest => if gap.isBlank c then skip? gap .blanks rest else some (c :: rest)

end Gap
end JsonRules
