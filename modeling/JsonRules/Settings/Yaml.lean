import JsonRules.Settings.Tree
import JsonRules.Settings.Yaml.Token

/-!
# Settings in YAML

Reads one document, whose root is a mapping. The reader has three stages: tokens, which know the layout;
nodes, which know types, anchors and tags; settings.

In the tree of nodes scalars have got their types, aliases stand for the nodes that they name, and the
keys of a mapping are nodes too. `Node.ofTokens?` reads one document. In settings keys become texts, and
what is null or invalid is a setting without a value.
-/

namespace JsonRules

/-! ## Nodes -/

namespace Yaml

/-- A node of a document. -/
inductive Node where
  | null
  /-- What has no value of the type that its tag asks for, or is an alias within what it names. -/
  | invalid
  | flag (b : Bool)
  | integer (n : Int)
  /-- A float, as it is written. -/
  | real (word : String)
  | text (s : String)
  | list (items : List Node)
  | map (entries : List (Node × Node))
deriving Repr, Inhabited

/-! ### Types of scalars -/

/-- An integer of 64 bits in the digits of a base, with an optional sign. -/
def integer? (base : Nat) (s : List Char) : Option Int := do
  let (sign, digits) := Numeral.scanSign s
  let n ← digits.foldlM
    (fun n c => ((Json.Token.hexDigit? c).filter (· < base)).map (base * n + ·)) 0
  let i : Int := if sign == some '-' then -n else n
  if !digits.isEmpty ∧ IsSigned i then some i else none

def flag? (word : String) : Option Bool :=
  if ["true", "True", "TRUE"].contains word then some true
  else if ["false", "False", "FALSE"].contains word then some false
  else none

/-- Whether a word is a float. -/
def isReal (word : String) : Bool :=
  [".inf", ".Inf", ".INF", "+.inf", "+.Inf", "+.INF", "-.inf", "-.Inf", "-.INF", ".nan", ".NaN",
    ".NAN"].contains word ||
    (word.toList.any Char.isDigit && (Extended.ofText? word.toList).isSome)

def isNull (word : String) : Bool := word == "~" || word == "null"

/-- An integer that only a word without tag may be. -/
def markedInteger? : List Char → Option Int
  | '0' :: 'x' :: digits => integer? 16 digits
  | '0' :: 'o' :: digits => integer? 8 digits
  | '+' :: digits => integer? 10 digits
  | _ => none

namespace Node

/-- What a plain scalar without tag is. -/
def ofWord (word : String) : Node :=
  match markedInteger? word.toList with
  | some n => .integer n
  | none =>
    if isNull word then .null
    else match flag? word with
      | some b => .flag b
      | none =>
        match integer? 10 word.toList with
        | some n => .integer n
        | none => if isReal word then .real word else .text word

/-- A node if a word is of a type, and otherwise an invalid one. -/
def orInvalid (node : Option Node) : Node := node.getD .invalid

/-- What a plain scalar with one of the tags of the core types is. -/
def ofCore (type word : String) : Node :=
  if type = "bool" then orInvalid ((flag? word).map .flag)
  else if type = "int" then orInvalid ((integer? 10 word.toList).map .integer)
  else if type = "float" then (if isReal word then .real word else .invalid)
  else if type = "null" then (if isNull word then .null else .invalid)
  else .text word

/-- What the tags of the core types begin with. -/
def coreTags : String := "tag:yaml.org,2002:"

/-- A scalar with its tag, where it has one. Only plain scalars have other types than text. -/
def ofScalar (tag : Option (String × String)) (isPlain : Bool) (text : String) : Node :=
  if !isPlain then .text text
  else match tag with
    | none => ofWord text
    | some (handle, suffix) => if handle = coreTags then ofCore suffix text else .text text

/-- Equality of scalars. -/
def same : Node → Node → Bool
  | .null, .null => true
  | .flag a, .flag b => a == b
  | .integer m, .integer n => m == n
  | .real v, .real w => v == w
  | .text s, .text t => s == t
  | _, _ => false

/-- A mapping of keys and values in turn, without a key twice. What is invalid in the place of a key
is left out. -/
def mapOf? : (entries : List (Node × Node)) → (key : Option Node) → List Node → Option Node
  | entries, _, [] => some (.map entries.reverse)
  | entries, none, .invalid :: rest => mapOf? entries none rest
  | entries, none, key :: rest => mapOf? entries (some key) rest
  | entries, some key, v :: rest =>
    if entries.any fun (k, _) => k.same key then none else mapOf? ((key, v) :: entries) none rest

end Node

/-! ### Documents -/

/-- A node that has a name; it is invalid until all of it has been read. -/
structure Anchor where
  name : String
  number : Nat
  node : Node := .invalid

/-- What is left of a document, with what has been declared in it. -/
structure Reader where
  tokens : List Token
  /-- What the handles of tags stand for. -/
  tags : List (String × String) := []
  /-- The anchors, the last one first. -/
  anchors : List Anchor := []

namespace Reader

/-- Goes on by one token. -/
def next (r : Reader) : Reader := { r with tokens := r.tokens.tail }

/-- Whether the next token is in a class. -/
def begins (r : Reader) (isIn : Token → Bool) : Bool := r.tokens.head?.any isIn

/-- The tag of a handle and a suffix. A handle with a name must have been declared. -/
def tag? (r : Reader) (handle suffix : String) : Option (String × String) :=
  if handle = "!!" then some ((r.tags.lookup handle).getD Node.coreTags, suffix)
  else match r.tags.lookup handle with
    | some start => some (start, suffix)
    | none => if 2 ≤ handle.length then none else some (handle, suffix)

/-- The properties of a node: an anchor and a tag, in either order. -/
def properties? (r : Reader) : Option (Option Nat × Option (String × String) × Reader) :=
  let declare (name : String) (rest : List Token) : Reader :=
    { r with tokens := rest, anchors := { name, number := r.anchors.length } :: r.anchors }
  match r.tokens with
  | .anchor name :: .tag handle suffix :: rest => do
    return (some r.anchors.length, some (← r.tag? handle suffix), declare name rest)
  | .tag handle suffix :: .anchor name :: rest => do
    return (some r.anchors.length, some (← r.tag? handle suffix), declare name rest)
  | .anchor name :: rest => some (some r.anchors.length, none, declare name rest)
  | .tag handle suffix :: rest => do
    return (none, some (← r.tag? handle suffix), { r with tokens := rest })
  | _ => some (none, none, r)

/-- Gives an anchor its node. -/
def complete (r : Reader) (number : Option Nat) (node : Node) : Reader :=
  { r with anchors := r.anchors.map fun a => if some a.number = number then { a with node } else a }

/-! ### Where nodes may be missing -/

def endsBlockEntry (t : Token) : Bool := t == .key || t == .value || t == .blockEnd

def endsItem (t : Token) : Bool := t == .item || t == .blockEnd

def endsFlowItem (t : Token) : Bool := t == .comma || t == .flowSequenceEnd

def endsFlowField (t : Token) : Bool := t == .comma || t == .flowMappingEnd

/-- The empty node of properties that have none after them. -/
def missing? (anchor : Option Nat) (tag : Option (String × String)) (r : Reader) :
    Option (Node × Reader) :=
  if anchor.isSome || tag.isSome then some (.ofScalar tag true "", r) else none

mutual

/-- A node. In flow collections there are no blocks; `aligned` says that the items of a sequence may
stand below the key whose value it is. -/
def node? : (fuel : Nat) → (inBlock aligned : Bool) → Reader → Option (Node × Reader)
  | 0, _, _, _ => none
  | fuel + 1, inBlock, aligned, r =>
    match r.tokens with
    | .alias name :: _ =>
      (r.anchors.find? (·.name == name)).map fun a => (a.node, r.next)
    | _ => do
      let (anchor, tag, r) ← r.properties?
      let (node, r) ← match r.tokens with
        | .item :: _ => if aligned then aligned? fuel [] r else missing? anchor tag r
        | .scalar isPlain text :: _ => some (.ofScalar tag isPlain text, r.next)
        | .flowSequence :: _ => flowItems? fuel true [] r.next
        | .flowMapping :: _ => flowFields? fuel true [] r.next
        | .blockSequence :: _ => if inBlock then items? fuel [] r.next else missing? anchor tag r
        | .blockMapping :: _ => if inBlock then fields? fuel [] r.next else missing? anchor tag r
        | _ => missing? anchor tag r
      return (node, r.complete anchor node)

/-- A node, or null before a token of a class. -/
def nodeUnless? : (fuel : Nat) → (inBlock aligned : Bool) → (ends : Token → Bool) → Reader →
    Option (Node × Reader)
  | 0, _, _, _, _ => none
  | fuel + 1, inBlock, aligned, ends, r =>
    if r.begins ends then some (.null, r) else node? fuel inBlock aligned r

/-- The value after a colon, or null where there is no colon. -/
def value? : (fuel : Nat) → (inBlock : Bool) → (ends : Token → Bool) → Reader →
    Option (Node × Reader)
  | 0, _, _, _ => none
  | fuel + 1, inBlock, ends, r =>
    if r.begins (· == .value) then nodeUnless? fuel inBlock inBlock ends r.next else some (.null, r)

/-- The items of a block sequence. -/
def items? : (fuel : Nat) → (read : List Node) → Reader → Option (Node × Reader)
  | 0, _, _ => none
  | fuel + 1, read, r =>
    if r.begins (· == .blockEnd) then some (.list read.reverse, r.next)
    else if r.begins (· == .item) then do
      let (item, r) ← nodeUnless? fuel true false endsItem r.next
      items? fuel (item :: read) r
    else none

/-- The items of a block sequence below a key, which no token ends. -/
def aligned? : (fuel : Nat) → (read : List Node) → Reader → Option (Node × Reader)
  | 0, _, _ => none
  | fuel + 1, read, r =>
    if r.begins (· == .item) then do
      let (item, r) ←
        nodeUnless? fuel true false (fun t => endsItem t || endsBlockEntry t) r.next
      aligned? fuel (item :: read) r
    else some (.list read.reverse, r)

/-- The keys and values of a block mapping. -/
def fields? : (fuel : Nat) → (read : List Node) → Reader → Option (Node × Reader)
  | 0, _, _ => none
  | fuel + 1, read, r =>
    if r.begins (· == .blockEnd) then (Node.mapOf? [] none read.reverse).map (·, r.next)
    else do
      let (key, r) ←
        if r.begins (· == .key) then nodeUnless? fuel true true endsBlockEntry r.next
        else if r.begins (· == .value) then some (.null, r)
        else none
      let (v, r) ← value? fuel true endsBlockEntry r
      fields? fuel (v :: key :: read) r

/-- The items of a flow sequence. An item may be a mapping of one key without marks. -/
def flowItems? : (fuel : Nat) → (first : Bool) → (read : List Node) → Reader →
    Option (Node × Reader)
  | 0, _, _, _ => none
  | fuel + 1, first, read, r =>
    if r.begins (· == .flowSequenceEnd) then some (.list read.reverse, r.next)
    else if !first && !r.begins (· == .comma) then none
    else
      let r := if first then r else r.next
      if r.begins (· == .flowSequenceEnd) then some (.list read.reverse, r.next)
      else if r.begins (· == .key) then do
        let r := r.next
        let (key, r) ←
          if r.begins fun t => endsFlowItem t || t == .value then some (.null, r.next)
          else node? fuel false false r
        let (v, r) ← value? fuel false endsFlowItem r
        flowItems? fuel false ((← Node.mapOf? [] none [key, v]) :: read) r
      else do
        let (item, r) ← node? fuel false false r
        flowItems? fuel false (item :: read) r

/-- The keys and values of a flow mapping. A key may stand alone. -/
def flowFields? : (fuel : Nat) → (first : Bool) → (read : List Node) → Reader →
    Option (Node × Reader)
  | 0, _, _, _ => none
  | fuel + 1, first, read, r =>
    if r.begins (· == .flowMappingEnd) then (Node.mapOf? [] none read.reverse).map (·, r.next)
    else if !first && !r.begins (· == .comma) then none
    else
      let r := if first then r else r.next
      if r.begins (· == .flowMappingEnd) then (Node.mapOf? [] none read.reverse).map (·, r.next)
      else if r.begins fun t => t == .key || t == .value then do
        let (key, r) ←
          if r.begins (· == .key) then
            nodeUnless? fuel false false (fun t => endsFlowField t || t == .value) r.next
          else some (.null, r)
        let (v, r) ← value? fuel false endsFlowField r
        flowFields? fuel false (v :: key :: read) r
      else do
        let (key, r) ← node? fuel false false r
        flowFields? fuel false (.null :: key :: read) r

end

/-- The directives before a document. What one declares about tags ends with the next. -/
def directives? : (version : Bool) → (tags : List (String × String)) → List Token →
    Option (List (String × String) × List Token)
  | version, _, .version :: rest => if version then none else directives? true [] rest
  | version, _, .tagDirective handle start :: rest => directives? version [(handle, start)] rest
  | _, tags, rest => some (tags, rest)

def isDocumentMark (t : Token) : Bool :=
  match t with
  | .version | .tagDirective .. | .documentStart | .documentEnd => true
  | _ => false

end Reader

/-- The root of the document that tokens are, and null where it has none. There must not be a second
document. Without any document there is no root. -/
def Node.ofTokens? (tokens : List Token) : Option (Option Node) := do
  let tokens := tokens.dropWhile (· == .documentEnd)
  if tokens.isEmpty then some none
  else
    let fuel := 4 * tokens.length + 4
    let (tags, rest) ← Reader.directives? false [] tokens
    let (node, r) ← match rest with
      | .documentStart :: rest =>
        let r : Reader := { tokens := rest, tags }
        if r.tokens.isEmpty || r.begins Reader.isDocumentMark then some (.null, r)
        else r.node? fuel true false
      | rest =>
        if rest.length = tokens.length then Reader.node? fuel true false { tokens := rest, tags }
        else none
    if r.tokens.all (· == .documentEnd) then some (some node) else none

/-! ## From nodes to settings -/

/-- The name that a key gives to a setting. Numbers and flags are written out. -/
def Node.name? : Node → Option String
  | .flag b => some (if b then "true" else "false")
  | .integer n => some (toString n)
  | .real word => some word
  | .text s => some s
  | _ => none

mutual

/-- The setting that a node is. A float must have digits. -/
def settingOf? : Node → Option Setting
  | .null | .invalid => some .absent
  | .flag b => some (.flag b)
  | .integer n => some (.integer n)
  | .real word => (Extended.ofText? word.toList).map .real
  | .text s => some (.text s)
  | .list items => (settingsOf? items).map .list
  | .map entries => (entriesOf? [] entries).map .table

def settingsOf? : List Node → Option (List Setting)
  | [] => some []
  | node :: rest => do return (← settingOf? node) :: (← settingsOf? rest)

/-- The entries of a mapping. Of keys with one name the last one counts. -/
def entriesOf? (read : List (String × Setting)) : List (Node × Node) → Option (List (String × Setting))
  | [] => some read
  | (key, node) :: rest => do
    let setting ← settingOf? node
    entriesOf? (alterEntry (← key.name?) (fun _ => setting) read) rest

end

/-- The setting of a text. Without a document it is an empty table. -/
def read? (text : String) : Option Setting := do
  match ← Node.ofTokens? (← Token.scan? text.toList) with
  | some root => settingOf? root
  | none => some (.table [])

end Yaml
end JsonRules
