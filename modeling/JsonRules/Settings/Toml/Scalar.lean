import JsonRules.Double.Decimal
import JsonRules.Json.Token
import JsonRules.Settings.Tree

/-!
# Numbers, words and dates of TOML

Integers in four bases, floats, the words for flags and for what is no finite number, and moments,
which become texts. Between digits of numbers there may be single underscores.

A moment is a date, a time of day, or both, and then perhaps with the offset from universal time.
`Moment.read?` takes the written form, `Moment.text` gives it: what is optional stays away, and a
fraction of a second is cut to nanoseconds and has no zeros at its end.
-/

namespace JsonRules

/-! ## Dates and times -/

namespace Toml

structure Date where
  year : Nat
  month : Nat
  day : Nat
deriving DecidableEq, Repr

structure TimeOfDay where
  hour : Nat
  minute : Nat
  second : Option Nat
  /-- The digits of a fraction of a second. -/
  fraction : Option (List Char)
deriving DecidableEq, Repr

/-- How far the clock of a place is from universal time. -/
inductive ClockOffset where
  | universal
  | shift (negative : Bool) (hours minutes : Nat)
deriving DecidableEq, Repr

inductive Moment where
  | date (d : Date)
  | time (t : TimeOfDay)
  | both (d : Date) (t : TimeOfDay) (offset : Option ClockOffset)
deriving DecidableEq, Repr

/-- A number of so many digits, and the text after it. -/
def fixed? (digits : Nat) (s : List Char) : Option (Nat × List Char) :=
  let read := s.take digits
  if read.length = digits ∧ read.all Char.isDigit then some (digitsValue read, s.drop digits)
  else none

/-- A mark and a number of two digits after it, up to a limit, and the text after them. -/
def marked? (mark : Char) (limit : Nat) : List Char → Option (Nat × List Char)
  | c :: rest => if c = mark then (fixed? 2 rest).filter (·.1 ≤ limit) else none
  | [] => none

namespace Date

/-- Whether a year has a day more. -/
def isLeap (year : Nat) : Bool := year % 4 == 0 && (year % 100 != 0 || year % 400 == 0)

def daysIn (year month : Nat) : Nat :=
  if month = 2 then (if isLeap year then 29 else 28)
  else if month = 4 ∨ month = 6 ∨ month = 9 ∨ month = 11 then 30
  else 31

/-- A day of the calendar, and the text after it. -/
def read? (s : List Char) : Option (Date × List Char) := do
  let (year, rest) ← fixed? 4 s
  let (month, rest) ← marked? '-' 12 rest
  let (day, rest) ← marked? '-' (daysIn year month) rest
  if month = 0 ∨ day = 0 then none
  else some (⟨year, month, day⟩, rest)

end Date

/-- A number with zeros in front, in so many digits. -/
def padded (digits n : Nat) : List Char :=
  let written := Nat.toDigits 10 n
  List.replicate (digits - written.length) '0' ++ written

def Date.chars (d : Date) : List Char :=
  padded 4 d.year ++ '-' :: padded 2 d.month ++ '-' :: padded 2 d.day

namespace TimeOfDay

/-- A time, and the text after it. Seconds may be missing, and a minute may have one more. -/
def read? (s : List Char) : Option (TimeOfDay × List Char) := do
  let (hour, rest) ← (fixed? 2 s).filter (·.1 ≤ 23)
  let (minute, rest) ← marked? ':' 59 rest
  match rest with
  | ':' :: _ => do
    let (second, rest) ← marked? ':' 60 rest
    match rest with
    | '.' :: rest =>
      let fraction := rest.takeWhile Char.isDigit
      if fraction.isEmpty then none
      else some (⟨hour, minute, some second, some fraction⟩, rest.dropWhile Char.isDigit)
    | _ => some (⟨hour, minute, some second, none⟩, rest)
  | _ => some (⟨hour, minute, none, none⟩, rest)

/-- The nanoseconds of a fraction without the zeros at their end, of which one stays. -/
def fractionChars (fraction : List Char) : List Char :=
  match ((fraction.take 9).reverse.dropWhile (· == '0')).reverse with
  | [] => ['0']
  | digits => digits

def chars (t : TimeOfDay) : List Char :=
  padded 2 t.hour ++ ':' :: padded 2 t.minute ++
    (match t.second with
      | some second => ':' :: padded 2 second
      | none => []) ++
    (match t.fraction with
      | some fraction => '.' :: fractionChars fraction
      | none => [])

end TimeOfDay

namespace ClockOffset

/-- An offset to the end of the text. -/
def read? : List Char → Option (Option ClockOffset)
  | [] => some none
  | c :: rest =>
    if c = 'Z' ∨ c = 'z' then (if rest.isEmpty then some (some .universal) else none)
    else do
      let (hours, rest) ← (marked? '+' 23 (c :: rest)).orElse fun _ => marked? '-' 23 (c :: rest)
      let (minutes, rest) ← marked? ':' 59 rest
      if rest.isEmpty then some (some (.shift (c == '-') hours minutes)) else none

/-- A shift of nothing has a plus. -/
def chars : ClockOffset → List Char
  | .universal => ['Z']
  | .shift negative hours minutes =>
    (if negative && (hours, minutes) != (0, 0) then '-' else '+') ::
      padded 2 hours ++ ':' :: padded 2 minutes

end ClockOffset

namespace Moment

/-- The moment that a text is. The time comes after a `T` or a space. -/
def read? (s : List Char) : Option Moment :=
  match Date.read? s with
  | none => (TimeOfDay.read? s).bind fun (t, rest) => if rest.isEmpty then some (.time t) else none
  | some (d, []) => some (.date d)
  | some (d, c :: rest) => do
    if c = 'T' ∨ c = 't' ∨ c = ' ' then
      let (t, rest) ← TimeOfDay.read? rest
      return .both d t (← ClockOffset.read? rest)
    else none

def chars : Moment → List Char
  | .date d => d.chars
  | .time t => t.chars
  | .both d t offset => d.chars ++ 'T' :: t.chars ++ (offset.map ClockOffset.chars).getD []

def text (m : Moment) : String := String.ofList m.chars

end Moment
/-! ## Scalars -/

/-- Digits without the single underscores between them. -/
def digits? (isDigit : Char → Bool) (s : List Char) : Option (List Char) :=
  let rec go : (afterDigit : Bool) → List Char → Option (List Char)
    | afterDigit, [] => if afterDigit then some [] else none
    | afterDigit, c :: rest =>
      if isDigit c then (go true rest).map (c :: ·)
      else if c = '_' ∧ afterDigit then go false rest
      else none
  go false s

/-- An integer that a signed word of 64 bits holds. -/
def signed? (n : Int) : Option Setting :=
  if IsSigned n then some (.integer n) else none

/-- An integer in the digits of a base. -/
def inBase? (base : Nat) (s : List Char) : Option Setting := do
  let isDigit (c : Char) : Bool := (Json.Token.hexDigit? c).any (· < base)
  let digits ← digits? isDigit s
  let n ← digits.foldlM (fun n c => (Json.Token.hexDigit? c).map (base * n + ·)) 0
  signed? n

/-- A whole number in decimal digits: without zeros in front. -/
def wholeDigits? (s : List Char) : Option (List Char) := do
  match ← digits? Char.isDigit s with
  | '0' :: _ :: _ => none
  | digits => some digits

/-- The digits of an optional part of a number, which must have some if it is there. -/
def partDigits? : Option (List Char) → Option (Option (List Char))
  | none => some none
  | some s => (digits? Char.isDigit s).map some

/-- A decimal number: an integer, or a float if there is a fraction or an exponent. -/
def decimal? (s : List Char) : Option Setting := do
  let inPart (c : Char) : Bool := c.isDigit || c == '_'
  let (sign, rest) := Numeral.scanSign s
  let whole ← wholeDigits? (rest.takeWhile inPart)
  let (fraction, rest) := match rest.dropWhile inPart with
    | '.' :: after => (some (after.takeWhile inPart), after.dropWhile inPart)
    | rest => (none, rest)
  let (exponentSign, exponent, rest) := match rest with
    | c :: after =>
      if c = 'e' ∨ c = 'E' then
        let (exponentSign, after) := Numeral.scanSign after
        (exponentSign, some (after.takeWhile inPart), after.dropWhile inPart)
      else (none, none, rest)
    | [] => (none, none, [])
  if !rest.isEmpty then none
  let fraction ← partDigits? fraction
  let exponent ← partDigits? exponent
  let numeral : Numeral := { sign, whole, fraction, exponent := exponent.map (exponentSign, ·) }
  if fraction.isNone ∧ exponent.isNone then
    let n : Int := digitsValue whole
    signed? (if numeral.negative then -n else n)
  else match numeral.value with
    | .finite x => some (.real (.finite x))
    | _ => none

/-- The characters of numbers, words and moments. -/
def inScalar (c : Char) : Bool :=
  c.isAlphanum || c == '+' || c == '-' || c == '.' || c == ':' || c == '_'

/-- The characters of a scalar, and the text after them. A date and a time after it may have a space
between them. -/
def scalarChars (s : List Char) : List Char × List Char :=
  let (first, rest) := s.span inScalar
  match rest with
  | ' ' :: c :: rest =>
    if c.isDigit ∧ (Date.read? first).any (·.2.isEmpty) then
      let (second, rest) := (c :: rest).span inScalar
      (first ++ ' ' :: second, rest)
    else (first, ' ' :: c :: rest)
  | rest => (first, rest)

/-- A number, a word or a moment. -/
def scalarValue? (s : List Char) : Option Setting :=
  let (sign, word) := Numeral.scanSign s
  if s = ['t', 'r', 'u', 'e'] then some (.flag true)
  else if s = ['f', 'a', 'l', 's', 'e'] then some (.flag false)
  else if word = ['i', 'n', 'f'] then some (.real (.infinite (sign == some '-')))
  else if word = ['n', 'a', 'n'] then some (.real .nan)
  else match s with
    | '0' :: 'x' :: digits => inBase? 16 digits
    | '0' :: 'o' :: digits => inBase? 8 digits
    | '0' :: 'b' :: digits => inBase? 2 digits
    | s => (decimal? s).orElse fun _ => (Moment.read? s).map fun m => .text m.text

end Toml
end JsonRules
