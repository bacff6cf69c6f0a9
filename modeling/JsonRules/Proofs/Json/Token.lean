import JsonRules.Json.Document
import JsonRules.Proofs.Double.Layout
import JsonRules.Proofs.Integer
import JsonRules.Proofs.Json.Path
import Mathlib.Tactic.IntervalCases

/-!
# Reading what a value is written as: numbers, strings and tokens

The text of a number is one number token and spells the number again (`Number.ofChars?_chars`); the units of a
string spell the string again (`StringUnit.decode?_ofChar`). The scanner takes the text of a value for its tokens
(`Token.scan?_tokens`): a word or a number ends where its text does, since a mark or nothing follows.
-/

namespace JsonRules

/-! ### Numbers -/

namespace Number

/-- The numeral of an integer. -/
def numeralOfInt (k : Int) : Numeral :=
  ⟨if k < 0 then some '-' else none, Nat.toDigits 10 k.natAbs, none, none⟩

theorem chars_numeralOfInt (k : Int) : (numeralOfInt k).chars = (Number.int k).chars := by
  unfold numeralOfInt Numeral.chars Numeral.unsignedChars chars
  dsimp only
  split <;> simp [Numeral.fractionChars, Numeral.exponentChars]

theorem isSpelled_numeralOfInt (k : Int) : (numeralOfInt k).IsSpelled where
  sign := by
    unfold numeralOfInt Numeral.IsSign
    split <;> simp
  whole _ hc := Nat.isDigit_of_mem_toDigits (by decide) (by decide) hc
  fraction := nofun
  exponentSign := nofun
  exponent := nofun

theorem inGrammar_numeralOfInt (k : Int) : inGrammar (numeralOfInt k) = true := by
  have hsign : (if k < 0 then some '-' else none) ≠ some '+' := by split <;> simp
  obtain ⟨c, rest, hdigits⟩ := List.exists_cons_of_ne_nil (Nat.toDigits_ne_nil (n := k.natAbs) (b := 10))
  have hlead : c = '0' → rest = [] := by
    rintro rfl
    rcases Nat.eq_zero_or_pos k.natAbs with hzero | hpos
    · rw [hzero] at hdigits
      cases hdigits
      rfl
    · have hhead := Nat.head?_toDigits (Nat.ne_of_gt hpos)
      rw [hdigits] at hhead
      exact absurd rfl hhead
  by_cases hc : c = '0'
  · simp [numeralOfInt, inGrammar, Numeral.exponentComplete, hsign, hdigits, hlead hc]
  · simp [numeralOfInt, inGrammar, Numeral.exponentComplete, hsign, hdigits, hc]

/-- The text of a number is a numeral of the grammar. -/
theorem exists_numeral (n : Number) : ∃ m : Numeral, m.chars = n.chars ∧ m.IsSpelled ∧ inGrammar m = true := by
  cases n with
  | int k => exact ⟨numeralOfInt k, chars_numeralOfInt k, isSpelled_numeralOfInt k, inGrammar_numeralOfInt k⟩
  | double x =>
    obtain ⟨m, hchars, hspelled, hgrammar, -⟩ := Json.doubleLayout.exists_numeral rfl x
    exact ⟨m, hchars, hspelled, hgrammar⟩

theorem ofChars?_of_scan? {text : List Char} {m : Numeral} (hscan : Numeral.scan? text = some m)
    (hgrammar : inGrammar m = true) : ofChars? text =
      let i : Int := if m.negative then -m.decimal.digits else m.decimal.digits
      if m.fraction.isNone && m.exponent.isNone && !(m.negative && i == 0) && decide (Number.int i).InRange then
        some (.int i)
      else match m.value with
        | .finite x => some (.double x)
        | _ => none := by
  unfold ofChars?
  rw [hscan, Option.filter_some, if_pos hgrammar]
  rfl

/-- The text of a number spells it. -/
theorem ofChars?_chars {n : Number} (h : n.InRange) : ofChars? n.chars = some n := by
  cases n with
  | int k =>
    have hscan := Numeral.scan?_chars (isSpelled_numeralOfInt k)
    have hnegative : (numeralOfInt k).negative = decide (k < 0) := by
      unfold numeralOfInt Numeral.negative
      by_cases hk : k < 0 <;> simp [hk]
    have hvalue : (if (numeralOfInt k).negative then -((numeralOfInt k).decimal.digits : Int)
        else (numeralOfInt k).decimal.digits) = k := by
      have hdigits : (numeralOfInt k).decimal.digits = k.natAbs := by
        simp [numeralOfInt, Numeral.decimal, digitsValue_toDigits]
      rw [hnegative, hdigits]
      by_cases hk : k < 0
      · rw [if_pos (by simpa using hk)]
        omega
      · rw [if_neg (by simpa using hk)]
        omega
    have hzero : (decide (k < 0) && k == 0) = false := by
      by_cases hk : k = 0 <;> simp [hk]
    rw [← chars_numeralOfInt, ofChars?_of_scan? hscan (inGrammar_numeralOfInt k)]
    dsimp only
    rw [hvalue, hnegative, hzero]
    exact if_pos (by simpa [numeralOfInt] using h)
  | double x =>
    obtain ⟨m, hchars, hspelled, hgrammar, hparts, hvalue⟩ := Json.doubleLayout.exists_numeral rfl x
    have hscan := Numeral.scan?_chars hspelled
    have hnotInteger : (m.fraction.isNone && m.exponent.isNone) = false := by
      rcases hparts with hpart | hpart
      · simp [Option.isSome_iff_ne_none.1 hpart]
      · simp [hpart]
    have htext : (Number.double x).chars = m.chars := hchars.symm
    rw [htext, ofChars?_of_scan? hscan hgrammar]
    dsimp only
    rw [hnotInteger, hvalue]
    rfl

end Number

namespace Json

/-! ### Strings -/

namespace StringUnit

/-- A unit is a code just for the control characters without an escape of their own. -/
theorem ofChar_cases (c : Char) :
    (ofChar c = .char c ∧ (c ∈ ['\x08', '\x0c', '\n', '\r', '\t'] ∨ ' ' ≤ c)) ∨
      (ofChar c = .code c.toNat ∧ c.toNat < 32) := by
  unfold ofChar
  split
  · rename_i h
    exact .inr ⟨rfl, h.1⟩
  · rename_i h
    refine .inl ⟨rfl, ?_⟩
    by_cases hc : c < ' '
    · exact .inl (Decidable.of_not_not fun hmem => h ⟨hc, hmem⟩)
    · exact .inr (Char.not_lt.1 hc)

theorem single?_of_lt {n : Nat} (h : n < 32) : single? n = some (Char.ofNat n) := if_neg (by omega)

theorem pair?_of_lt {n low : Nat} (h : n < 32) : pair? n low = none := if_neg (by omega)

theorem decode?_cons (c : Char) (rest : List StringUnit) :
    decode? (ofChar c :: rest) = (decode? rest).map (c :: ·) := by
  rcases ofChar_cases c with ⟨hunit, -⟩ | ⟨hunit, hc⟩
  · rw [hunit]
    rfl
  · have hsingle : single? c.toNat = some c := by rw [single?_of_lt hc, Char.ofNat_toNat]
    rw [hunit]
    rcases rest with _ | ⟨d | low, rest⟩
    · simp [decode?, hsingle]
    · simp [decode?, hsingle]
    · simp [decode?, hsingle, pair?_of_lt hc]

/-- The units of a text spell it. -/
theorem decode?_ofChar (text : List Char) : decode? (text.map ofChar) = some text := by
  induction text with
  | nil => rfl
  | cons c rest ih => rw [List.map_cons, decode?_cons, ih, Option.map_some]

end StringUnit

theorem Document.decodeString?_ofChar (s : String) :
    Document.decodeString? (s.toList.map .ofChar) = some s := by
  rw [decodeString?, StringUnit.decode?_ofChar, Option.map_some, String.ofList_toList]

namespace Token

/-! ### The scanner -/

/-- The tokens that a scanner has at the end of a text. -/
def scanFrom? (s : Scanner) (text : List Char) : Option (List Token) := (text.foldlM step? s).bind finish?

variable {before : List Token} {rest : List Char}

theorem scanFrom?_cons (s : Scanner) (c : Char) (rest : List Char) :
    scanFrom? s (c :: rest) = (step? s c).bind (scanFrom? · rest) := by
  simp only [scanFrom?, List.foldlM_cons, Option.bind_eq_bind, Option.bind_assoc]

/-- No word and no number goes on with the text. -/
def Delimits (text : List Char) : Prop := ∀ c ∈ text.head?, c.isLower = false ∧ inNumber c = false

theorem hexDigit?_digitChar : ∀ d < 16, hexDigit? (Nat.digitChar d) = some d := by decide

theorem scanFrom?_code {read : List StringUnit} {n : Nat} (h : n < 65536) :
    scanFrom? ⟨.string read, before⟩ ((StringUnit.code n).chars ++ rest) =
      scanFrom? ⟨.string (.code n :: read), before⟩ rest := by
  have hdigit : ∀ m, hexDigit? (Nat.digitChar (m % 16)) = some (m % 16) := fun m =>
    hexDigit?_digitChar _ (Nat.mod_lt _ (by decide))
  have hvalue : 16 * (16 * (16 * (n / 4096 % 16) + n / 256 % 16) + n / 16 % 16) + n % 16 = n := by omega
  simp [StringUnit.chars, StringUnit.hex4, scanFrom?_cons, step?, hdigit, hvalue]

theorem scanFrom?_ofChar {read : List StringUnit} (c : Char) :
    scanFrom? ⟨.string read, before⟩ ((StringUnit.ofChar c).chars ++ rest) =
      scanFrom? ⟨.string (.ofChar c :: read), before⟩ rest := by
  rcases StringUnit.ofChar_cases c with ⟨hunit, hc⟩ | ⟨hunit, hc⟩
  · rw [hunit]
    rcases hc with hc | hc
    · simp only [List.mem_cons, List.not_mem_nil, or_false] at hc
      rcases hc with rfl | rfl | rfl | rfl | rfl <;> rfl
    · by_cases hquote : c = '"'
      · subst hquote
        rfl
      · by_cases hslash : c = '\\'
        · subst hslash
          rfl
        · have hchars : (StringUnit.char c).chars = [c] := by
            unfold StringUnit.chars
            split <;> simp_all
          simp [hchars, scanFrom?_cons, step?, hquote, hslash, Char.not_lt.2 hc]
  · rw [hunit]
    exact scanFrom?_code (by omega)

/-- The characters of a text and the quote behind them. -/
theorem scanFrom?_units (read : List StringUnit) (text : List Char) :
    scanFrom? ⟨.string read, before⟩ ((text.map StringUnit.ofChar).flatMap StringUnit.chars ++ '"' :: rest) =
      scanFrom? ⟨.between, .string (read.reverse ++ text.map .ofChar) :: before⟩ rest := by
  induction text generalizing read with
  | nil => simp [scanFrom?_cons, step?]
  | cons c text ih =>
    rw [List.map_cons, List.flatMap_cons, List.append_assoc, scanFrom?_ofChar, ih]
    simp

theorem scanFrom?_string (s : String) :
    scanFrom? ⟨.between, before⟩ ((ofString s).chars ++ rest) = scanFrom? ⟨.between, ofString s :: before⟩ rest := by
  have hquote : scanFrom? ⟨.between, before⟩ ((ofString s).chars ++ rest) =
      scanFrom? ⟨.string [], before⟩ ((s.toList.map .ofChar).flatMap StringUnit.chars ++ '"' :: rest) := by
    simp [ofString, chars, scanFrom?_cons, step?, begin?]
  rw [hquote, scanFrom?_units]
  rfl

/-- A token that is collected character by character ends where another kind of character follows. -/
theorem scanFrom?_collect (mode : List Char → Mode) {p : Char → Bool} {token? : List Char → Option Token}
    (hstep : ∀ read before c, step? ⟨mode read, before⟩ c =
      if p c then some ⟨mode (c :: read), before⟩ else (token? read.reverse).bind fun t => begin? (t :: before) c)
    (hfinish : ∀ read before, finish? ⟨mode read, before⟩ =
      (token? read.reverse).map fun t => (t :: before).reverse)
    {chars : List Char} (hchars : ∀ c ∈ chars, p c) (hrest : ∀ c ∈ rest.head?, p c = false) (read : List Char) :
    scanFrom? ⟨mode read, before⟩ (chars ++ rest) =
      (token? (read.reverse ++ chars)).bind fun t => scanFrom? ⟨.between, t :: before⟩ rest := by
  induction chars generalizing read with
  | nil =>
    rw [List.nil_append, List.append_nil]
    cases rest with
    | nil =>
      have hend : ∀ s, scanFrom? s [] = finish? s := fun _ => rfl
      simp only [hend, hfinish, Option.map_eq_bind]
      rfl
    | cons c rest =>
      have hc : p c = false := hrest c rfl
      rw [scanFrom?_cons, hstep, hc, if_neg Bool.false_ne_true, Option.bind_assoc]
      simp only [scanFrom?_cons]
      rfl
  | cons c chars ih =>
    obtain ⟨hc, hchars⟩ := List.forall_mem_cons.1 hchars
    rw [List.cons_append, scanFrom?_cons, hstep, if_pos hc, Option.bind_some, ih hchars, List.reverse_cons,
      List.append_assoc, List.singleton_append]

theorem scanFrom?_word {t : Token} (ht : t = .null ∨ ∃ b, t = .bool b) (hrest : Delimits rest) :
    scanFrom? ⟨.between, before⟩ (t.chars ++ rest) = scanFrom? ⟨.between, t :: before⟩ rest := by
  obtain ⟨c, word, hchars, hlower, hword⟩ : ∃ c word, t.chars = c :: word ∧
      (begin? before c = some ⟨.word [c], before⟩ ∧ ∀ d ∈ word, d.isLower) ∧ ofWord? (c :: word) = some t := by
    rcases ht with rfl | ⟨_ | _, rfl⟩
    · exact ⟨_, _, rfl, ⟨rfl, List.all_eq_true.1 rfl⟩, rfl⟩
    · exact ⟨_, _, rfl, ⟨rfl, List.all_eq_true.1 rfl⟩, rfl⟩
    · exact ⟨_, _, rfl, ⟨rfl, List.all_eq_true.1 rfl⟩, rfl⟩
  have hstep : step? ⟨.between, before⟩ c = some ⟨.word [c], before⟩ := hlower.1
  rw [hchars, List.cons_append, scanFrom?_cons, hstep, Option.bind_some,
    scanFrom?_collect .word (fun _ _ _ => rfl) (fun _ _ => rfl) hlower.2 (fun c hc => (hrest c hc).1),
    List.reverse_singleton, List.singleton_append, hword, Option.bind_some]

theorem ofNumber?_chars (n : Number) : ofNumber? n.chars = some (.number n.chars) := by
  obtain ⟨m, hchars, hspelled, hgrammar⟩ := n.exists_numeral
  rw [ofNumber?, ← hchars, Numeral.scan?_chars hspelled, Option.any_some, if_pos hgrammar]

theorem inNumber_of_isDigit {c : Char} (h : c.isDigit) : inNumber c = true := by simp [inNumber, h]

theorem inNumber_of_isSign {sign : Option Char} (h : Numeral.IsSign sign) : ∀ c ∈ sign.toList, inNumber c := by
  intro c hc
  rcases h c (Option.mem_toList.1 hc) with rfl | rfl <;> rfl

theorem inNumber_of_mem_unsignedChars {m : Numeral} (h : m.IsSpelled) : ∀ c ∈ m.unsignedChars, inNumber c := by
  intro c hc
  unfold Numeral.unsignedChars at hc
  rcases List.mem_append.1 hc with hc | hc
  · exact inNumber_of_isDigit (h.whole c hc)
  rcases List.mem_append.1 hc with hc | hc
  · cases hfraction : m.fraction with
    | none => simp [hfraction, Numeral.fractionChars] at hc
    | some digits =>
      rw [hfraction] at hc
      rcases List.mem_cons.1 hc with rfl | hc
      · rfl
      · exact inNumber_of_isDigit (h.fraction digits hfraction c hc)
  · rcases hexponent : m.exponent with _ | ⟨sign, digits⟩
    · simp [hexponent, Numeral.exponentChars] at hc
    · rw [hexponent] at hc
      rcases List.mem_append.1 hc with hc | hc
      · rcases List.mem_cons.1 hc with rfl | hc
        · rfl
        · exact inNumber_of_isSign (h.exponentSign _ hexponent) c hc
      · exact inNumber_of_isDigit (h.exponent _ hexponent c hc)

/-- A number begins with a minus or a digit. -/
theorem exists_chars_eq (n : Number) : ∃ c rest, n.chars = c :: rest ∧ (c = '-' ∨ c.isDigit) ∧
    ∀ d ∈ rest, inNumber d := by
  obtain ⟨m, hchars, hspelled, hgrammar⟩ := n.exists_numeral
  have hnumber := inNumber_of_mem_unsignedChars hspelled
  rw [← hchars, Numeral.chars]
  cases hsign : m.sign with
  | some sign =>
    have hminus : sign = '-' := by
      rcases hspelled.sign sign hsign with rfl | rfl
      · simp [Number.inGrammar, hsign] at hgrammar
      · rfl
    exact ⟨sign, m.unsignedChars, rfl, .inl hminus, hnumber⟩
  | none =>
    cases hwhole : m.whole with
    | nil => simp [Number.inGrammar, hwhole] at hgrammar
    | cons d digits =>
      have hunsigned : m.unsignedChars = d :: (digits ++ (Numeral.fractionChars m.fraction ++
          Numeral.exponentChars m.exponent)) := by
        rw [Numeral.unsignedChars, hwhole]
        rfl
      rw [hunsigned] at hnumber ⊢
      exact ⟨d, _, rfl, .inr (hspelled.whole d (by simp [hwhole])), (List.forall_mem_cons.1 hnumber).2⟩

theorem begin?_number {c : Char} (h : c = '-' ∨ c.isDigit) : begin? before c = some ⟨.number [c], before⟩ := by
  rcases h with rfl | h
  · rfl
  · obtain ⟨d, hd, rfl⟩ := Nat.exists_digitChar_eq h
    interval_cases d <;> rfl

theorem scanFrom?_number (n : Number) (hrest : Delimits rest) :
    scanFrom? ⟨.between, before⟩ (n.chars ++ rest) = scanFrom? ⟨.between, .number n.chars :: before⟩ rest := by
  obtain ⟨c, digits, hchars, hc, hdigits⟩ := exists_chars_eq n
  have hnumber := ofNumber?_chars n
  have hstep : step? ⟨.between, before⟩ c = some ⟨.number [c], before⟩ := begin?_number hc
  rw [hchars] at hnumber ⊢
  rw [List.cons_append, scanFrom?_cons, hstep, Option.bind_some,
    scanFrom?_collect .number (fun _ _ _ => rfl) (fun _ _ => rfl) hdigits (fun c hc => (hrest c hc).2),
    List.reverse_singleton, List.singleton_append, hnumber, Option.bind_some]

/-! ### The tokens of a value -/

/-- The tokens that are one character. -/
def marks : List Token := [.openArray, .closeArray, .openObject, .closeObject, .comma, .colon]

theorem scanFrom?_mark {t : Token} (ht : t ∈ marks) :
    scanFrom? ⟨.between, before⟩ (t.chars ++ rest) = scanFrom? ⟨.between, t :: before⟩ rest := by
  simp only [marks, List.mem_cons, List.not_mem_nil, or_false] at ht
  rcases ht with rfl | rfl | rfl | rfl | rfl | rfl <;> rfl

theorem delimits_mark {t : Token} (ht : t ∈ marks) : Delimits (t.chars ++ rest) := by
  simp only [marks, List.mem_cons, List.not_mem_nil, or_false] at ht
  rcases ht with rfl | rfl | rfl | rfl | rfl | rfl <;> (rintro c ⟨⟩; exact ⟨rfl, rfl⟩)

/-- The scanner takes the text of the tokens for them, if no word and no number goes on behind it. -/
def Scans (tokens : List Token) : Prop := ∀ before rest, Delimits rest →
  scanFrom? ⟨.between, before⟩ (tokens.flatMap chars ++ rest) = scanFrom? ⟨.between, tokens.reverse ++ before⟩ rest

variable {t : Token} {us : List Token}

theorem Scans.cons (h : Scans us) (ht : ∀ before rest,
    scanFrom? ⟨.between, before⟩ (t.chars ++ rest) = scanFrom? ⟨.between, t :: before⟩ rest) : Scans (t :: us) := by
  intro before rest hrest
  rw [List.flatMap_cons, List.append_assoc, ht, h _ _ hrest, List.reverse_cons, List.append_assoc]
  rfl

theorem Scans.mark (h : Scans us) (ht : t ∈ marks) : Scans (t :: us) := h.cons fun _ _ => scanFrom?_mark ht

/-- A value is followed by tokens that begin with a mark. -/
theorem Scans.append (ht : t ∈ marks) (h : Scans (t :: us)) {tokens : List Token} (htokens : Scans tokens) :
    Scans (tokens ++ t :: us) := by
  intro before rest hrest
  have hdelimits : Delimits ((t :: us).flatMap chars ++ rest) := by
    rw [List.flatMap_cons, List.append_assoc]
    exact delimits_mark ht
  rw [List.flatMap_append, List.append_assoc, htokens _ _ hdelimits, h _ _ hrest, List.reverse_append,
    List.append_assoc]

theorem scans_nil : Scans [] := fun _ _ _ => rfl

theorem Scans.appendItems {items : List Json} (h : Scans (tokensOfItems items)) {tokens : List Token}
    (htokens : Scans tokens) : Scans (tokens ++ tokensOfItems items) := by
  cases items <;> exact h.append (by decide) htokens

theorem Scans.appendFields {fields : List (String × Json)} (h : Scans (tokensOfFields fields)) {tokens : List Token}
    (htokens : Scans tokens) : Scans (tokens ++ tokensOfFields fields) := by
  cases fields <;> exact h.append (by decide) htokens

theorem scans_items {items : List Json} (h : ∀ v ∈ items, Scans v.tokens) : Scans (tokensOfItems items) := by
  induction items with
  | nil => exact scans_nil.mark (by decide)
  | cons v items ih =>
    obtain ⟨hv, hitems⟩ := List.forall_mem_cons.1 h
    exact ((ih hitems).appendItems hv).mark (by decide)

/-- A name, the colon behind it, and what follows. -/
theorem Scans.name (h : Scans us) (name : String) : Scans (.ofString name :: .colon :: us) :=
  (h.mark (by decide)).cons fun _ _ => scanFrom?_string name

theorem scans_fields {fields : List (String × Json)} (h : ∀ p ∈ fields, Scans p.2.tokens) :
    Scans (tokensOfFields fields) := by
  induction fields with
  | nil => exact scans_nil.mark (by decide)
  | cons p fields ih =>
    obtain ⟨name, v⟩ := p
    obtain ⟨hv, hfields⟩ := List.forall_mem_cons.1 h
    exact (((ih hfields).appendFields hv).name name).mark (by decide)

theorem scans_tokens (v : Json) : Scans v.tokens := by
  induction v using Json.induction with
  | scalar v hv =>
    intro before rest hrest
    cases v with
    | null => exact scanFrom?_word (.inl rfl) hrest
    | bool b =>
      rw [tokens, List.flatMap_singleton]
      exact scanFrom?_word (.inr ⟨b, rfl⟩) hrest
    | num n =>
      rw [tokens, List.flatMap_singleton]
      exact scanFrom?_number n hrest
    | str s =>
      rw [tokens, List.flatMap_singleton]
      exact scanFrom?_string s
    | arr => exact absurd rfl hv.1
    | obj => exact absurd rfl hv.2
  | arr items ih =>
    cases items with
    | nil => exact (scans_nil.mark (by decide)).mark (by decide)
    | cons v items =>
      obtain ⟨hv, hitems⟩ := List.forall_mem_cons.1 ih
      exact ((scans_items hitems).appendItems hv).mark (by decide)
  | obj fields ih =>
    cases fields with
    | nil => exact (scans_nil.mark (by decide)).mark (by decide)
    | cons p fields =>
      obtain ⟨name, v⟩ := p
      obtain ⟨hv, hfields⟩ := List.forall_mem_cons.1 ih
      exact (((scans_fields hfields).appendFields hv).name name).mark (by decide)

/-- The scanner finds the tokens of a value in its text. -/
theorem scan?_tokens (v : Json) : scan? (v.tokens.flatMap chars) = some v.tokens := by
  have hscans := scans_tokens v [] [] nofun
  rw [List.append_nil, List.append_nil] at hscans
  have hend : scanFrom? ⟨.between, v.tokens.reverse⟩ [] = some v.tokens.reverse.reverse := rfl
  rw [hend, List.reverse_reverse] at hscans
  exact hscans

end Token
end Json
end JsonRules
