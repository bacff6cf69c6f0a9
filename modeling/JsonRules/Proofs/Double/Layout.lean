import JsonRules.Double.Decimal
import JsonRules.Json.Token
import JsonRules.Proofs.Double.Decimal
import JsonRules.Proofs.Integer
import Mathlib.Data.List.Basic
import Mathlib.Data.Nat.Digits.Defs

/-!
# Reading what a double is written as

`Numeral.chars` writes the parts of a numeral one after the other, and the scanner finds the same parts again
(`Numeral.scan?_chars`), provided that they are signs and digits.

Whichever way the digits of a double are laid out, the text is a numeral of the JSON grammar that reads as the
double (`Layout.exists_numeral`), and it has a fraction or an exponent, so that it is never taken for an integer.
-/

namespace JsonRules

/-! ## Numerals -/

theorem digitsValue_toDigits (n : Nat) : digitsValue (Nat.toDigits 10 n) = n := by
  rw [digitsValue_eq, Nat.ofDigitChars_ten_toDigits]

namespace Numeral

/-- The text of a fraction. -/
def fractionChars : Option (List Char) → List Char
  | none => []
  | some digits => '.' :: digits

/-- The text of an exponent. -/
def exponentChars : Option (Option Char × List Char) → List Char
  | none => []
  | some (sign, digits) => 'e' :: sign.toList ++ digits

/-- The text of a numeral without its sign. -/
def unsignedChars (n : Numeral) : List Char := n.whole ++ (fractionChars n.fraction ++ exponentChars n.exponent)

/-- The text of a numeral. -/
def chars (n : Numeral) : List Char := n.sign.toList ++ n.unsignedChars

def IsSign (sign : Option Char) : Prop := ∀ c ∈ sign, c = '+' ∨ c = '-'

theorem isSign_none : IsSign none := fun _ h => absurd h (Option.not_mem_none _)

/-- The parts of a numeral are signs and digits. -/
structure IsSpelled (n : Numeral) : Prop where
  sign : IsSign n.sign
  whole : ∀ c ∈ n.whole, c.isDigit
  fraction : ∀ digits ∈ n.fraction, ∀ c ∈ digits, c.isDigit
  exponentSign : ∀ e ∈ n.exponent, IsSign e.1
  exponent : ∀ e ∈ n.exponent, ∀ c ∈ e.2, c.isDigit

/-! ### The scanner on written parts -/

theorem scanSign_append {sign : Option Char} {rest : List Char} (hsign : IsSign sign)
    (hrest : ∀ c ∈ rest.head?, c ≠ '+' ∧ c ≠ '-') : scanSign (sign.toList ++ rest) = (sign, rest) := by
  cases sign with
  | some c => rcases hsign c rfl with rfl | rfl <;> rfl
  | none =>
    unfold scanSign
    split
    · rename_i hplus
      exact absurd rfl (hrest '+' (by simp_all)).1
    · rename_i hminus
      exact absurd rfl (hrest '-' (by simp_all)).2
    · rfl

/-- Digits end where something else follows. -/
theorem takeWhile_digits {digits : List Char} (rest : List Char) (hdigits : ∀ c ∈ digits, c.isDigit)
    (hrest : ∀ c ∈ rest.head?, c.isDigit = false) :
    (digits ++ rest).takeWhile Char.isDigit = digits ∧ (digits ++ rest).dropWhile Char.isDigit = rest := by
  rw [List.takeWhile_append_of_pos hdigits, List.dropWhile_append_of_pos hdigits]
  cases rest with
  | nil => simp
  | cons c rest =>
    have hc : c.isDigit = false := hrest c rfl
    simp [hc]

theorem not_sign_of_isDigit {c : Char} (h : c.isDigit) : c ≠ '+' ∧ c ≠ '-' := by
  constructor <;> (rintro rfl; revert h; decide)

theorem head?_exponentChars (e : Option (Option Char × List Char)) :
    ∀ c ∈ (exponentChars e).head?, c = 'e' := by
  rcases e with _ | ⟨sign, digits⟩
  · nofun
  · rintro c ⟨⟩
    rfl

theorem head?_fractionChars (f : Option (List Char)) (e : Option (Option Char × List Char)) :
    ∀ c ∈ (fractionChars f ++ exponentChars e).head?, c = '.' ∨ c = 'e' := by
  cases f with
  | none => exact fun c hc => .inr (head?_exponentChars e c hc)
  | some digits =>
    rintro c ⟨⟩
    exact .inl rfl

theorem scanFraction_append {f : Option (List Char)} {rest : List Char}
    (hf : ∀ digits ∈ f, ∀ c ∈ digits, c.isDigit) (hrest : ∀ c ∈ rest.head?, c = 'e') :
    scanFraction (fractionChars f ++ rest) = (f, rest) := by
  cases f with
  | none =>
    unfold fractionChars scanFraction
    split
    · rename_i hpoint
      exact absurd (hrest '.' (by simp_all)) (by decide)
    · rfl
  | some digits =>
    obtain ⟨htake, hdrop⟩ := takeWhile_digits rest (hf digits rfl) fun c hc => by
      rw [hrest c hc]
      rfl
    simp [fractionChars, scanFraction, htake, hdrop]

theorem scanExponent?_exponentChars {e : Option (Option Char × List Char)} (hsign : ∀ p ∈ e, IsSign p.1)
    (hdigits : ∀ p ∈ e, ∀ c ∈ p.2, c.isDigit) : scanExponent? (exponentChars e) = some e := by
  rcases e with _ | ⟨sign, digits⟩
  · rfl
  · have hall : digits.all Char.isDigit = true := List.all_eq_true.2 (hdigits _ rfl)
    have hsplit : scanSign (sign.toList ++ digits) = (sign, digits) :=
      scanSign_append (hsign _ rfl) fun c hc =>
        not_sign_of_isDigit (hdigits _ rfl c (List.mem_of_mem_head? hc))
    simp [exponentChars, scanExponent?, hsplit, hall]

/-- A numeral is read from its text. -/
theorem scan?_chars {n : Numeral} (h : n.IsSpelled) : scan? n.chars = some n := by
  have hunsigned : ∀ c ∈ n.unsignedChars.head?, c ≠ '+' ∧ c ≠ '-' := by
    intro c hc
    unfold unsignedChars at hc
    cases hwhole : n.whole with
    | nil =>
      rw [hwhole] at hc
      rcases head?_fractionChars _ _ c hc with rfl | rfl <;> decide
    | cons d rest =>
      rw [hwhole] at hc
      cases hc
      exact not_sign_of_isDigit (h.whole c (by simp [hwhole]))
  obtain ⟨htake, hdrop⟩ := takeWhile_digits (fractionChars n.fraction ++ exponentChars n.exponent) h.whole
    fun c hc => by rcases head?_fractionChars _ _ c hc with rfl | rfl <;> rfl
  have hfraction := scanFraction_append h.fraction (head?_exponentChars n.exponent)
  have hexponent := scanExponent?_exponentChars h.exponentSign h.exponent
  unfold scan? chars
  rw [scanSign_append h.sign hunsigned]
  unfold unsignedChars
  dsimp only
  rw [htake, hdrop, hfraction]
  dsimp only
  rw [hexponent, Option.map_some]

end Numeral

/-! ## Layouts -/

/-- A numeral without a sign that reads as a decimal does, whatever sign is put in front of it. -/
structure Numeral.Spells (n : Numeral) (d : Decimal) : Prop where
  unsigned : n.sign = none
  spelled : n.IsSpelled
  inGrammar : Number.inGrammar n = true
  notInteger : n.fraction.isSome ∨ n.exponent.isSome
  value : ∀ negative, Extended.ofDecimal negative n.decimal = Extended.ofDecimal negative d

namespace Layout

variable {l : Layout} {digits : List Char} {point e : Int}

theorem digitsValue_zeros (zeros : Nat) (digits : List Char) :
    digitsValue (List.replicate zeros '0' ++ digits) = digitsValue digits := by
  rw [digitsValue_eq, Nat.ofDigitChars_append, Nat.ofDigitChars_replicate_zero, Nat.mul_zero, digitsValue_eq]

theorem digitsValue_append_zeros (digits : List Char) (zeros : Nat) :
    digitsValue (digits ++ List.replicate zeros '0') = digitsValue digits * 10 ^ zeros := by
  rw [digitsValue_eq, Nat.ofDigitChars_append, Nat.ofDigitChars_replicate_zero, digitsValue_eq, Nat.mul_comm]

/-- A point in front of all digits. -/
theorem exists_before (hdigits : ∀ c ∈ digits, c.isDigit) (hne : digits ≠ []) (hpoint : point ≤ 0) :
    ∃ n : Numeral, n.chars = l.positions digits point ∧
      n.Spells ⟨digitsValue digits, point - digits.length⟩ := by
  refine ⟨⟨none, ['0'], some (List.replicate (-point).toNat '0' ++ digits), none⟩, ?_, rfl, ⟨Numeral.isSign_none, ?_, ?_, nofun, nofun⟩,
    ?_, .inl rfl, fun negative => ?_⟩
  · rw [positions, if_pos hpoint]
    simp [Numeral.chars, Numeral.unsignedChars, Numeral.fractionChars, Numeral.exponentChars]
  · exact Nat.isDigit_of_mem_zeros 1
  · rintro _ ⟨⟩ c hc
    rcases List.mem_append.1 hc with hc | hc
    · exact Nat.isDigit_of_mem_zeros _ c hc
    · exact hdigits c hc
  · simp [Number.inGrammar, Numeral.exponentComplete, hne]
  · have hvalue : digitsValue (['0'] ++ (List.replicate (-point).toNat '0' ++ digits)) = digitsValue digits := by
      rw [← digitsValue_zeros (-point).toNat digits]
      exact digitsValue_zeros 1 _
    have hexponent : (0 : Int) - ((List.replicate (-point).toNat '0' ++ digits).length : Nat) =
        point - digits.length := by
      rw [List.length_append, List.length_replicate]
      omega
    simp only [Numeral.decimal, Option.getD_some, hvalue, hexponent]

/-- A point between two digits. -/
theorem exists_inside (hdigits : ∀ c ∈ digits, c.isDigit) (hlead : digits.head? ≠ some '0') (hlow : 0 < point)
    (hhigh : point < digits.length) :
    ∃ n : Numeral, n.chars = l.positions digits point ∧
      n.Spells ⟨digitsValue digits, point - digits.length⟩ := by
  refine ⟨⟨none, digits.take point.toNat, some (digits.drop point.toNat), none⟩, ?_, rfl, ⟨Numeral.isSign_none, ?_, ?_, nofun, nofun⟩,
    ?_, .inl rfl, fun negative => ?_⟩
  · rw [positions, if_neg (by omega), if_pos hhigh]
    simp [Numeral.chars, Numeral.unsignedChars, Numeral.fractionChars, Numeral.exponentChars]
  · exact fun c hc => hdigits c (List.mem_of_mem_take hc)
  · rintro _ ⟨⟩ c hc
    exact hdigits c (List.mem_of_mem_drop hc)
  · have hrest : (digits.drop point.toNat).isEmpty = false := by
      simp
      omega
    cases digits with
    | nil => simp at hhigh; omega
    | cons c rest =>
      have hc : c ≠ '0' := by simpa using hlead
      obtain ⟨k, hk⟩ := Nat.exists_eq_succ_of_ne_zero (n := point.toNat) (by omega)
      rw [hk] at hrest ⊢
      simp [Number.inGrammar, Numeral.exponentComplete, hc]
      simpa using hrest
  · have hexponent : (0 : Int) - ((digits.drop point.toNat).length : Nat) = point - digits.length := by
      rw [List.length_drop]
      omega
    simp only [Numeral.decimal, Option.getD_some, List.take_append_drop, hexponent]

/-- A point behind all digits. -/
theorem exists_behind (hl : l.fractionAlways = true) (hdigits : ∀ c ∈ digits, c.isDigit) (hne : digits ≠ [])
    (hlead : digits.head? = some '0' → digits = ['0'] ∧ point = 1) (hpoint : digits.length ≤ point) :
    ∃ n : Numeral, n.chars = l.positions digits point ∧
      n.Spells ⟨digitsValue digits, point - digits.length⟩ := by
  have hlength : 0 < digits.length := List.length_pos_of_ne_nil hne
  refine ⟨⟨none, digits ++ List.replicate (point.toNat - digits.length) '0', some ['0'], none⟩, ?_, rfl,
    ⟨Numeral.isSign_none, ?_, ?_, nofun, nofun⟩, ?_, .inl rfl, fun negative => ?_⟩
  · rw [positions, if_neg (by omega), if_neg (by omega), if_pos hl]
    simp [Numeral.chars, Numeral.unsignedChars, Numeral.fractionChars, Numeral.exponentChars]
  · intro c hc
    rcases List.mem_append.1 hc with hc | hc
    · exact hdigits c hc
    · exact Nat.isDigit_of_mem_zeros _ c hc
  · rintro _ ⟨⟩
    exact Nat.isDigit_of_mem_zeros 1
  · cases digits with
    | nil => exact absurd rfl hne
    | cons c rest =>
      by_cases hc : c = '0'
      · obtain ⟨hsingle, rfl⟩ := hlead (by rw [hc]; rfl)
        rw [hsingle]
        rfl
      · simp [Number.inGrammar, Numeral.exponentComplete, hc]
  · have hvalue : digitsValue (digits ++ List.replicate (point.toNat - digits.length) '0' ++ ['0']) =
        digitsValue digits * 10 ^ (point.toNat - digits.length + 1) := by
      rw [← digitsValue_append_zeros, List.replicate_succ', List.append_assoc]
    have hexponent : (0 : Int) - (['0'].length : Nat) + (point.toNat - digits.length + 1 : Nat) =
        point - digits.length := by
      rw [List.length_singleton]
      omega
    simp only [Numeral.decimal, Option.getD_some, hvalue]
    rw [Extended.ofDecimal_mul_pow, hexponent]

theorem exists_positions (hl : l.fractionAlways = true) (hdigits : ∀ c ∈ digits, c.isDigit) (hne : digits ≠ [])
    (hlead : digits.head? = some '0' → digits = ['0'] ∧ point = 1) :
    ∃ n : Numeral, n.chars = l.positions digits point ∧
      n.Spells ⟨digitsValue digits, point - digits.length⟩ := by
  rcases Int.lt_or_le 0 point with hlow | hbefore
  · rcases Int.lt_or_le point digits.length with hhigh | hbehind
    · refine exists_inside hdigits (fun hzero => ?_) hlow hhigh
      obtain ⟨rfl, rfl⟩ := hlead hzero
      exact Int.lt_irrefl _ hhigh
    · exact exists_behind hl hdigits hne hlead hbehind
  · exact exists_before hdigits hne hbefore

theorem exists_scientific (hdigits : ∀ c ∈ digits, c.isDigit) (hne : digits ≠ []) (e : Int) :
    ∃ n : Numeral, n.chars = scientific digits e ∧ n.Spells ⟨digitsValue digits, e + 1 - digits.length⟩ := by
  have hexponent : ∀ c ∈ Nat.toDigits 10 e.natAbs, c.isDigit := fun c hc =>
    Nat.isDigit_of_mem_toDigits (by decide) (by decide) hc
  have hsign : Numeral.IsSign (some (if e < 0 then '-' else '+')) := by
    rintro c ⟨⟩
    split <;> simp
  have hvalue : (if (some (if e < 0 then '-' else '+') == some '-') = true then
      -(digitsValue (Nat.toDigits 10 e.natAbs) : Int) else digitsValue (Nat.toDigits 10 e.natAbs)) = e := by
    rw [digitsValue_toDigits]
    by_cases he : e < 0
    · rw [if_pos he, if_pos (by decide)]
      omega
    · rw [if_neg he, if_neg (by decide)]
      omega
  obtain ⟨first, rest, rfl⟩ := List.exists_cons_of_ne_nil hne
  cases rest with
  | nil =>
    refine ⟨⟨none, [first], none, some (some (if e < 0 then '-' else '+'), Nat.toDigits 10 e.natAbs)⟩, ?_, rfl,
      ⟨Numeral.isSign_none, hdigits, fun _ h => absurd h (Option.not_mem_none _), ?_, ?_⟩, ?_, .inr rfl, fun negative => ?_⟩
    · simp [Numeral.chars, Numeral.unsignedChars, Numeral.fractionChars, Numeral.exponentChars, scientific]
    · rintro _ ⟨⟩
      exact hsign
    · rintro _ ⟨⟩
      exact hexponent
    · simp [Number.inGrammar, Numeral.exponentComplete]
    · simp only [Numeral.decimal, Option.getD_none, List.append_nil, hvalue]
      congr 2
      simp
  | cons second rest =>
    refine ⟨⟨none, [first], some (second :: rest),
      some (some (if e < 0 then '-' else '+'), Nat.toDigits 10 e.natAbs)⟩, ?_, rfl,
      ⟨Numeral.isSign_none, ?_, ?_, ?_, ?_⟩, ?_, .inl rfl, fun negative => ?_⟩
    · simp [Numeral.chars, Numeral.unsignedChars, Numeral.fractionChars, Numeral.exponentChars, scientific]
    · exact fun c hc => hdigits c (by simp_all)
    · rintro _ ⟨⟩ c hc
      exact hdigits c (List.mem_cons_of_mem _ hc)
    · rintro _ ⟨⟩
      exact hsign
    · rintro _ ⟨⟩
      exact hexponent
    · simp [Number.inGrammar, Numeral.exponentComplete]
    · simp only [Numeral.decimal, Option.getD_some, List.singleton_append, hvalue]
      congr 2
      simp

/-- The text of a decimal reads as the decimal. Only zero begins with a zero, and no digit may follow it before the
point. -/
theorem exists_decimalChars (hl : l.fractionAlways = true) {d : Decimal} (hd : d.digits = 0 → d = ⟨0, 0⟩) :
    ∃ n : Numeral, n.chars = l.decimalChars d ∧ n.Spells d := by
  obtain ⟨digits, hdigitsEq⟩ : ∃ digits, digits = Nat.toDigits 10 d.digits := ⟨_, rfl⟩
  obtain ⟨e, he⟩ : ∃ e : Int, e = d.exponent + digits.length - 1 := ⟨_, rfl⟩
  have hchars : l.decimalChars d = if l.positional e then l.positions digits (e + 1) else scientific digits e := by
    rw [he, hdigitsEq]
    rfl
  have hdecimal : (⟨digitsValue digits, e + 1 - digits.length⟩ : Decimal) = d := by
    have hexponent : e + 1 - digits.length = d.exponent := by omega
    rw [hexponent, hdigitsEq, digitsValue_toDigits]
  have hdigits : ∀ c ∈ digits, c.isDigit := fun c hc =>
    Nat.isDigit_of_mem_toDigits (by decide) (by decide) (hdigitsEq ▸ hc)
  have hne : digits ≠ [] := hdigitsEq ▸ Nat.toDigits_ne_nil
  have hlead : digits.head? = some '0' → digits = ['0'] ∧ e + 1 = 1 := by
    intro hhead
    have hzero : d.digits = 0 := by
      by_contra hzero
      exact Nat.head?_toDigits hzero (hdigitsEq ▸ hhead)
    obtain rfl := hd hzero
    subst hdigitsEq
    exact ⟨rfl, congrArg (· + 1) he⟩
  have hnumeral : ∃ n : Numeral, n.chars = l.decimalChars d ∧
      n.Spells ⟨digitsValue digits, e + 1 - digits.length⟩ := by
    rw [hchars]
    split
    · exact exists_positions hl hdigits hne hlead
    · exact exists_scientific hdigits hne e
  rwa [hdecimal] at hnumeral

/-- The text of a double is a numeral with a fraction or an exponent that reads as the double. -/
theorem exists_numeral (hl : l.fractionAlways = true) (x : Double) :
    ∃ n : Numeral, n.chars = l.chars x ∧ n.IsSpelled ∧ Number.inGrammar n = true ∧
      (n.fraction.isSome ∨ n.exponent.isSome) ∧ n.value = .finite x := by
  obtain ⟨n, hchars, hn⟩ := exists_decimalChars hl (d := x.shortest l.tie) Double.shortest_of_digits_eq_zero
  have hunsigned : n.unsignedChars = l.decimalChars (x.shortest l.tie) := by
    rw [← hchars, Numeral.chars, hn.unsigned]
    rfl
  refine ⟨{ n with sign := if x.negative then some '-' else none }, ?_, { hn.spelled with sign := ?_ }, ?_,
    hn.notInteger, ?_⟩
  · rw [chars, ← hunsigned]
    cases x.negative <;> rfl
  · cases x.negative
    · exact Numeral.isSign_none
    · rintro c ⟨⟩
      exact .inr rfl
  · have hgrammar := hn.inGrammar
    cases x.negative <;> simpa [Number.inGrammar, Numeral.exponentComplete, hn.unsigned] using hgrammar
  · have hnegative : Numeral.negative { n with sign := if x.negative then some '-' else none } = x.negative := by
      cases x.negative <;> rfl
    rw [Numeral.value, hnegative, ← Double.ofDecimal_shortest l.tie x]
    exact hn.value x.negative

end Layout
end JsonRules
