import Mathlib.Data.List.TakeWhile
import Ume.Lib.Binary64
import Ume.Lib.Decimal

/-! Text as C++ streams and strings read and write it: the pieces that `getline` takes, the
default formatting of numbers, and the conversions `sto*`, which skip white space, read as
much as makes a number and fail without one or out of range. -/

namespace StreamText

/-- The pieces between delimiters; nothing behind the last delimiter is not a piece. -/
def pieces (delim : Char) : List Char → List (List Char)
  | [] => []
  | c :: text =>
    if c = delim then [] :: pieces delim text
    else
      match pieces delim text with
      | [] => [[c]]
      | piece :: rest => (c :: piece) :: rest

section Pieces

variable {delim : Char} {text : List Char}

theorem pieces_append_cons (h : delim ∉ text) (rest : List Char) :
    pieces delim (text ++ delim :: rest) = text :: pieces delim rest := by
  induction text with
  | nil => rw [List.nil_append, pieces, if_pos rfl]
  | cons c text ih =>
    rw [List.mem_cons, not_or] at h
    rw [List.cons_append, pieces, if_neg (Ne.symm h.1), ih h.2]

theorem pieces_of_notMem (h : delim ∉ text) (hne : text ≠ []) : pieces delim text = [text] := by
  induction text with
  | nil => exact absurd rfl hne
  | cons c text ih =>
    rw [List.mem_cons, not_or] at h
    rw [pieces, if_neg (Ne.symm h.1)]
    cases text with
    | nil => rfl
    | cons d text => rw [ih h.2 (List.cons_ne_nil _ _)]

/-- Lines that are written one after the other are read back. -/
theorem pieces_flatMap {lines : List (List Char)} (h : ∀ line ∈ lines, delim ∉ line) :
    pieces delim (lines.flatMap (· ++ [delim])) = lines := by
  induction lines with
  | nil => rfl
  | cons line lines ih =>
    obtain ⟨hline, hlines⟩ := List.forall_mem_cons.mp h
    rw [List.flatMap_cons, List.append_assoc, List.singleton_append, pieces_append_cons hline,
      ih hlines]

end Pieces

def isSpace (c : Char) : Bool := c = ' ' || '\t' ≤ c && c ≤ '\r'

/-- An optional sign, and what follows it. -/
def signed : List Char → Bool × List Char
  | [] => (false, [])
  | c :: text =>
    if c = '-' then (true, text) else if c = '+' then (false, text) else (false, c :: text)

/-- The decimal digits at the front. -/
def numeral (text : List Char) : Option Nat :=
  match text.takeWhile Char.isDigit with
  | [] => none
  | digits => some (Nat.ofDigitChars 10 digits 0)

/-- `std::stoul` and `std::stoull`: a number with a minus sign wraps round. -/
def toUnsigned (bits : Nat) (text : List Char) : Option Nat :=
  let (negative, text) := signed (text.dropWhile isSpace)
  (numeral text).bind fun n =>
    if n < 2 ^ bits then some (if negative then (2 ^ bits - n) % 2 ^ bits else n) else none

/-- `std::stoll`. -/
def toSigned (bits : Nat) (text : List Char) : Option Int :=
  let (negative, text) := signed (text.dropWhile isSpace)
  (numeral text).bind fun n =>
    let value : Int := if negative then -n else n
    if -2 ^ (bits - 1) ≤ value ∧ value < 2 ^ (bits - 1) then some value else none

def ofNat (n : Nat) : List Char := Nat.toDigits 10 n

def ofInt (i : Int) : List Char := if i < 0 then '-' :: ofNat i.natAbs else ofNat i.natAbs

section Integers

variable {n bits : Nat}

theorem isDigit_of_mem_ofNat {c : Char} (h : c ∈ ofNat n) : c.isDigit = true :=
  Nat.isDigit_of_mem_toDigits (by decide) (by decide) h

theorem ofNat_ne_nil (n : Nat) : ofNat n ≠ [] := Nat.toDigits_ne_nil

theorem numeral_ofNat (n : Nat) : numeral (ofNat n) = some n := by
  have htake : (ofNat n).takeWhile Char.isDigit = ofNat n :=
    List.takeWhile_eq_self_iff.mpr fun _ => isDigit_of_mem_ofNat
  rw [numeral, htake]
  cases hdigits : ofNat n with
  | nil => exact absurd hdigits (ofNat_ne_nil n)
  | cons c digits =>
    simp only [← hdigits]
    rw [ofNat, Nat.ofDigitChars_ten_toDigits]

theorem isSpace_of_isDigit {c : Char} (h : c.isDigit = true) : isSpace c = false := by
  have hc := Decimal.digit_bounds h
  have hspace : c ≠ ' ' := by
    rintro rfl
    exact absurd hc.1 (by decide)
  have hlarge : ¬ c ≤ '\r' := by
    intro hle
    have : c.toNat ≤ 13 := hle
    omega
  simp [isSpace, hspace, hlarge]

/-- Text that starts with a digit has no white space or sign at the front. -/
theorem signed_dropWhile {c : Char} (h : c.isDigit = true) (text : List Char) :
    signed ((c :: text).dropWhile isSpace) = (false, c :: text) := by
  have hc := Decimal.digit_bounds h
  have hminus : c ≠ '-' := by
    rintro rfl
    exact absurd hc.1 (by decide)
  have hplus : c ≠ '+' := by
    rintro rfl
    exact absurd hc.1 (by decide)
  rw [List.dropWhile_cons_of_neg (by simp [isSpace_of_isDigit h]), signed, if_neg hminus,
    if_neg hplus]

theorem signed_ofNat (n : Nat) : signed ((ofNat n).dropWhile isSpace) = (false, ofNat n) := by
  cases hdigits : ofNat n with
  | nil => exact absurd hdigits (ofNat_ne_nil n)
  | cons c digits =>
    exact signed_dropWhile (isDigit_of_mem_ofNat (hdigits ▸ List.mem_cons_self)) digits

theorem toUnsigned_ofNat (h : n < 2 ^ bits) : toUnsigned bits (ofNat n) = some n := by
  rw [toUnsigned, signed_ofNat]
  simp [numeral_ofNat, h]

theorem toSigned_ofInt {i : Int} (hlow : -2 ^ (bits - 1) ≤ i) (hhigh : i < 2 ^ (bits - 1)) :
    toSigned bits (ofInt i) = some i := by
  rw [toSigned, ofInt]
  split_ifs with hneg
  · have hsign : signed (('-' :: ofNat i.natAbs).dropWhile isSpace) = (true, ofNat i.natAbs) := rfl
    have hvalue : -(i.natAbs : Int) = i := by omega
    rw [hsign]
    simp only [numeral_ofNat, Option.bind_some, if_true, hvalue]
    exact if_pos ⟨hlow, hhigh⟩
  · have hvalue : (i.natAbs : Int) = i := by omega
    rw [signed_ofNat]
    simp [numeral_ofNat, hvalue, hlow, hhigh]

end Integers

/-- The value of a digit in bases up to sixteen. -/
def digitValue (c : Char) : Nat :=
  if c.isDigit then c.toNat - '0'.toNat else c.toLower.toNat - 'a'.toNat + 10

def isHexDigit (c : Char) : Bool := c.isDigit || 'a' ≤ c.toLower && c.toLower ≤ 'f'

/-- Digits with a point before, between or behind them: their value without the point, how
many are behind it, and what follows. -/
def mantissa (base : Nat) (isDigit : Char → Bool) (text : List Char) :
    Option (Nat × Nat × List Char) :=
  let whole := text.takeWhile isDigit
  let (fraction, rest) :=
    match text.dropWhile isDigit with
    | '.' :: rest => (rest.takeWhile isDigit, rest.dropWhile isDigit)
    | rest => ([], rest)
  if whole ++ fraction = [] then none
  else
    some ((whole ++ fraction).foldl (fun n c => base * n + digitValue c) 0, fraction.length, rest)

/-- An exponent behind one of these letters, or zero. -/
def exponent (letters : List Char) : List Char → Int
  | [] => 0
  | c :: text =>
    if c ∈ letters then
      let (negative, text) := signed text
      match numeral text with
      | none => 0
      | some n => if negative then -n else n
    else 0

/-- A number times a power, as a ratio. -/
def scaled (n base : Nat) (e : Int) : Nat × Nat :=
  if 0 ≤ e then (n * base ^ e.toNat, 1) else (n, base ^ e.natAbs)

def decimal (text : List Char) : Option (Nat × Nat) :=
  (mantissa 10 Char.isDigit text).map fun (n, places, rest) =>
    scaled n 10 (exponent ['e', 'E'] rest - places)

/-- The magnitude at the front of a text: a decimal number, or a hexadecimal one. -/
def magnitude (text : List Char) : Option (Nat × Nat) :=
  match text with
  | '0' :: x :: rest =>
    if x.toLower = 'x' then
      match mantissa 16 isHexDigit rest with
      | none => some (0, 1)
      | some (n, places, rest) => some (scaled n 2 (exponent ['p', 'P'] rest - 4 * places))
    else decimal text
  | _ => decimal text

/-- A ratio below the smallest normal number that is no double. -/
def tiny (n d : Nat) : Bool := n * Binary64.one < d * 2 ^ 52 && n * Binary64.one % d ≠ 0

/-- The tiny ratios that are still below the smallest normal number when they are rounded to
53 significant bits. -/
def tinyRounded (n d : Nat) : Bool := tiny n d && 4 * (n * Binary64.one) < d * (2 ^ 54 - 1)

theorem tiny_of_tinyRounded (n d : Nat) (h : tinyRounded n d = true) : tiny n d = true :=
  ((Bool.and_eq_true _ _).mp h).1

/-- `std::stod`. Which results underflow, and whether one that does is out of range, is left
open by the standard. -/
def toBinary64 (underflows : Nat → Nat → Bool) (text : List Char) : Option Binary64 :=
  let (negative, text) := signed (text.dropWhile isSpace)
  let word := text.map Char.toLower
  if ['i', 'n', 'f'].isPrefixOf word then some (.infinite negative)
  else if ['n', 'a', 'n'].isPrefixOf word then some .nan
  else
    (magnitude text).bind fun (n, d) =>
      if underflows n d then none
      else
        match Binary64.ofRatio negative (n * Binary64.one) d with
        | .infinite _ => none
        | x => some x

/-- The exponent of the first significant decimal digit of a positive ratio. -/
def decimalExponent (n d : Nat) : Int :=
  if d ≤ n then ((ofNat (n / d)).length : Int) - 1 else -(ofNat ((d - 1) / n)).length

/-- Six significant digits, and the exponent of the first. -/
def significant (n d : Nat) : Nat × Int :=
  let e := decimalExponent n d
  let digits :=
    if e ≤ 5 then Binary64.nearest (n * 10 ^ (5 - e).toNat) d
    else Binary64.nearest n (d * 10 ^ (e - 5).toNat)
  if digits = 10 ^ 6 then (10 ^ 5, e + 1) else (digits, e)

/-- The digits behind the point, without zeros at the end; without any, no point. -/
def fraction (places n : Nat) : List Char :=
  match ((Decimal.padded places n).reverse.dropWhile (· = '0')).reverse with
  | [] => []
  | digits => '.' :: digits

/-- A positive ratio with at most six significant digits, in the style of `%g`. -/
def general (n d : Nat) : List Char :=
  let (digits, e) := significant n d
  if -4 ≤ e ∧ e < 6 then
    let places := (5 - e).toNat
    ofNat (digits / 10 ^ places) ++ fraction places (digits % 10 ^ places)
  else
    ofNat (digits / 10 ^ 5) ++ fraction 5 (digits % 10 ^ 5) ++
      'e' :: (if e < 0 then '-' else '+') :: Decimal.padded 2 e.natAbs

/-- A double as a stream writes it that has not been told otherwise. -/
def ofBinary64 : Binary64 → List Char
  | .nan => ['n', 'a', 'n']
  | .infinite negative => (if negative then ['-'] else []) ++ ['i', 'n', 'f']
  | .finite negative units _ =>
    (if negative then ['-'] else []) ++ if units = 0 then ['0'] else general units Binary64.one

/-- The characters of numbers. -/
def isNumberChar (c : Char) : Bool := c.isDigit || c ∈ ['-', '+', '.', 'e', 'i', 'n', 'f', 'a']

theorem isNumberChar_of_isDigit {c : Char} (h : c.isDigit = true) : isNumberChar c = true := by
  rw [isNumberChar, h, Bool.true_or]

theorem isNumberChar_ofNat {n : Nat} : ∀ c ∈ ofNat n, isNumberChar c = true :=
  fun _ h => isNumberChar_of_isDigit (isDigit_of_mem_ofNat h)

theorem isNumberChar_ofInt {i : Int} : ∀ c ∈ ofInt i, isNumberChar c = true := by
  rw [ofInt]
  split_ifs
  · exact List.forall_mem_cons.mpr ⟨rfl, isNumberChar_ofNat⟩
  · exact isNumberChar_ofNat

theorem isNumberChar_padded {width n : Nat} :
    ∀ c ∈ Decimal.padded width n, isNumberChar c = true :=
  fun _ h => isNumberChar_of_isDigit (Decimal.isDigit_of_mem_padded h)

theorem isNumberChar_fraction {places n : Nat} :
    ∀ c ∈ fraction places n, isNumberChar c = true := by
  have hdigits : ∀ c ∈ ((Decimal.padded places n).reverse.dropWhile (· = '0')).reverse,
      isNumberChar c = true := by
    intro c hc
    have hmem := (List.dropWhile_sublist _).subset (List.mem_reverse.mp hc)
    exact isNumberChar_padded c (List.mem_reverse.mp hmem)
  rw [fraction]
  split
  · exact List.forall_mem_nil _
  · exact List.forall_mem_cons.mpr ⟨rfl, hdigits⟩

theorem isNumberChar_general {n d : Nat} : ∀ c ∈ general n d, isNumberChar c = true := by
  have hdigits (whole places n : Nat) :
      ∀ c ∈ ofNat whole ++ fraction places n, isNumberChar c = true :=
    List.forall_mem_append.mpr ⟨isNumberChar_ofNat, isNumberChar_fraction⟩
  rw [general]
  obtain ⟨digits, e⟩ := significant n d
  by_cases hfixed : -4 ≤ e ∧ e < 6
  · simp only [if_pos hfixed]
    exact hdigits _ _ _
  · simp only [if_neg hfixed]
    refine List.forall_mem_append.mpr ⟨hdigits _ _ _, List.forall_mem_cons.mpr ⟨rfl, ?_⟩⟩
    refine List.forall_mem_cons.mpr ⟨?_, isNumberChar_padded⟩
    split_ifs <;> rfl

theorem isNumberChar_ofBinary64 {x : Binary64} : ∀ c ∈ ofBinary64 x, isNumberChar c = true := by
  cases x with
  | nan => exact List.all_eq_true.mp rfl
  | infinite negative => cases negative <;> exact List.all_eq_true.mp rfl
  | finite negative units h =>
    refine List.forall_mem_append.mpr ⟨?_, ?_⟩
    · cases negative <;> exact List.all_eq_true.mp rfl
    · split_ifs
      · exact List.all_eq_true.mp rfl
      · exact isNumberChar_general

example : (ofBinary64 (Binary64.ofDecimal 12345678 10), ofBinary64 (Binary64.ofDecimal 9999995 1),
    ofBinary64 (Binary64.ofNat 123456789), ofBinary64 (Binary64.ofDecimal 5 7)) =
      ("0.00123457".toList, "1e+06".toList, "1.23457e+08".toList, "5e-07".toList) := by
  decide +kernel

end StreamText
