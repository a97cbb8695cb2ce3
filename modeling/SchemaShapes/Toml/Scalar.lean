import SchemaShapes.Text.Digit
import SchemaShapes.Text.Split
import SchemaShapes.Toml.Lexical

/-! Scalars of a TOML text that stand without quotes: truth values, numbers and moments. A text
has to have the form of one of them. Apart from that it is looked at whether a number is in range,
since one that is not does no harm where nobody asks for its value. -/
namespace SchemaShapes.Toml

/-- The characters that scalars without quotes are made of. -/
def isScalarChar (c : Char) : Bool :=
  c.isAlphanum || c = '_' || c = '+' || c = '-' || c = '.' || c = ':'

/-! ### Numbers -/

/-- Whether a text is digits of a class, maybe with single underscores between them. -/
def isDigits (p : Char → Bool) (cs : List Char) : Bool :=
  (Text.split '_' cs).all fun part => part ≠ [] && part.all p

/-- A text without the sign that it begins with. -/
def dropSign : List Char → List Char
  | '+' :: cs => cs
  | '-' :: cs => cs
  | cs => cs

/-- Whether a text is a decimal numeral without a sign. Only zero begins with the digit zero. -/
def isNumeral (cs : List Char) : Bool :=
  isDigits Char.isDigit cs && (cs = ['0'] || cs.head? ≠ some '0')

/-- The value of a numeral. -/
def numeralValue (cs : List Char) : Nat := Nat.ofDigitChars 10 (cs.filter (· ≠ '_')) 0

/-- Whether the decimal integer that a text is fits into 128 bits, signed or not. -/
def decimalInRange? (cs : List Char) : Option Bool :=
  let digits := dropSign cs
  if !isNumeral digits then none
  else if cs.head? = some '-' then some (numeralValue digits ≤ Nat.pow 2 127)
  else some (numeralValue digits < Nat.pow 2 128)

/-- The base that a mark after a zero announces. -/
def baseOf? (mark : Char) : Option Nat :=
  if mark = 'x' then some 16 else if mark = 'o' then some 8 else if mark = 'b' then some 2 else none

/-- Whether the integer in another base that a text is fits into 128 bits. One without digits has
the right form, but no value. -/
def basedInRange? : List Char → Option Bool
  | '0' :: mark :: cs => do
    let base ← baseOf? mark
    if cs = [] || isDigits (Text.isDigitOf base) cs then
      some ((Text.readNumber base (cs.filter (· ≠ '_'))).any (· < Nat.pow 2 128))
    else
      none
  | _ => none

/-- The least number that rounds to two to the 1024th, which double precision does not reach: half
a step below it. -/
def doubleLimit : Nat := Nat.pow 2 1024 - Nat.pow 2 970

/-- Whether a decimal fraction with an exponent is too large for a number of double precision. -/
def isOverflow (digits : List Char) (exponent : Int) : Bool :=
  let m := numeralValue digits
  if m = 0 ∨ exponent + digits.length < 300 then false
  else if exponent + (Nat.toDigits 10 m).length > 400 then true
  else if exponent < 0 then doubleLimit * Nat.pow 10 exponent.natAbs ≤ m
  else doubleLimit ≤ m * Nat.pow 10 exponent.natAbs

/-- The value of an exponent. -/
def exponentValue (cs : List Char) : Int :=
  let n := numeralValue (dropSign cs)
  if cs.head? = some '-' then -n else n

/-- Whether the number that an integer part, a fraction and an exponent make is in range. -/
def scientificInRange? (whole : List Char) (fraction exponent : Option (List Char)) :
    Option Bool :=
  if isNumeral whole && fraction.all (isDigits Char.isDigit)
      && exponent.all (fun e => isDigits Char.isDigit (dropSign e)) then
    some (!isOverflow (whole ++ fraction.getD [])
      ((exponent.map exponentValue).getD 0 - ((fraction.getD []).filter (· ≠ '_')).length))
  else
    none

/-- Whether the number with a fraction or an exponent that a text is, or the one that is not
finite, is in range. -/
def floatInRange? (cs : List Char) : Option Bool :=
  let magnitude := dropSign cs
  if magnitude = "inf".toList ∨ magnitude = "nan".toList then some true
  else
    let mantissa := magnitude.takeWhile fun c => c ≠ 'e' && c ≠ 'E'
    let exponent := (magnitude.drop mantissa.length).tail?
    match Text.split '.' mantissa with
    | [whole] => if exponent.isSome then scientificInRange? whole none exponent else none
    | [whole, fraction] => scientificInRange? whole (some fraction) exponent
    | _ => none

/-! ### Moments -/

/-- The value of two digits. -/
def twoDigits? (a b : Char) : Option Nat :=
  if a.isDigit ∧ b.isDigit then some (Nat.ofDigitChars 10 [a, b] 0) else none

def isLeapYear (year : Nat) : Bool := (year % 4 = 0 && year % 100 ≠ 0) || year % 400 = 0

def daysIn (year month : Nat) : Nat :=
  if month = 2 then (if isLeapYear year then 29 else 28)
  else if month = 4 ∨ month = 6 ∨ month = 9 ∨ month = 11 then 30
  else 31

/-- Whether a text is a day of the calendar. -/
def isDate : List Char → Bool
  | [a, b, c, d, '-', m, n, '-', e, f] =>
    match twoDigits? a b, twoDigits? c d, twoDigits? m n, twoDigits? e f with
    | some century, some year, some month, some day =>
      1 ≤ month && month ≤ 12 && 1 ≤ day && day ≤ daysIn (century * 100 + year) month
    | _, _, _, _ => false
  | _ => false

/-- Whether a text is what may follow the minutes of a time: nothing, or seconds that may have a
fraction. A minute may have a leap second. -/
def isSeconds : List Char → Bool
  | [] => true
  | ':' :: a :: b :: rest =>
    (twoDigits? a b).any (· ≤ 60) &&
      match rest with
      | [] => true
      | '.' :: digits => digits ≠ [] && digits.all Char.isDigit
      | _ => false
  | _ => false

/-- Whether a text is a time of day. -/
def isTime : List Char → Bool
  | a :: b :: ':' :: c :: d :: rest =>
    (match twoDigits? a b, twoDigits? c d with
      | some hour, some minute => hour ≤ 23 && minute ≤ 59
      | _, _ => false) && isSeconds rest
  | _ => false

/-- Whether a text is the offset of a time zone. -/
def isOffset : List Char → Bool
  | ['Z'] => true
  | ['z'] => true
  | [sign, a, b, ':', c, d] =>
    (sign = '+' || sign = '-') &&
      match twoDigits? a b, twoDigits? c d with
      | some hour, some minute => hour ≤ 23 && minute ≤ 59
      | _, _ => false
  | _ => false

/-- Whether a text is a time of day, maybe with an offset. -/
def isZonedTime (cs : List Char) : Bool :=
  let time := cs.takeWhile fun c => c.isDigit || c = ':' || c = '.'
  let offset := cs.drop time.length
  isTime time && (offset = [] || isOffset offset)

/-- Whether a text is a moment: a day, a time, or both. -/
def isMoment (cs : List Char) : Bool :=
  isDate cs || isTime cs ||
    (isDate (cs.take 10) &&
      match cs.drop 10 with
      | mark :: time => (mark = 'T' || mark = 't' || mark = ' ') && isZonedTime time
      | [] => false)

/-! ### Reading -/

/-- Whether the scalar that a text is is in range. Truth values and moments are. -/
def scalarInRange? (cs : List Char) : Option Bool :=
  if cs = "true".toList ∨ cs = "false".toList ∨ isMoment cs then some true
  else (decimalInRange? cs).or ((basedInRange? cs).or (floatInRange? cs))

/-- What follows a day and a space, if a digit does: the time may be written there. -/
def timeAfter : List Char → Option (List Char)
  | ' ' :: c :: cs => if c.isDigit then some (c :: cs) else none
  | _ => none

/-- Read a scalar, of which is kept whether it is in range. -/
def readScalar : Reader Bool := fun cs =>
  let word := cs.takeWhile isScalarChar
  let rest := cs.dropWhile isScalarChar
  match isDate word, timeAfter rest with
  | true, some time =>
    if isMoment (word ++ ' ' :: time.takeWhile isScalarChar) then
      some (true, time.dropWhile isScalarChar)
    else
      none
  | _, _ => (scalarInRange? word).map (·, rest)

end SchemaShapes.Toml
