import ExprLowering.Toml

/-!
# Strings, numbers and dates of TOML

Strings are read character by character. Everything else that is not an array or a table is one
token, which is classified as a whole.
-/

namespace ExprLowering.Toml

/-! ### Strings -/

/-- What may stand in a comment or a string: a tab, or a character that is no control. -/
def isTextChar (c : Char) : Bool :=
  c == '\t' || (c.toNat ≥ 0x20 && c.toNat ≠ 0x7f)

def isBlank (c : Char) : Bool :=
  c == ' ' || c == '\t'

def simpleEscape? : Char → Option Char
  | 'b' => some '\x08'
  | 't' => some '\t'
  | 'n' => some '\n'
  | 'f' => some '\x0c'
  | 'r' => some '\r'
  | '"' => some '"'
  | '\\' => some '\\'
  | _ => none

def hexDigit? (c : Char) : Option Nat :=
  if c.isDigit then some (c.toNat - '0'.toNat)
  else if 'a' ≤ c ∧ c ≤ 'f' then some (c.toNat - 'a'.toNat + 10)
  else if 'A' ≤ c ∧ c ≤ 'F' then some (c.toNat - 'A'.toNat + 10)
  else none

/-- The character with the given code point in hexadecimal. -/
def codePoint? (digits : List Char) : Option Char := do
  let n ← digits.foldlM (fun n c => (hexDigit? c).map (n * 16 + ·)) 0
  if n < 0xd800 ∨ (0xdfff < n ∧ n < 0x110000) then some (Char.ofNat n) else none

/-- The rest of a string in double quotes, and what follows it. -/
def basicString : List Char → Option (List Char × List Char)
  | '"' :: r => some ([], r)
  | '\\' :: 'u' :: a :: b :: c :: d :: r => do
    let x ← codePoint? [a, b, c, d]
    let (s, r) ← basicString r
    return (x :: s, r)
  | '\\' :: 'U' :: a :: b :: c :: d :: e :: f :: g :: h :: r => do
    let x ← codePoint? [a, b, c, d, e, f, g, h]
    let (s, r) ← basicString r
    return (x :: s, r)
  | '\\' :: e :: r => do
    let x ← simpleEscape? e
    let (s, r) ← basicString r
    return (x :: s, r)
  | c :: r =>
    if isTextChar c && c != '\\' then do
      let (s, r) ← basicString r
      return (c :: s, r)
    else none
  | [] => none

/-- The rest of a string in single quotes, and what follows it. -/
def literalString : List Char → Option (List Char × List Char)
  | '\'' :: r => some ([], r)
  | c :: r =>
    if isTextChar c then do
      let (s, r) ← literalString r
      return (c :: s, r)
    else none
  | [] => none

/-- Whether a line ends here, but for blanks. -/
def lineEnds (cs : List Char) : Bool :=
  match cs.dropWhile isBlank with
  | '\n' :: _ | '\r' :: '\n' :: _ => true
  | _ => false

/-- The rest of a string in three double quotes. A backslash at the end of a line joins it to the
next text, and `joining` says that this text has not been reached yet. -/
def basicLines (joining : Bool) : List Char → Option (List Char × List Char)
  | '"' :: '"' :: '"' :: '"' :: '"' :: r => some (['"', '"'], r)
  | '"' :: '"' :: '"' :: '"' :: r => some (['"'], r)
  | '"' :: '"' :: '"' :: r => some ([], r)
  | '\\' :: 'u' :: a :: b :: c :: d :: r => do
    let x ← codePoint? [a, b, c, d]
    let (s, r) ← basicLines false r
    return (x :: s, r)
  | '\\' :: 'U' :: a :: b :: c :: d :: e :: f :: g :: h :: r => do
    let x ← codePoint? [a, b, c, d, e, f, g, h]
    let (s, r) ← basicLines false r
    return (x :: s, r)
  | '\\' :: e :: r =>
    if lineEnds (e :: r) then basicLines true (e :: r)
    else do
      let x ← simpleEscape? e
      let (s, r) ← basicLines false r
      return (x :: s, r)
  | '\r' :: '\n' :: r =>
    if joining then basicLines true r
    else do
      let (s, r) ← basicLines false r
      return ('\r' :: '\n' :: s, r)
  | c :: r =>
    if joining && (isBlank c || c == '\n') then basicLines true r
    else if c == '\n' || (isTextChar c && c != '\\') then do
      let (s, r) ← basicLines false r
      return (c :: s, r)
    else none
  | [] => none

/-- The rest of a string in three single quotes. -/
def literalLines : List Char → Option (List Char × List Char)
  | '\'' :: '\'' :: '\'' :: '\'' :: '\'' :: r => some (['\'', '\''], r)
  | '\'' :: '\'' :: '\'' :: '\'' :: r => some (['\''], r)
  | '\'' :: '\'' :: '\'' :: r => some ([], r)
  | '\r' :: '\n' :: r => do
    let (s, r) ← literalLines r
    return ('\r' :: '\n' :: s, r)
  | c :: r =>
    if c == '\n' || isTextChar c then do
      let (s, r) ← literalLines r
      return (c :: s, r)
    else none
  | [] => none

/-- A line end right after the opening quotes does not count. -/
def dropLineEnd : List Char → List Char
  | '\n' :: r => r
  | '\r' :: '\n' :: r => r
  | r => r

/-- A string of any of the four forms, and what follows it. -/
def string? : List Char → Option (String × List Char)
  | '"' :: '"' :: '"' :: r => (basicLines false (dropLineEnd r)).map (·.map String.ofList id)
  | '"' :: r => (basicString r).map (·.map String.ofList id)
  | '\'' :: '\'' :: '\'' :: r => (literalLines (dropLineEnd r)).map (·.map String.ofList id)
  | '\'' :: r => (literalString r).map (·.map String.ofList id)
  | _ => none

/-! ### Numbers -/

/-- Digits in the given base, with single underscores between them. -/
def digits? (base : Nat) (cs : List Char) : Option (List Nat) :=
  let rec go (afterDigit : Bool) : List Char → Option (List Nat)
    | [] => if afterDigit then some [] else none
    | '_' :: cs => if afterDigit then go false cs else none
    | c :: cs => do
      let d ← hexDigit? c
      if d < base then return d :: (← go true cs) else none
  go false cs

def ofDigits (base : Nat) (ds : List Nat) : Nat :=
  ds.foldl (fun n d => n * base + d) 0

/-- Decimal digits without a leading zero. -/
def decimal? (cs : List Char) : Option Nat := do
  let ds ← digits? 10 cs
  if ds.length > 1 && ds.head? == some 0 then none else return ofDigits 10 ds

/-- A number that fits in 64 bits with a sign. -/
def checkRange (n : Int) : Option Int :=
  if -0x8000000000000000 ≤ n ∧ n ≤ 0x7fffffffffffffff then some n else none

def integer? : List Char → Option Int
  | '0' :: 'x' :: cs => do checkRange (ofDigits 16 (← digits? 16 cs))
  | '0' :: 'o' :: cs => do checkRange (ofDigits 8 (← digits? 8 cs))
  | '0' :: 'b' :: cs => do checkRange (ofDigits 2 (← digits? 2 cs))
  | '+' :: cs => do checkRange (← decimal? cs)
  | '-' :: cs => do checkRange (-(← decimal? cs))
  | cs => do checkRange (← decimal? cs)

def unsigned : List Char → List Char
  | '+' :: cs | '-' :: cs => cs
  | cs => cs

/-- The exponent of a float; none is zero. -/
def exponent? : List Char → Option Int
  | [] => some 0
  | '-' :: cs => (digits? 10 cs).map fun ds => -(ofDigits 10 ds : Int)
  | '+' :: cs => (digits? 10 cs).map fun ds => (ofDigits 10 ds : Int)
  | cs => (digits? 10 cs).map fun ds => (ofDigits 10 ds : Int)

/-- The least number too great for a double: the greatest double and half a step. -/
def overflow : Nat :=
  1 <<< 1024 - 1 <<< 970

/-- Whether `n * 10 ^ e` is small enough for a double. -/
def isFinite (n : Nat) (e : Int) : Bool :=
  n == 0 ||
    match e with
    | .ofNat k => k < 400 && n * Nat.pow 10 k < overflow
    | .negSucc k => (Nat.toDigits 10 n).length ≤ k || n < overflow * Nat.pow 10 (k + 1)

/-- A number with a fraction or an exponent, or an infinity or NaN by name. One that is too great for
a double is refused; one that is too far below zero counts as minus infinity. -/
def isFloat (cs : List Char) : Bool :=
  let negative := cs.head? == some '-'
  let cs := unsigned cs
  if cs == ['i', 'n', 'f'] || cs == ['n', 'a', 'n'] then true
  else
    let isExp := fun c => c == 'e' || c == 'E'
    let (mantissa, tail) := (cs.takeWhile (!isExp ·), cs.dropWhile (!isExp ·))
    let (whole, fraction) := (mantissa.takeWhile (· != '.'), mantissa.dropWhile (· != '.'))
    let places? : Option (List Nat) := match fraction with
      | [] => some []
      | _ :: f => digits? 10 f
    let exp? : Option Int := match tail with
      | [] => some 0
      | _ :: e => if e.isEmpty then none else exponent? e
    match decimal? whole, places?, exp? with
    | some w, some places, some e =>
      !(fraction.isEmpty && tail.isEmpty) &&
        (negative || isFinite (w * Nat.pow 10 places.length + ofDigits 10 places) (e - places.length))
    | _, _, _ => false

/-! ### Dates and times -/

/-- A number of exactly two digits between the limits. -/
def twoDigits (low high : Nat) (a b : Char) : Bool :=
  a.isDigit && b.isDigit &&
    let n := (a.toNat - '0'.toNat) * 10 + (b.toNat - '0'.toNat)
    low ≤ n && n ≤ high

def isLeapYear (y : Nat) : Bool :=
  y % 4 == 0 && (y % 100 != 0 || y % 400 == 0)

def daysIn (y m : Nat) : Nat :=
  if m == 2 then if isLeapYear y then 29 else 28
  else if m == 4 || m == 6 || m == 9 || m == 11 then 30 else 31

def isDate (cs : List Char) : Bool :=
  match cs with
  | [a, b, c, d, '-', m, n, '-', x, y] =>
    [a, b, c, d].all Char.isDigit && twoDigits 1 12 m n &&
      twoDigits 1 (daysIn (ofDigits 10 ([a, b, c, d].map (·.toNat - '0'.toNat)))
        (ofDigits 10 ([m, n].map (·.toNat - '0'.toNat)))) x y
  | _ => false

/-- An offset from universal time: none, or `Z`, or hours and minutes with a sign. -/
def isOffset : List Char → Bool
  | [] | ['Z'] | ['z'] => true
  | [s, a, b, ':', c, d] => (s == '+' || s == '-') && twoDigits 0 23 a b && twoDigits 0 59 c d
  | _ => false

/-- A time; what `tail` accepts may follow it. -/
def isTime (tail : List Char → Bool) : List Char → Bool
  | a :: b :: ':' :: c :: d :: ':' :: e :: f :: r =>
    twoDigits 0 23 a b && twoDigits 0 59 c d && twoDigits 0 60 e f &&
      match r with
      | '.' :: x :: r => x.isDigit && tail (r.dropWhile Char.isDigit)
      | r => tail r
  | _ => false

def isDatetime (cs : List Char) : Bool :=
  isDate cs || isTime List.isEmpty cs ||
    (isDate (cs.take 10) &&
      match cs.drop 10 with
      | 'T' :: r | 't' :: r | ' ' :: r => isTime isOffset r
      | _ => false)

/-! ### Tokens -/

def isTokenChar (c : Char) : Bool :=
  c.isAlphanum || c == '+' || c == '-' || c == '_' || c == '.' || c == ':'

/-- The value of a token. -/
def token? (cs : List Char) : Option Value :=
  if cs == ['t', 'r', 'u', 'e'] then some (.bool true)
  else if cs == ['f', 'a', 'l', 's', 'e'] then some (.bool false)
  else
    match integer? cs with
    | some n => some (.int n)
    | none =>
      if isFloat cs then some (.float (String.ofList cs))
      else if isDatetime cs then some (.datetime (String.ofList cs))
      else none

/-- A token and what follows it. A date may go on after a blank with a time. -/
def scalar? (cs : List Char) : Option (Value × List Char) :=
  let first := cs.takeWhile isTokenChar
  let rest := cs.dropWhile isTokenChar
  let long? : Option (Value × List Char) :=
    match isDate first, rest with
    | true, ' ' :: r =>
      let both := first ++ ' ' :: r.takeWhile isTokenChar
      if isDatetime both then
        some (.datetime (String.ofList both), r.dropWhile isTokenChar)
      else none
    | _, _ => none
  match long? with
  | some p => some p
  | none => (token? first).map (·, rest)

end ExprLowering.Toml
