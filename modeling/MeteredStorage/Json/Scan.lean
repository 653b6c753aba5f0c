
namespace MeteredStorage.Json

def isBlank (c : Char) : Bool := c == ' ' || c == '\n' || c == '\t' || c == '\r'

def skipBlanks (s : List Char) : List Char := s.dropWhile isBlank

def hexValue? (c : Char) : Option Nat :=
  if '0' ≤ c ∧ c ≤ '9' then some (c.toNat - 48)
  else if 'a' ≤ c ∧ c ≤ 'f' then some (c.toNat - 87)
  else if 'A' ≤ c ∧ c ≤ 'F' then some (c.toNat - 55)
  else none

def codeUnit? (a b c d : Char) : Option Nat := do
  return ((← hexValue? a) * 16 + (← hexValue? b)) * 256 + ((← hexValue? c) * 16 + (← hexValue? d))

def escaped? : Char → Option Char
  | '"' => some '"'
  | '\\' => some '\\'
  | '/' => some '/'
  | 'b' => some '\x08'
  | 'f' => some '\x0c'
  | 'n' => some '\n'
  | 'r' => some '\r'
  | 't' => some '\t'
  | _ => none

def isHighSurrogate (n : Nat) : Bool := 0xD800 ≤ n && n < 0xDC00
def isLowSurrogate (n : Nat) : Bool := 0xDC00 ≤ n && n < 0xE000

/--
The characters of a string whose opening quote has been read, up to its closing quote. Surrogates
must come in pairs.
-/
def string? : List Char → Option (List Char × List Char)
  | '"' :: s => some ([], s)
  | '\\' :: 'u' :: a :: b :: c :: d :: s => do
    let unit ← codeUnit? a b c d
    if isLowSurrogate unit then none
    else if isHighSurrogate unit then
      match s with
      | '\\' :: 'u' :: e :: f :: g :: h :: s =>
        let low ← codeUnit? e f g h
        if isLowSurrogate low then
          let (cs, rest) ← string? s
          return (Char.ofNat (0x10000 + (unit - 0xD800) * 0x400 + (low - 0xDC00)) :: cs, rest)
        else none
      | _ => none
    else
      let (cs, rest) ← string? s
      return (Char.ofNat unit :: cs, rest)
  | '\\' :: e :: s => do
    let c ← escaped? e
    let (cs, rest) ← string? s
    return (c :: cs, rest)
  | c :: s => do
    if c.toNat < 0x20 then none
    else
      let (cs, rest) ← string? s
      return (c :: cs, rest)
  | [] => none

/-- Passes over a string whose opening quote has been read; only the shape of escapes counts. -/
def skipString : List Char → Option (List Char)
  | '"' :: s => some s
  | '\\' :: 'u' :: a :: b :: c :: d :: s => (codeUnit? a b c d).bind fun _ => skipString s
  | '\\' :: e :: s => (escaped? e).bind fun _ => skipString s
  | c :: s => if c.toNat < 0x20 then none else skipString s
  | [] => none

def digits? (s : List Char) : Option (Nat × List Char) :=
  let ds := s.takeWhile Char.isDigit
  let rest := s.dropWhile Char.isDigit
  match ds with
  | [] => none
  | '0' :: _ :: _ => none
  | _ => some (Nat.ofDigitChars 10 ds 0, rest)

def continuesNumber : List Char → Bool
  | c :: _ => c == '.' || c == 'e' || c == 'E'
  | [] => false

/-- A whole number; neither fractions and exponents nor a negative zero are whole numbers. -/
def integer? (s : List Char) : Option (Int × List Char) :=
  match s with
  | '-' :: s => do
    let (n, rest) ← digits? s
    if n = 0 ∨ continuesNumber rest then none else return (-(n : Int), rest)
  | s => do
    let (n, rest) ← digits? s
    if continuesNumber rest then none else return ((n : Int), rest)

def skipDigits (s : List Char) : Option (List Char) :=
  match s with
  | c :: s => if c.isDigit then some (s.dropWhile Char.isDigit) else none
  | [] => none

def skipFraction : List Char → Option (List Char)
  | '.' :: s => skipDigits s
  | s => some s

def skipExponent : List Char → Option (List Char)
  | c :: s =>
    if c = 'e' ∨ c = 'E' then
      match s with
      | '+' :: s => skipDigits s
      | '-' :: s => skipDigits s
      | s => skipDigits s
    else some (c :: s)
  | [] => some []

def skipNumber (s : List Char) : Option (List Char) := do
  let unsigned := match s with
    | '-' :: s => s
    | s => s
  let (_, rest) ← digits? unsigned
  skipExponent (← skipFraction rest)

inductive Frame
  | array
  | object

inductive Expected
  | value
  | member
  | continuation

/--
Passes over the rest of a value inside `frames`, the innermost first. Every step consumes a
character, so the length of the text bounds the number of steps.
-/
def skipFrom : Nat → Expected → List Frame → List Char → Option (List Char)
  | 0, _, _, _ => none
  | n + 1, .value, frames, s =>
    match skipBlanks s with
    | '"' :: s => (skipString s).bind (skipFrom n .continuation frames)
    | '[' :: s =>
      match skipBlanks s with
      | ']' :: s => skipFrom n .continuation frames s
      | s => skipFrom n .value (.array :: frames) s
    | '\x7b' :: s =>
      match skipBlanks s with
      | '\x7d' :: s => skipFrom n .continuation frames s
      | s => skipFrom n .member (.object :: frames) s
    | 'n' :: s => (['u', 'l', 'l'].isPrefixOf? s).bind (skipFrom n .continuation frames)
    | 't' :: s => (['r', 'u', 'e'].isPrefixOf? s).bind (skipFrom n .continuation frames)
    | 'f' :: s => (['a', 'l', 's', 'e'].isPrefixOf? s).bind (skipFrom n .continuation frames)
    | s => (skipNumber s).bind (skipFrom n .continuation frames)
  | n + 1, .member, frames, s =>
    match skipBlanks s with
    | '"' :: s =>
      (skipString s).bind fun s =>
        match skipBlanks s with
        | ':' :: s => skipFrom n .value frames s
        | _ => none
    | _ => none
  | n + 1, .continuation, frames, s =>
    match frames with
    | [] => some s
    | .array :: outer =>
      match skipBlanks s with
      | ',' :: s => skipFrom n .value frames s
      | ']' :: s => skipFrom n .continuation outer s
      | _ => none
    | .object :: outer =>
      match skipBlanks s with
      | ',' :: s => skipFrom n .member frames s
      | '\x7d' :: s => skipFrom n .continuation outer s
      | _ => none

def skipValue (s : List Char) : Option (List Char) := skipFrom (s.length + 1) .value [] s

end MeteredStorage.Json
