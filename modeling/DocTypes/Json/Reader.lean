import DocTypes.Json.Value

/-!
Reading JSON text.
-/
namespace DocTypes.JsonValue

/-- JSON has four characters that may stand between values. -/
def isSpace (c : Char) : Bool := c == ' ' || c == '\t' || c == '\n' || c == '\r'

def skipSpace (s : Text) : Text := s.dropWhile isSpace

def hexValue? (c : Char) : Option Nat :=
  if c.isDigit then some (c.toNat - '0'.toNat)
  else if 'a' ≤ c ∧ c ≤ 'f' then some (c.toNat - 'a'.toNat + 10)
  else if 'A' ≤ c ∧ c ≤ 'F' then some (c.toNat - 'A'.toNat + 10)
  else none

/-- The character that a one-letter escape stands for. -/
def escapes : List (Char × Char) :=
  [('"', '"'), ('\\', '\\'), ('/', '/'), ('b', '\x08'), ('f', '\x0c'), ('n', '\n'), ('r', '\r'),
   ('t', '\t')]

/-- The rest of a string up to its closing quote, as code points; an escaped code unit counts
as one. -/
def readUnits : Text → Option (List Nat × Text)
  | '"' :: r => some ([], r)
  | '\\' :: 'u' :: a :: b :: c :: d :: r => do
    let unit := (((← hexValue? a) * 16 + (← hexValue? b)) * 16 + (← hexValue? c)) * 16 +
      (← hexValue? d)
    let (units, rest) ← readUnits r
    return (unit :: units, rest)
  | '\\' :: c :: r => do
    let e ← escapes.lookup c
    let (units, rest) ← readUnits r
    return (e.toNat :: units, rest)
  | c :: r => do
    if c == '\\' || c.toNat < 0x20 then none
    let (units, rest) ← readUnits r
    return (c.toNat :: units, rest)
  | [] => none

def isHighSurrogate (n : Nat) : Bool := 0xD800 ≤ n && n < 0xDC00

def isLowSurrogate (n : Nat) : Bool := 0xDC00 ≤ n && n < 0xE000

/-- The characters of a string; a high surrogate needs a low one behind it, and neither stands
alone. -/
def decodeUnits : List Nat → Option Text
  | [] => some []
  | n :: m :: r =>
    if isHighSurrogate n then
      if isLowSurrogate m then
        (decodeUnits r).map (Char.ofNat (0x10000 + (n - 0xD800) * 0x400 + (m - 0xDC00)) :: ·)
      else none
    else if isLowSurrogate n then none
    else (decodeUnits (m :: r)).map (Char.ofNat n :: ·)
  | [n] => if isHighSurrogate n || isLowSurrogate n then none else some [Char.ofNat n]

/-- One digit or more. -/
def readDigits (s : Text) : Option (Text × Text) :=
  if s.headD ' ' |>.isDigit then some (s.takeWhile Char.isDigit, s.dropWhile Char.isDigit)
  else none

/-- An optional part of a number literal: its mark, and digits behind. -/
def readFraction : Text → Option (Text × Text)
  | '.' :: r => (readDigits r).map fun (ds, rest) => ('.' :: ds, rest)
  | r => some ([], r)

def readExponent : Text → Option (Text × Text)
  | e :: r =>
    if e == 'e' || e == 'E' then
      let sign := r.take (if r.headD ' ' == '+' || r.headD ' ' == '-' then 1 else 0)
      (readDigits (r.drop sign.length)).map fun (ds, rest) => (e :: sign ++ ds, rest)
    else some ([], e :: r)
  | [] => some ([], [])

/-- A number has no zeros in front. -/
def readNumber (s : Text) : Option (Text × Text) := do
  let sign := s.take (if s.headD ' ' == '-' then 1 else 0)
  let (whole, r) ← match s.drop sign.length with
    | '0' :: r => some (['0'], r)
    | r => readDigits r
  let (fraction, r) ← readFraction r
  let (exponent, r) ← readExponent r
  return (sign ++ whole ++ fraction ++ exponent, r)

mutual

/-- A value at the start of the text. -/
def readValue : Nat → Text → Option (JsonValue × Text)
  | 0, _ => none
  | bound + 1, s =>
    match s with
    | '"' :: r => (readUnits r).map fun (units, rest) => (.string (decodeUnits units), rest)
    | '[' :: r =>
      match skipSpace r with
      | ']' :: rest => some (.array [], rest)
      | items => (readItems bound items).map fun (vs, rest) => (.array vs, rest)
    | '{' :: r =>
      match skipSpace r with
      | '}' :: rest => some (.object [], rest)
      | members => (readMembers bound members).map fun (ms, rest) => (.object ms, rest)
    | s =>
      match Text.after? "null" s, Text.after? "true" s, Text.after? "false" s with
      | some rest, _, _ => some (.null, rest)
      | _, some rest, _ => some (.bool true, rest)
      | _, _, some rest => some (.bool false, rest)
      | _, _, _ => (readNumber s).map fun (literal, rest) => (.number literal, rest)

/-- Items with commas between them, up to the closing bracket. -/
def readItems : Nat → Text → Option (List JsonValue × Text)
  | 0, _ => none
  | bound + 1, s => do
    let (v, r) ← readValue bound s
    match skipSpace r with
    | ']' :: rest => return ([v], rest)
    | ',' :: rest => do
      let (vs, rest) ← readItems bound (skipSpace rest)
      return (v :: vs, rest)
    | _ => none

/-- Members with commas between them, up to the closing brace. -/
def readMembers : Nat → Text → Option (List (Option Text × JsonValue) × Text)
  | 0, _ => none
  | bound + 1, s => do
    match s with
    | '"' :: r => do
      let (units, r) ← readUnits r
      match skipSpace r with
      | ':' :: r => do
        let (v, r) ← readValue bound (skipSpace r)
        match skipSpace r with
        | '}' :: rest => return ([(decodeUnits units, v)], rest)
        | ',' :: rest => do
          let (ms, rest) ← readMembers bound (skipSpace rest)
          return ((decodeUnits units, v) :: ms, rest)
        | _ => none
      | _ => none
    | _ => none

end

/-- The text as one value, with nothing but space around it. Every step of reading that goes
deeper or further leaves a character behind, so twice the length bounds their number. -/
def read (s : Text) : Option JsonValue :=
  match readValue (2 * s.length + 1) (skipSpace s) with
  | some (v, rest) => if (skipSpace rest).isEmpty then some v else none
  | none => none

end DocTypes.JsonValue
