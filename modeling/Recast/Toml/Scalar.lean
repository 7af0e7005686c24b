import Recast.Toml.Value

/-!
# Keys and scalars of TOML

Each reader takes what it reads from the front of the characters and gives the rest. A reader that gives
nothing has met text that no document may hold there.
-/

namespace Recast.Toml

/-- A value read from the front, and the rest. -/
abbrev Reader (α : Type) := List Char → Option (α × List Char)

/-- A blank inside a line. -/
def isSpace (c : Char) : Bool :=
  c == ' ' || c == '\t'

def skipSpace (cs : List Char) : List Char :=
  cs.dropWhile isSpace

/-- A character that may stand in strings and comments: no control character but the tabulator. -/
def isPlain (c : Char) : Bool :=
  c == '\t' || (0x20 ≤ c.toNat && c.toNat ≠ 0x7F)

/-- A line break. -/
def newLine? : List Char → Option (List Char)
  | '\n' :: cs => some cs
  | '\r' :: '\n' :: cs => some cs
  | _ => none

/-- A character of a key without quotes. -/
def isBare (c : Char) : Bool :=
  c.isAlphanum || c == '-' || c == '_'

/-- The value of a hexadecimal digit. -/
def hexDigit? (c : Char) : Option Nat :=
  if c.isDigit then some (c.toNat - 48)
  else if 'a' ≤ c ∧ c ≤ 'f' then some (c.toNat - 87)
  else if 'A' ≤ c ∧ c ≤ 'F' then some (c.toNat - 55)
  else none

/-- The character of a code point in hexadecimal digits. -/
def charOfHex? (digits : List Char) : Option Char := do
  let n ← digits.foldlM (fun n c => (hexDigit? c).map (16 * n + ·)) 0
  if n.isValidChar then some (Char.ofNat n) else none

/-- The character of an escape, read from behind the backslash. -/
def escape? : Reader Char
  | 'b' :: cs => some ('\x08', cs)
  | 't' :: cs => some ('\t', cs)
  | 'n' :: cs => some ('\n', cs)
  | 'f' :: cs => some ('\x0c', cs)
  | 'r' :: cs => some ('\r', cs)
  | '"' :: cs => some ('"', cs)
  | '\\' :: cs => some ('\\', cs)
  | 'u' :: cs => if cs.length < 4 then none else (charOfHex? (cs.take 4)).map (·, cs.drop 4)
  | 'U' :: cs => if cs.length < 8 then none else (charOfHex? (cs.take 8)).map (·, cs.drop 8)
  | _ => none

/-- Puts characters in front of those that are read. -/
def push (front : List Char) (read : Option (List Char × List Char)) : Option (List Char × List Char) :=
  read.map fun (text, rest) => (front ++ text, rest)

/-- The rest of a basic string behind its opening quote; `fuel` bounds the characters that are left. -/
def basicBody (fuel : Nat) (cs : List Char) : Option (List Char × List Char) :=
  match fuel, cs with
  | 0, _ => none
  | _, [] => none
  | _, '"' :: cs => some ([], cs)
  | fuel + 1, '\\' :: cs => do
    let (c, rest) ← escape? cs
    push [c] (basicBody fuel rest)
  | fuel + 1, c :: cs => if isPlain c then push [c] (basicBody fuel cs) else none

/-- The rest of a literal string behind its opening mark. -/
def literalBody : Reader (List Char)
  | [] => none
  | '\'' :: cs => some ([], cs)
  | c :: cs => if isPlain c then push [c] (literalBody cs) else none

/-- Skips the blanks and line breaks of a gap. -/
def skipGap : List Char → List Char
  | '\r' :: '\n' :: cs => skipGap cs
  | c :: cs => if c = ' ' ∨ c = '\t' ∨ c = '\n' then skipGap cs else c :: cs
  | [] => []

/-- The rest of a basic string over many lines. Up to two quotes may stand before the closing ones, and a
backslash at the end of a line takes the gap behind it away. -/
def longBasicBody (fuel : Nat) (cs : List Char) : Option (List Char × List Char) :=
  match fuel, cs with
  | 0, _ => none
  | _, [] => none
  | _, '"' :: '"' :: '"' :: '"' :: '"' :: cs => some (['"', '"'], cs)
  | _, '"' :: '"' :: '"' :: '"' :: cs => some (['"'], cs)
  | _, '"' :: '"' :: '"' :: cs => some ([], cs)
  | fuel + 1, '\\' :: cs =>
    match newLine? (skipSpace cs) with
    | some rest => longBasicBody fuel (skipGap rest)
    | none => do
      let (c, rest) ← escape? cs
      push [c] (longBasicBody fuel rest)
  | fuel + 1, '\n' :: cs => push ['\n'] (longBasicBody fuel cs)
  | fuel + 1, '\r' :: '\n' :: cs => push ['\n'] (longBasicBody fuel cs)
  | fuel + 1, c :: cs => if isPlain c then push [c] (longBasicBody fuel cs) else none

/-- The rest of a literal string over many lines. -/
def longLiteralBody : Reader (List Char)
  | [] => none
  | '\'' :: '\'' :: '\'' :: '\'' :: '\'' :: cs => some (['\'', '\''], cs)
  | '\'' :: '\'' :: '\'' :: '\'' :: cs => some (['\''], cs)
  | '\'' :: '\'' :: '\'' :: cs => some ([], cs)
  | '\n' :: cs => push ['\n'] (longLiteralBody cs)
  | '\r' :: '\n' :: cs => push ['\n'] (longLiteralBody cs)
  | c :: cs => if isPlain c then push [c] (longLiteralBody cs) else none

/-- Drops a line break directly behind the opening marks. -/
def dropFirstBreak (cs : List Char) : List Char :=
  (newLine? cs).getD cs

/-- A string of one line. -/
def shortString? : Reader (List Char)
  | '"' :: cs => basicBody (cs.length + 1) cs
  | '\'' :: cs => literalBody cs
  | _ => none

/-- A string. -/
def string? : Reader (List Char)
  | '"' :: '"' :: '"' :: cs => longBasicBody (cs.length + 1) (dropFirstBreak cs)
  | '\'' :: '\'' :: '\'' :: cs => longLiteralBody (dropFirstBreak cs)
  | cs => shortString? cs

/-- One part of a key, in quotes or without. -/
def simpleKey? (cs : List Char) : Option (String × List Char) :=
  match cs with
  | '"' :: _ => (shortString? cs).map fun (text, rest) => (String.ofList text, rest)
  | '\'' :: _ => (shortString? cs).map fun (text, rest) => (String.ofList text, rest)
  | _ =>
    let name := cs.takeWhile isBare
    if name.isEmpty then none else some (String.ofList name, cs.dropWhile isBare)

/-- The parts of a key with dots between; `fuel` bounds their number. -/
def keyPath? (fuel : Nat) (cs : List Char) : Option (List String × List Char) :=
  match fuel with
  | 0 => none
  | fuel + 1 => do
    let (first, rest) ← simpleKey? (skipSpace cs)
    match skipSpace rest with
    | '.' :: rest =>
      let (others, rest) ← keyPath? fuel rest
      some (first :: others, rest)
    | rest => some ([first], rest)

/-- The greatest number of parts of a key, and of values inside one another. -/
def depthLimit : Nat := 79

/-- A key. -/
def key? (cs : List Char) : Option (List String × List Char) :=
  keyPath? depthLimit cs

/-- Digits with single underscores between them; the underscores are left out. -/
def digitsBehind (test : Char → Bool) : List Char → List Char × List Char
  | [] => ([], [])
  | ['_'] => ([], ['_'])
  | '_' :: c :: cs =>
    if test c then
      let (more, rest) := digitsBehind test cs
      (c :: more, rest)
    else ([], '_' :: c :: cs)
  | c :: cs =>
    if test c then
      let (more, rest) := digitsBehind test cs
      (c :: more, rest)
    else ([], c :: cs)

/-- One digit at least. -/
def digits? (test : Char → Bool) : Reader (List Char)
  | [] => none
  | c :: cs =>
    if test c then
      let (more, rest) := digitsBehind test cs
      some (c :: more, rest)
    else none

/-- The number that digits of a base make up. -/
def ofDigits (base : Nat) (digits : List Char) : Nat :=
  digits.foldl (fun n c => base * n + (hexDigit? c).getD 0) 0

/-- Exactly `n` decimal digits. -/
def fixedDigits? (n : Nat) (cs : List Char) : Option (Nat × List Char) :=
  let digits := cs.take n
  if digits.length = n && digits.all Char.isDigit then some (ofDigits 10 digits, cs.drop n) else none

/-- An integer of 64 bits. -/
def integer? (n : Int) : Option Value :=
  if -9223372036854775808 ≤ n && n ≤ 9223372036854775807 then some (.integer n) else none

/-- The digits of an integer part: a zero stands alone. -/
def wholeDigits? : Reader (List Char)
  | '0' :: cs => some (['0'], cs)
  | cs => digits? Char.isDigit cs

/-- A sign in front of a number; true for minus. -/
def sign : List Char → Bool × List Char
  | '+' :: cs => (false, cs)
  | '-' :: cs => (true, cs)
  | cs => (false, cs)

/-- The digits behind a point, if there is one. -/
def fraction? : Reader (Option (List Char))
  | '.' :: cs => (digits? Char.isDigit cs).map fun (digits, rest) => (some digits, rest)
  | cs => some (none, cs)

/-- The exponent of ten, if there is one. -/
def exponent? (cs : List Char) : Option (Option Int × List Char) :=
  match cs with
  | [] => some (none, [])
  | c :: rest =>
    if c = 'e' ∨ c = 'E' then do
      let (negative, rest) := sign rest
      let (digits, rest) ← digits? Char.isDigit rest
      let n : Int := ofDigits 10 digits
      some (some (if negative then -n else n), rest)
    else some (none, cs)

/-- A number whose sign is read: infinities, and digits with a point, an exponent, or none of both. -/
def signedNumber? (negative : Bool) (cs : List Char) : Option (Value × List Char) :=
  let signed (x : Float) : Float := if negative then -x else x
  match cs with
  | 'i' :: 'n' :: 'f' :: rest => some (.float (signed (1.0 / 0.0)), rest)
  | 'n' :: 'a' :: 'n' :: rest => some (.float (signed (0.0 / 0.0)), rest)
  | _ => do
    let (whole, rest) ← wholeDigits? cs
    let (fraction, rest) ← fraction? rest
    let (exponent, rest) ← exponent? rest
    if fraction.isNone && exponent.isNone then
      let n : Int := ofDigits 10 whole
      let value ← integer? (if negative then -n else n)
      some (value, rest)
    else
      let behind := fraction.getD []
      let x := Decimal.readFloat (ofDigits 10 (whole ++ behind)) (exponent.getD 0 - behind.length)
      if x.isInf && !negative then none else some (.float (signed x), rest)

/-- An integer of another base, behind its mark. -/
def based? (base : Nat) (test : Char → Bool) (cs : List Char) : Option (Value × List Char) := do
  let (digits, rest) ← digits? test cs
  let value ← integer? (ofDigits base digits)
  some (value, rest)

/-- A number. -/
def number? (cs : List Char) : Option (Value × List Char) :=
  match cs with
  | '0' :: 'x' :: cs => based? 16 (fun c => (hexDigit? c).isSome) cs
  | '0' :: 'o' :: cs => based? 8 (fun c => '0' ≤ c ∧ c ≤ '7') cs
  | '0' :: 'b' :: cs => based? 2 (fun c => c = '0' ∨ c = '1') cs
  | cs =>
    let (negative, cs) := sign cs
    signedNumber? negative cs

/-- The number of days of a month. -/
def daysOf (year month : Nat) : Nat :=
  if month = 2 then if year % 4 = 0 && (year % 100 ≠ 0 || year % 400 = 0) then 29 else 28
  else if month = 4 || month = 6 || month = 9 || month = 11 then 30
  else 31

/-- A date. -/
def date? (cs : List Char) : Option (Date × List Char) := do
  let (year, cs) ← fixedDigits? 4 cs
  let '-' :: cs := cs | none
  let (month, cs) ← fixedDigits? 2 cs
  let '-' :: cs := cs | none
  let (day, cs) ← fixedDigits? 2 cs
  if 1 ≤ month && month ≤ 12 && 1 ≤ day && day ≤ daysOf year month then some (⟨year, month, day⟩, cs) else none

/-- A part of a time that is at most a limit. -/
def clock? (limit : Nat) (cs : List Char) : Option (Nat × List Char) :=
  (fixedDigits? 2 cs).filter (·.1 ≤ limit)

/-- The fraction of a second in billionths; digits beyond the ninth are cut off. -/
def nanoseconds : List Char → Nat × List Char
  | '.' :: cs =>
    let digits := cs.takeWhile Char.isDigit
    if digits.isEmpty then (0, '.' :: cs)
    else
      let kept := digits.take 9
      (ofDigits 10 kept * Nat.pow 10 (9 - kept.length), cs.dropWhile Char.isDigit)
  | cs => (0, cs)

/-- A time of day. -/
def time? (cs : List Char) : Option (Time × List Char) := do
  let (hour, cs) ← clock? 23 cs
  let ':' :: cs := cs | none
  let (minute, cs) ← clock? 59 cs
  let ':' :: cs := cs | none
  let (second, cs) ← clock? 60 cs
  let (nanosecond, cs) := nanoseconds cs
  some (⟨hour, minute, second, nanosecond⟩, cs)

/-- A distance from universal time, if there is one. -/
def offset? (cs : List Char) : Option (Option Offset × List Char) :=
  let distance (negative : Bool) (cs : List Char) : Option (Option Offset × List Char) := do
    let (hour, cs) ← clock? 23 cs
    let ':' :: cs := cs | none
    let (minute, cs) ← clock? 59 cs
    let count : Int := 60 * hour + minute
    some (some (.minutes (if negative then -count else count)), cs)
  match cs with
  | 'Z' :: cs => some (some .utc, cs)
  | 'z' :: cs => some (some .utc, cs)
  | '+' :: cs => distance false cs
  | '-' :: cs => distance true cs
  | cs => some (none, cs)

/-- Whether a time begins here. -/
def beginsTime (cs : List Char) : Bool :=
  match clock? 23 cs with
  | some (_, ':' :: _) => true
  | _ => false

/-- Whether a date begins here. -/
def beginsDate (cs : List Char) : Bool :=
  match fixedDigits? 4 cs with
  | some (_, '-' :: _) => true
  | _ => false

/-- A date, with a time behind it where one follows. -/
def dated? (cs : List Char) : Option (Value × List Char) := do
  let (date, rest) ← date? cs
  match rest with
  | c :: behind =>
    if (c = 'T' ∨ c = 't' ∨ c = ' ') ∧ beginsTime behind then
      let (time, behind) ← time? behind
      let (offset, behind) ← offset? behind
      some (.datetime ⟨some date, some time, offset⟩, behind)
    else some (.datetime ⟨some date, none, none⟩, rest)
  | [] => some (.datetime ⟨some date, none, none⟩, [])

/-- A date, a time or a number. -/
def numeric? (cs : List Char) : Option (Value × List Char) :=
  if beginsDate cs then dated? cs
  else if beginsTime cs then (time? cs).map fun (time, rest) => (.datetime ⟨none, some time, none⟩, rest)
  else number? cs

end Recast.Toml
