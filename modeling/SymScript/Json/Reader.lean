import SymScript.Decimal
import SymScript.Json

/-!
# Reading JSON

The reader works on the characters that are left. A fault is told with the place where reading
stopped: its line, its column and its offset.
-/

namespace SymScript.Json

/-- Why a text is not JSON. -/
inductive Fault where
  | value
  | name
  | colon
  | comma
  | openString
  | control
  | escape
  | unicode
  | extra
deriving DecidableEq, Repr

def Fault.text : Fault → String
  | value => "Expecting value"
  | name => "Expecting property name enclosed in double quotes"
  | colon => "Expecting ':' delimiter"
  | comma => "Expecting ',' delimiter"
  | openString => "Unterminated string starting at"
  | control => "Invalid control character at"
  | escape => "Invalid \\escape: "
  | unicode => "Invalid \\uXXXX escape"
  | extra => "Extra data"

/-- A fault and the number of characters that were left. -/
structure ReadError where
  fault : Fault
  left : Nat
deriving DecidableEq, Repr

namespace ReadError

def message (text : String) (e : ReadError) : String :=
  let before := text.toList.take (text.length - e.left)
  let column := (before.reverse.takeWhile (· != '\n')).length + 1
  e.fault.text ++ ": line " ++ toString (before.count '\n' + 1) ++ " column " ++ toString column ++
    " (char " ++ toString before.length ++ ")"

end ReadError

abbrev ReadM := Except ReadError

def fail {α : Type} (fault : Fault) (rest : List Char) : ReadM α := .error ⟨fault, rest.length⟩

def isBlank (c : Char) : Bool := c = ' ' || c = '\t' || c = '\n' || c = '\r'

def skipBlanks (cs : List Char) : List Char := cs.dropWhile isBlank

def hexDigit? (c : Char) : Option Nat :=
  if c.isDigit then some (c.toNat - 48)
  else if 'a' ≤ c && c ≤ 'f' then some (c.toNat - 87)
  else if 'A' ≤ c && c ≤ 'F' then some (c.toNat - 55)
  else none

def hex4? : List Char → Option (Nat × List Char)
  | a :: b :: c :: d :: rest => do
    let a ← hexDigit? a
    let b ← hexDigit? b
    let c ← hexDigit? c
    let d ← hexDigit? d
    return (((a * 16 + b) * 16 + c) * 16 + d, rest)
  | _ => none

/-- The character of a code unit, joined with a second surrogate if one follows. -/
def unit (n : Nat) (rest : List Char) : Char × List Char :=
  if 0xd800 ≤ n && n < 0xdc00 then
    match rest with
    | '\\' :: 'u' :: more =>
      match hex4? more with
      | some (m, after) =>
        if 0xdc00 ≤ m && m < 0xe000 then
          (Char.ofNat (0x10000 + (n - 0xd800) * 0x400 + (m - 0xdc00)), after)
        else (Char.ofNat 0xfffd, rest)
      | none => (Char.ofNat 0xfffd, rest)
    | _ => (Char.ofNat 0xfffd, rest)
  else if 0xdc00 ≤ n && n < 0xe000 then (Char.ofNat 0xfffd, rest)
  else (Char.ofNat n, rest)

def simpleEscape? : Char → Option Char
  | '"' => some '"'
  | '\\' => some '\\'
  | '/' => some '/'
  | 'b' => some (Char.ofNat 8)
  | 'f' => some (Char.ofNat 12)
  | 'n' => some '\n'
  | 'r' => some '\r'
  | 't' => some '\t'
  | _ => none

/-- The characters up to the closing quote; `start` is what was left at the opening one. -/
def readString (start : Nat) : Nat → List Char → List Char → ReadM (String × List Char)
  | 0, _, _ => .error ⟨.openString, start⟩
  | fuel + 1, done, cs =>
    match cs with
    | [] => .error ⟨.openString, start⟩
    | '"' :: rest => .ok (String.ofList done.reverse, rest)
    | '\\' :: rest =>
      match rest with
      | [] => .error ⟨.openString, start⟩
      | 'u' :: more =>
        match hex4? more with
        | some (n, after) =>
          let (c, after) := unit n after
          readString start fuel (c :: done) after
        | none => fail .unicode more
      | c :: more =>
        match simpleEscape? c with
        | some e => readString start fuel (e :: done) more
        | none => fail .escape cs
    | c :: rest =>
      if c.toNat < 0x20 then fail .control cs else readString start fuel (c :: done) rest

def natOf (ds : List Char) : Nat := ds.foldl (fun n d => 10 * n + (d.toNat - 48)) 0

/-- An exponent part, if a complete one follows. -/
def readExponent (cs : List Char) : Option (Int × List Char) :=
  match cs with
  | e :: rest =>
    if e = 'e' || e = 'E' then
      let (negative, rest) := match rest with
        | '-' :: more => (true, more)
        | '+' :: more => (false, more)
        | _ => (false, rest)
      let ds := rest.takeWhile Char.isDigit
      if ds.isEmpty then none
      else
        let n : Int := natOf ds
        some (if negative then -n else n, rest.dropWhile Char.isDigit)
    else none
  | [] => none

/-- The digits after a point, if some follow. -/
def readFraction (cs : List Char) : Option (List Char × List Char) :=
  match cs with
  | '.' :: rest =>
    let ds := rest.takeWhile Char.isDigit
    if ds.isEmpty then none else some (ds, rest.dropWhile Char.isDigit)
  | _ => none

def signed (negative : Bool) (n : Nat) : Int := if negative then -(n : Int) else n

/-- The double of a decimal. -/
def decimal (negative : Bool) (digits : Nat) (exponent : Int) : Float :=
  let x :=
    if digits = 0 || exponent < -400 - ((Nat.toDigits 10 digits).length : Int) then 0.0
    else if 400 < exponent then 1.0 / 0.0
    else Decimal.Digits.toFloat ⟨digits, exponent⟩
  if negative then -x else x

/-- A number without its sign. -/
def readNumber (negative : Bool) (cs : List Char) : Option (Json × List Char) :=
  let whole := match cs with
    | '0' :: _ => ['0']
    | _ => cs.takeWhile Char.isDigit
  if whole.isEmpty then none
  else
    let rest := cs.drop whole.length
    let (fraction, rest') := (readFraction rest).getD ([], rest)
    let (exponent, rest'') := (readExponent rest').getD (0, rest')
    if rest''.length = rest.length then some (.int (signed negative (natOf whole)), rest)
    else some (.float (decimal negative (natOf (whole ++ fraction))
      (exponent - (fraction.length : Int))), rest'')

/-- A word that stands for a value. -/
def readWord (cs : List Char) : Option (Json × List Char) :=
  let words : List (String × Json) :=
    [("null", .null), ("true", .bool true), ("false", .bool false),
    ("NaN", .float (0.0 / 0.0)), ("Infinity", .float (1.0 / 0.0)),
    ("-Infinity", .float (-(1.0 / 0.0)))]
  match words.find? fun w => w.1.toList.isPrefixOf cs with
  | some (w, j) => some (j, cs.drop w.length)
  | none => none

/-- A value that is no text, list or object. -/
def readPlain (cs : List Char) : ReadM (Json × List Char) :=
  match readWord cs with
  | some r => .ok r
  | none =>
    let r := match cs with
      | '-' :: rest => readNumber true rest
      | _ => readNumber false cs
    match r with
    | some r => .ok r
    | none => fail .value cs

mutual

def readValue : Nat → List Char → ReadM (Json × List Char)
  | 0, cs => fail .value cs
  | fuel + 1, cs =>
    match cs with
    | '"' :: rest => do
      let (s, rest) ← readString cs.length (rest.length + 1) [] rest
      return (.str s, rest)
    | '[' :: rest =>
      match skipBlanks rest with
      | ']' :: after => .ok (.arr [], after)
      | rest => do
        let (items, rest) ← readItems fuel rest
        return (.arr items, rest)
    | '\x7b' :: rest =>
      match skipBlanks rest with
      | '\x7d' :: after => .ok (.obj [], after)
      | rest => do
        let (members, rest) ← readMembers fuel [] rest
        return (.obj members, rest)
    | _ => readPlain cs

def readItems : Nat → List Char → ReadM (List Json × List Char)
  | 0, cs => fail .value cs
  | fuel + 1, cs => do
    let (j, rest) ← readValue fuel cs
    match skipBlanks rest with
    | ']' :: after => return ([j], after)
    | ',' :: more => do
      let (js, rest) ← readItems fuel (skipBlanks more)
      return (j :: js, rest)
    | rest => fail .comma rest

/-- The members of an object after those that are `done`; a later one replaces the value of an
earlier one with the same name. -/
def readMembers : Nat → List (String × Json) → List Char →
    ReadM (List (String × Json) × List Char)
  | 0, _, cs => fail .value cs
  | fuel + 1, done, cs =>
    match cs with
    | '"' :: rest => do
      let (name, rest) ← readString cs.length (rest.length + 1) [] rest
      match skipBlanks rest with
      | ':' :: rest => do
        let (j, rest) ← readValue fuel (skipBlanks rest)
        let done := put name j done
        match skipBlanks rest with
        | '\x7d' :: after => return (done, after)
        | ',' :: more => readMembers fuel done (skipBlanks more)
        | rest => fail .comma rest
      | rest => fail .colon rest
    | _ => fail .name cs

end

/-- The value that a whole text spells. -/
def read (text : String) : ReadM Json := do
  let cs := text.toList
  let (j, rest) ← readValue (cs.length + 1) (skipBlanks cs)
  match skipBlanks rest with
  | [] => return j
  | rest => fail .extra rest

end SymScript.Json
