import SymScript.Decimal
import SymScript.Json
import SymScript.Text.Quoted

/-!
# Text of JSON values

A comma and a colon are each followed by a blank. Whatever is not a visible ASCII character is
escaped, beyond the basic plane as two surrogates.
-/

namespace SymScript.Json

def escapeChar (c : Char) : String :=
  if c = '"' then "\\\""
  else if c = '\\' then "\\\\"
  else if c = '\n' then "\\n"
  else if c = '\r' then "\\r"
  else if c = '\t' then "\\t"
  else if c.toNat = 8 then "\\b"
  else if c.toNat = 12 then "\\f"
  else if 0x20 ≤ c.toNat && c.toNat < 0x7f then c.toString
  else if c.toNat < 0x10000 then "\\u" ++ Text.hex 4 c.toNat
  else
    let n := c.toNat - 0x10000
    "\\u" ++ Text.hex 4 (0xd800 + n / 0x400) ++ "\\u" ++ Text.hex 4 (0xdc00 + n % 0x400)

def quoted (s : String) : String := "\"" ++ String.join (s.toList.map escapeChar) ++ "\""

def floatText (x : Float) : String :=
  if x.isNaN then "NaN"
  else if x.isInf then (if Decimal.isNegative x then "-Infinity" else "Infinity")
  else Decimal.ofFloat x

mutual

def write : Json → String
  | null => "null"
  | bool true => "true"
  | bool false => "false"
  | int n => toString n
  | float x => floatText x
  | str s => quoted s
  | arr items => "[" ++ String.intercalate ", " (writeAll items) ++ "]"
  | obj members => "\x7b" ++ String.intercalate ", " (writeMembers members) ++ "\x7d"

def writeAll : List Json → List String
  | [] => []
  | j :: js => write j :: writeAll js

def writeMembers : List (String × Json) → List String
  | [] => []
  | (name, j) :: rest => (quoted name ++ ": " ++ write j) :: writeMembers rest

end

end SymScript.Json
