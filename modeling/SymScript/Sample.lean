import SymScript.Decimal
import SymScript.Sha256

/-!
# Sample values and their fingerprints

A fingerprint tells values apart by content. Lists and tuples of the same members have the same one,
and numbers with a fraction are compared by six digits.
-/

namespace SymScript

inductive Sample where
  | nothing
  | truth (b : Bool)
  | int (n : Int)
  | float (x : Float)
  | text (s : String)
  | bytes (kind : String) (bs : List UInt8)
  | items (kind : String) (members : List Sample)
  /-- Members of which the order does not matter. -/
  | unordered (kind : String) (members : List Sample)
  | mapping (members : List (Sample × Sample))
  /-- A value of another kind, known by its text. -/
  | shown (kind text : String)

namespace Sample

instance : Inhabited Sample := ⟨.nothing⟩

/-- The name of the type of a value. -/
def kind : Sample → String
  | nothing => "NoneType"
  | truth _ => "bool"
  | int _ => "int"
  | float _ => "float"
  | text _ => "str"
  | bytes k _ | items k _ | unordered k _ | shown k _ => k
  | mapping _ => "dict"

def utf8 (s : String) : List UInt8 := s.toUTF8.toList

/-- A double by six digits; there is one zero. -/
def floatText (x : Float) : String :=
  if x.isNaN || x.isInf then Decimal.ofFloat x
  else Decimal.ofFloat (Decimal.significant x 6)

def sized (mark : String) (n : Nat) : List UInt8 := utf8 (mark ++ toString n)

/-- Bytes in the order of dictionaries. -/
def precedes : List UInt8 → List UInt8 → Bool
  | [], _ => true
  | _, [] => false
  | a :: as, b :: bs => if a == b then precedes as bs else decide (a.toNat ≤ b.toNat)

def sortTexts (parts : List (List UInt8)) : List (List UInt8) := parts.mergeSort precedes

mutual

/-- The content of a value as bytes. -/
def content : Sample → List UInt8
  | nothing => utf8 "None"
  | truth true => utf8 "True"
  | truth false => utf8 "False"
  | int n => utf8 (toString n)
  | float x => utf8 (floatText x)
  | text s => utf8 ("s" ++ s)
  | bytes _ bs => utf8 "s" ++ bs
  | items _ ms => sized "L" ms.length ++ (contents ms).flatten
  | unordered _ ms => sized "S" ms.length ++ (sortTexts (contents ms)).flatten
  | mapping ms => sized "D" ms.length ++ (sortTexts (pairContents ms)).flatten
  | shown _ t => utf8 t

def contents : List Sample → List (List UInt8)
  | [] => []
  | m :: ms => content m :: contents ms

def pairContents : List (Sample × Sample) → List (List UInt8)
  | [] => []
  | (k, v) :: ms => (content k ++ content v) :: pairContents ms

end

def fingerprint (s : Sample) : String := Sha256.hash s.content

end Sample

end SymScript
