import SymScript.Scalar
import SymScript.TermGraph.Edit
import SymScript.Text.Letter

/-!
# Descriptions of terms

A description says how to make a term; making it can fail. Parts are made before the whole, from
left to right, and a compound node takes copies of its parts.
-/

namespace SymScript

/-- A value that an operation takes or gives. -/
inductive Datum where
  | term (r : Ref)
  | plain (s : Scalar)
  | pair (first second : Datum)

namespace Datum

def term? : Datum → Option Ref
  | term r => some r
  | _ => none

def kind : Datum → String
  | term _ => "term"
  | plain s => s.kind
  | pair .. => "tuple"

def isNothing : Datum → Bool
  | plain .nothing => true
  | _ => false

end Datum

inductive TermSpec where
  | rational (num den : Int) (negated : Bool)
  | symbol (letter : Option String) (negated : Bool)
  | sum (addends : List TermSpec) (negated : Bool)
  | product (factors : List TermSpec) (negated : Bool)
  | power (base exponent : TermSpec) (negated : Bool)
  /-- A sum or a product that is given no list at all. -/
  | listless (shape : Shape)
  | register (name : String)
  | plain (value : Scalar)

namespace TermSpec

instance : Inhabited TermSpec := ⟨.plain .nothing⟩

mutual

/-- The registers that a description mentions. -/
def registers : TermSpec → List String
  | sum es _ | product es _ => registersAll es
  | power b e _ => registers b ++ registers e
  | register name => [name]
  | _ => []

def registersAll : List TermSpec → List String
  | [] => []
  | s :: ss => registers s ++ registersAll ss

end

end TermSpec

namespace TermGraph.Edit

/-- A number whose denominator is written unless it was given as one. -/
def addRational (num den : Int) (negated : Bool) : Edit Ref :=
  match Fraction.ofInts? num den negated with
  | none => throw .zeroDenominator
  | some q =>
    let digits := if den = 1 then toString q.num else toString q.num ++ "/" ++ toString q.den
    modifyGet fun g => g.push {
      head := .rational q.num q.den
      negated := q.negated
      name := (if q.negated then "-" else "") ++ digits }

def addSymbol (letter : Option String) (negated : Bool) : Edit Ref :=
  match letter.map String.toList with
  | none => throw .missingLetter
  | some [c] => if Text.isLetter c then add (.symbol negated c) else throw .notLetter
  | some _ => throw .manyLetters

/-- The expression of a part, which has to be a term. -/
def partOf (d : Datum) : Edit Expr :=
  match d with
  | .term r => expr r
  | _ => throw .noOperation

def addSum (parts : List Datum) (negated : Bool) : Edit Ref := do
  if parts.length < 2 then throw .fewAddends
  add (Expr.mkSum negated (← parts.mapM partOf))

def addProduct (parts : List Datum) (negated : Bool) : Edit Ref := do
  if parts.length < 2 then throw .fewFactors
  add (Expr.mkProduct negated (← parts.mapM partOf))

def addPower (base exponent : Datum) (negated : Bool) : Edit Ref := do
  if base.isNothing then throw .missingBase
  if exponent.isNothing then throw .missingExponent
  add (Expr.mkPower negated (← partOf base) (← partOf exponent))

mutual

/-- Makes what is described; a name stands for what its register holds. -/
def build (registers : List (String × Datum)) : TermSpec → Edit Datum
  | .rational num den negated => .term <$> addRational num den negated
  | .symbol letter negated => .term <$> addSymbol letter negated
  | .sum es negated => do return .term (← addSum (← buildAll registers es) negated)
  | .product es negated => do return .term (← addProduct (← buildAll registers es) negated)
  | .power b e negated => do
    let base ← build registers b
    let exponent ← build registers e
    return .term (← addPower base exponent negated)
  | .listless .sum => throw .missingAddends
  | .listless _ => throw .missingFactors
  | .register name => return (registers.lookup name).getD (.plain .nothing)
  | .plain value => return .plain value

def buildAll (registers : List (String × Datum)) : List TermSpec → Edit (List Datum)
  | [] => return []
  | s :: ss => do
    let d ← build registers s
    let ds ← buildAll registers ss
    return d :: ds

end

end TermGraph.Edit

end SymScript
