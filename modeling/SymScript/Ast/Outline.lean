import SymScript.Ast

/-!
# Outlines of programs

An outline says of every node what can be shown of it. The raw text and the drawing of a program are
made from it.
-/

namespace SymScript

/-- What is shown of a node. -/
structure Caption where
  kind : String
  name : String
  payload : String
  negated : Option Bool := none
  variableName : Option String := none
  functionName : Option String := none
  parameters : Option String := none
  attributes : Attributes := []

inductive Outline where
  | node (caption : Caption) (children : List Outline)
  /-- A term, with the name that its place gives it. -/
  | term (t : Term) (name : Option String)

namespace Ast

def textual (key value : String) : Scalar × Scalar := (.text key, .text value)

def joinNames (names : List String) : String := String.intercalate ", " names

def signedLeaf (kind name text : String) (negated : Bool) : Outline :=
  .node { kind, name, payload := text, negated := some negated,
          attributes := [textual "Value" text, (.text "Negated Sign", .bool negated)] } []

def truthWord (b : Bool) : String := if b then "TRUE" else "FALSE"

/-- The attributes of a node that binds a variable. -/
def binding (name : String) : Attributes := [textual "VarName" name, textual "VarType" "ID_EXPR"]

mutual

/-- The outline of a node; a condition and the blocks of a choice are named for their place. -/
def outlineAs (place : Option String) : Ast → Outline
  | nat s d => signedLeaf "NAT" (place.getD "NAT_EXPR") d s
  | id s n => signedLeaf "ID" (place.getD "ID_EXPR") n s
  | sym s l => signedLeaf "SYM" (place.getD "SYM_EXPR") l s
  | binary s op a b =>
    .node { kind := "BinOp", name := place.getD "BIN_OP_EXPR", payload := op.name,
            negated := some s,
            attributes := [textual "Operator" op.sign, (.text "Negated Sign", .bool s)] }
      [outlineAs none a, outlineAs none b]
  | call f args =>
    .node { kind := "FuncCall", name := place.getD "FUN_CALL", payload := "FUN_CALL",
            functionName := some f, attributes := [textual "Function Name" f] } (outlines args)
  | compare s op a b =>
    .node { kind := "BinCond", name := place.getD "BIN_COND", payload := op.name, negated := some s,
            attributes := [textual "Operator" op.name, (.text "Negated", .bool s)] }
      [outlineAs none a, outlineAs none b]
  | truth s v =>
    .node { kind := "TrueFalse", name := place.getD "T/F_COND", payload := truthWord v,
            negated := some s,
            attributes := [textual "Value" (truthWord v), (.text "Negated", .bool s)] } []
  | block is =>
    .node { kind := "InstrBlock", name := place.getD "INSTR_BLOCK", payload := "BLK" } (outlines is)
  | assign n v =>
    .node { kind := "Assignment", name := place.getD "ASSIGNMENT_INSTR", payload := "A",
            variableName := some n, attributes := binding n } [outlineAs none v]
  | foreachLoop n source body =>
    .node { kind := "Foreach", name := place.getD "FOREACH_INSTR",
            payload := place.getD "FOREACH_INSTR", variableName := some n,
            attributes := binding n } [outlineAs none source, outlineAs none body]
  | ifThen test body =>
    .node { kind := "IfElse", name := place.getD "IFELSE_INSTR", payload := "IFEL" }
      [outlineAs (some "CONDITION") test, outlineAs (some "TRUE_BLOCK") body]
  | ifElse test body other =>
    .node { kind := "IfElse", name := place.getD "IFELSE_INSTR", payload := "IFEL" }
      [outlineAs (some "CONDITION") test, outlineAs (some "TRUE_BLOCK") body,
        outlineAs (some "FALSE_BLOCK") other]
  | repeatLoop count body =>
    .node { kind := "Repeat", name := place.getD "REPEAT_INSTR", payload := "RPT" }
      [outlineAs none count, outlineAs none body]
  | giveBack v =>
    .node { kind := "Return", name := place.getD "RETURN_INSTR", payload := "RET" }
      [outlineAs none v]
  | whileLoop test body =>
    .node { kind := "While", name := place.getD "WHILE_INSTR", payload := "WHL" }
      [outlineAs none test, outlineAs none body]
  | function n ps body =>
    .node { kind := "Function", name := place.getD "FUNCTION", payload := "F",
            functionName := some n, parameters := some (joinNames ps),
            attributes := [textual "Name" n, textual "Params" (joinNames ps)] }
      [outlineAs none body]
  | program fs =>
    .node { kind := "Program", name := place.getD "PROGRAM", payload := "P" } (outlines fs)
  | term t => .term t place
  | stranger kind =>
    .node { kind, name := place.getD kind, payload := place.getD kind } []

def outlines : List Ast → List Outline
  | [] => []
  | t :: ts => outlineAs none t :: outlines ts

end

def outline (t : Ast) : Outline := outlineAs none t

end Ast

namespace Outline

instance : Inhabited Outline := ⟨.term default none⟩

mutual

def raw : Outline → Except AlgebraError String
  | node c cs => do return RawText.node c.payload (← rawAll cs)
  | term t _ => t.raw

def rawAll : List Outline → Except AlgebraError (List String)
  | [] => .ok []
  | o :: os => do
    let first ← raw o
    return first :: (← rawAll os)

end

/-- The drawing with another name on its root. -/
def renameRoot (name : String) (d : Drawing) : Drawing :=
  match d.strokes with
  | .node id _ _ :: rest => { d with strokes := .node id name (Drawing.label name []) :: rest }
  | _ => d

mutual

/-- The drawing of an outline; given attributes come before those of the root itself. -/
def draw (given : Attributes) : Outline → Except AlgebraError Drawing
  | node c cs => do return Drawing.above c.name (given ++ c.attributes) (← drawAll cs)
  | term t name => do
    let d ← t.draw given
    return match name with
      | some n => renameRoot n d
      | none => d

def drawAll : List Outline → Except AlgebraError (List Drawing)
  | [] => .ok []
  | o :: os => do
    let first ← draw [] o
    return first :: (← drawAll os)

end

/-- The view of a term with the name that its place gives it. -/
def viewTerm (t : Term) (name : Option String) : Except AlgebraError TermView := do
  return match ← t.view, name with
    | .rational s n d _, some place => .rational s n d place
    | v, _ => v

end Outline

end SymScript
