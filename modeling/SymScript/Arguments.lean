import SymScript.Text.Numeral
import SymScript.Text.Quoted

/-!
# Reading the words of a command line

Words that start with a dash are options, unless they look like negative numbers or hold a blank; a
double dash makes all words after it plain. An option may be shortened as long as it is clear, and
may carry its value after an equality sign. Plain words go to the positional arguments, as many as
the next run of plain words allows.
-/

namespace SymScript

/-- How many words an argument takes. -/
inductive Arity where
  /-- None; the option asks for help. -/
  | help
  | one
  | many
  /-- One plain word and everything after it. -/
  | rest
deriving DecidableEq, Repr

/-- A value that an option may take: a word, or a truth value, which no word equals. -/
inductive Choice where
  | word (s : String)
  | truth (b : Bool)
deriving DecidableEq, Repr

namespace Choice

def shown : Choice → String
  | word s => Text.quote s
  | truth true => "True"
  | truth false => "False"

def admits (c : Choice) (s : String) : Bool :=
  match c with
  | word w => w == s
  | truth _ => false

end Choice

structure OptionSpec where
  names : List String
  key : String
  arity : Arity := .one
  choices : Option (List Choice) := none
deriving DecidableEq, Repr

structure PositionalSpec where
  key : String
  arity : Arity
  isRequired : Bool
  choices : Option (List Choice) := none
deriving DecidableEq, Repr

structure ArgumentSpec where
  options : List OptionSpec
  positionals : List PositionalSpec
deriving DecidableEq, Repr

inductive UsageError where
  | help
  | ambiguous (word : String) (names : List String)
  | expectedOne (names : String)
  | badChoice (label value : String) (choices : List Choice)
  | ignored (names value : String)
  | required (keys : List String)
  | unrecognized (words : List String)
deriving DecidableEq, Repr

namespace UsageError

def message : UsageError → String
  | help => ""
  | ambiguous word names =>
    "ambiguous option: " ++ word ++ " could match " ++ String.intercalate ", " names
  | expectedOne names => "argument " ++ names ++ ": expected one argument"
  | badChoice label value choices =>
    "argument " ++ label ++ ": invalid choice: " ++ Text.quote value ++ " (choose from " ++
      String.intercalate ", " (choices.map Choice.shown) ++ ")"
  | ignored names value =>
    "argument " ++ names ++ ": ignored explicit argument " ++ Text.quote value
  | required keys =>
    "the following arguments are required: " ++ String.intercalate ", " keys
  | unrecognized words => "unrecognized arguments: " ++ String.intercalate " " words

def exitCode : UsageError → Nat
  | help => 0
  | _ => 2

end UsageError

inductive ArgumentValue where
  | text (s : String)
  | list (ss : List String)
deriving DecidableEq, Repr

/-- What a word is. -/
inductive Mark where
  | plain
  | dashes
  /-- An option, under one of its names, with the value that it carries. -/
  | known (o : OptionSpec) (name : String) (value : Option String)
  | unknown
deriving DecidableEq, Repr

def Mark.isOption : Mark → Bool
  | known .. | unknown => true
  | _ => false

namespace ArgumentSpec

def helpOption : OptionSpec := { names := ["-h", "--help"], key := "help", arity := .help }

/-- All names of options in order. -/
def named (spec : ArgumentSpec) : List (String × OptionSpec) :=
  (helpOption :: spec.options).flatMap fun o => o.names.map fun n => (n, o)

/-- The part before the first equality sign and the part after it. -/
def splitValue (word : String) : Option (String × String) :=
  let cs := word.toList
  if cs.contains '=' then
    some (String.ofList (cs.takeWhile (· != '=')), String.ofList ((cs.dropWhile (· != '=')).drop 1))
  else none

def startsWith (text start : String) : Bool := start.toList.isPrefixOf text.toList

/-- The options that a word can be short for. -/
def candidates (spec : ArgumentSpec) (word : String) : List (OptionSpec × String × Option String) :=
  if startsWith word "--" then
    let (start, value) := match splitValue word with
      | some (s, v) => (s, some v)
      | none => (word, none)
    spec.named.filterMap fun (n, o) => if startsWith n start then some (o, n, value) else none
  else
    let short := String.ofList (word.toList.take 2)
    spec.named.filterMap fun (n, o) =>
      if n == short then some (o, n, some (String.ofList (word.toList.drop 2)))
      else if startsWith n word then some (o, n, none)
      else none

def isDigit (c : Char) : Bool := (Text.digit? c).isSome

/-- A minus and digits, with or without a point that digits follow. -/
def isNegativeNumber (word : String) : Bool :=
  match word.toList with
  | '-' :: cs =>
    let rest := cs.dropWhile isDigit
    match rest with
    | [] => !cs.isEmpty
    | '.' :: ds => !ds.isEmpty && ds.all isDigit
    | _ => false
  | _ => false

def mark (spec : ArgumentSpec) (word : String) : Except UsageError Mark :=
  let unknownWord : Mark :=
    if isNegativeNumber word || word.toList.contains ' ' then .plain else .unknown
  let search : Except UsageError Mark :=
    match spec.candidates word with
    | [] => .ok unknownWord
    | [(o, n, v)] => .ok (.known o n v)
    | many => .error (.ambiguous word (many.map fun c => c.2.1))
  if !startsWith word "-" then .ok .plain
  else match spec.named.lookup word with
    | some o => .ok (.known o word none)
    | none =>
      if word.length = 1 then .ok .plain
      else match splitValue word with
        | some (n, v) =>
          match spec.named.lookup n with
          | some o => .ok (.known o n (some v))
          | none => search
        | none => search

/-- The marks of all words; after a double dash every word is plain. -/
def marks (spec : ArgumentSpec) : List String → Except UsageError (List (String × Mark))
  | [] => .ok []
  | "--" :: ws => .ok (("--", .dashes) :: ws.map fun w => (w, .plain))
  | w :: ws => do
    let m ← spec.mark w
    let ms ← spec.marks ws
    return (w, m) :: ms

/-! ### Taking words -/

/-- What has been taken so far. -/
structure Taken where
  values : List (String × ArgumentValue) := []
  positionals : List PositionalSpec
  extras : List String := []

def put (values : List (String × ArgumentValue)) (key : String) (v : ArgumentValue) :
    List (String × ArgumentValue) := values.filter (fun e => e.1 != key) ++ [(key, v)]

def isPlain (w : String × Mark) : Bool := w.2 == .plain

def isDashes (w : String × Mark) : Bool := w.2 == .dashes

/-- The number of words that a positional argument takes at the front, if it can. -/
def takes (p : PositionalSpec) (ws : List (String × Mark)) : Option Nat :=
  let dashes := (ws.takeWhile isDashes).length
  let after := ws.drop dashes
  match p.arity, after with
  | .one, w :: rest =>
    if isPlain w then some (dashes + 1 + (rest.takeWhile isDashes).length) else none
  | .rest, w :: _ => if isPlain w then some ws.length else none
  | .many, _ => some (ws.takeWhile fun w => isPlain w || isDashes w).length
  | _, _ => none

/-- The numbers of words that positional arguments take one after the other, if all can. -/
def takesAll : List PositionalSpec → List (String × Mark) → Option (List Nat)
  | [], _ => some []
  | p :: ps, ws => do
    let n ← takes p ws
    let ns ← takesAll ps (ws.drop n)
    return n :: ns

/-- The most positional arguments that can be served, with their numbers of words. -/
def serve (ps : List PositionalSpec) (ws : List (String × Mark)) : List Nat :=
  ((List.range (ps.length + 1)).reverse.findSome? fun i => takesAll (ps.take i) ws).getD []

def checkChoice (label : String) (choices : Option (List Choice)) (value : String) :
    Except UsageError Unit :=
  match choices with
  | none => .ok ()
  | some cs => if cs.any (·.admits value) then .ok () else .error (.badChoice label value cs)

def positionalValue (p : PositionalSpec) (words : List String) : Except UsageError ArgumentValue :=
  match p.arity with
  | .rest => do
    checkChoice p.key p.choices (words.headD "")
    return .list words
  | .many => .ok (.list (words.erase "--"))
  | _ => .ok (.text ((words.erase "--").headD ""))

/-- Serves positional arguments; gives the number of words taken. -/
def takePositionals (t : Taken) (ws : List (String × Mark)) : Except UsageError (Taken × Nat) :=
  let step := fun (acc : Taken × List (String × Mark) × Nat) (pn : PositionalSpec × Nat) => do
    let (t, ws, total) := acc
    let (p, n) := pn
    let v ← positionalValue p ((ws.take n).map Prod.fst)
    return ({ t with values := put t.values p.key v, positionals := t.positionals.drop 1 },
      ws.drop n, total + n)
  do
    let (t, _, n) ← (t.positionals.zip (serve t.positionals ws)).foldlM step (t, ws, 0)
    return (t, n)

def label (o : OptionSpec) : String := String.intercalate "/" o.names

/-- Takes an option that has a value with it or takes the words after it; gives their number. -/
def takeValued (t : Taken) (o : OptionSpec) (value : Option String) (ws : List (String × Mark)) :
    Except UsageError (Taken × Nat) :=
  match o.arity, value with
  | .one, some v => do
    checkChoice (label o) o.choices v
    return ({ t with values := put t.values o.key (.text v) }, 0)
  | .one, none =>
    match ws with
    | (w, .plain) :: _ => do
      checkChoice (label o) o.choices w
      return ({ t with values := put t.values o.key (.text w) }, 1)
    | _ => .error (.expectedOne (label o))
  | _, some v => .ok ({ t with values := put t.values o.key (.list [v]) }, 0)
  | _, none =>
    let words := (ws.takeWhile isPlain).map Prod.fst
    .ok ({ t with values := put t.values o.key (.list words) }, words.length)

/-- Whether a further option that takes one word finds it. -/
def lacksWord (o : OptionSpec) (ws : List (String × Mark)) : Bool :=
  o.arity == .one && !(ws.head?.any isPlain)

/-- A call for help, with letters behind it that name further options. Help comes first, unless a
letter names no option or an option lacks its word. -/
def takeHelp (spec : ArgumentSpec) (ws : List (String × Mark)) : List Char → UsageError
  | [] => .help
  | c :: cs =>
    match spec.named.lookup ("-" ++ c.toString) with
    | none => .ignored (label helpOption) (String.ofList (c :: cs))
    | some o =>
      if o.arity = .help then takeHelp spec ws cs
      else if cs.isEmpty && lacksWord o ws then .expectedOne (label o)
      else .help

/-- Takes an option with its words; gives the number of words after it. -/
def takeOption (spec : ArgumentSpec) (t : Taken) (o : OptionSpec) (name : String)
    (value : Option String) (ws : List (String × Mark)) : Except UsageError (Taken × Nat) :=
  match o.arity, value with
  | .help, none => .error .help
  | .help, some v =>
    if startsWith name "--" || v == "" then .error (.ignored (label o) v)
    else .error (takeHelp spec ws v.toList)
  | _, value => takeValued t o value ws

/-- Takes all words, positional arguments before each option. -/
def takeAll (spec : ArgumentSpec) : Nat → Taken → List (String × Mark) → Except UsageError Taken
  | 0, t, _ => .ok t
  | fuel + 1, t, ws =>
    if ws.all fun w => !w.2.isOption then do
      let (t, n) ← takePositionals t ws
      return { t with extras := t.extras ++ (ws.drop n).map Prod.fst }
    else match ws with
      | (_, .known o name value) :: rest => do
        let (t, n) ← takeOption spec t o name value rest
        takeAll spec fuel t (rest.drop n)
      | (w, .unknown) :: rest => takeAll spec fuel { t with extras := t.extras ++ [w] } rest
      | _ => do
        let (t, n) ← takePositionals t ws
        if n = 0 then
          let skipped := ws.takeWhile fun w => !w.2.isOption
          takeAll spec fuel { t with extras := t.extras ++ skipped.map Prod.fst }
            (ws.drop skipped.length)
        else takeAll spec fuel t (ws.drop n)

/-- Reads the words; what nothing takes is left over. -/
def parse (spec : ArgumentSpec) (words : List String) : Except UsageError Taken := do
  let ws ← spec.marks words
  let t ← takeAll spec (words.length + 1) { positionals := spec.positionals } ws
  match t.positionals.filter (·.isRequired) with
  | [] => return t
  | missing => .error (.required (missing.map PositionalSpec.key))

end ArgumentSpec

end SymScript
