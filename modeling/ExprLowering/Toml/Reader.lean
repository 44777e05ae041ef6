import ExprLowering.Toml.Scalar

/-!
# Reading TOML documents

`Toml.read?` gives the table of a document, or nothing if the text is not one. Arrays and inline
tables may be nested fewer than `maxNesting` deep.
-/

namespace ExprLowering.Toml

/-- A parser takes characters from the front of the text. -/
abbrev Parser := StateT (List Char) Option

namespace Parser

/-- Takes the character if it comes next. -/
def accept (c : Char) : Parser Bool :=
  fun
    | d :: r => if d == c then some (true, r) else some (false, d :: r)
    | [] => some (false, [])

def expect (c : Char) : Parser Unit := do
  guard (← accept c)

def peek? : Parser (Option Char) :=
  fun cs => some (cs.head?, cs)

def blanks : Parser Unit :=
  fun cs => some ((), cs.dropWhile isBlank)

/-- A comment, if one starts here. -/
def comment : Parser Unit :=
  fun
    | '#' :: r =>
      let stop := fun c => c == '\n' || c == '\r'
      if (r.takeWhile (!stop ·)).all isTextChar then some ((), r.dropWhile (!stop ·)) else none
    | cs => some ((), cs)

/-- Takes a line end if it comes next. -/
def lineEnd : Parser Bool :=
  fun
    | '\n' :: r => some (true, r)
    | '\r' :: '\n' :: r => some (true, r)
    | cs => some (false, cs)

def atEnd : Parser Bool :=
  fun cs => some (cs.isEmpty, cs)

/-- Blanks and a comment up to the end of the line. -/
def restOfLine : Parser Unit := do
  blanks
  comment
  if ← lineEnd then return else guard (← atEnd)

/-- Blanks, comments and line ends. The fuel bounds the number of lines. -/
def gap : Nat → Parser Unit
  | 0 => pure ()
  | fuel + 1 => do
    blanks
    comment
    if ← lineEnd then gap fuel else return

/-- The number of characters left, as fuel for a loop that takes at least one in each round. -/
def fuel : Parser Nat :=
  fun cs => some (cs.length + 1, cs)

end Parser

open ExprLowering.Toml.Parser

/-- The nesting at which arrays, inline tables and dotted keys are refused. -/
def maxNesting : Nat :=
  80

def isBareKeyChar (c : Char) : Bool :=
  c.isAlphanum || c == '_' || c == '-'

/-- One key, bare or in single or double quotes. -/
def simpleKey : Parser String :=
  fun
    | '"' :: r => (basicString r).map (·.map String.ofList id)
    | '\'' :: r => (literalString r).map (·.map String.ofList id)
    | cs =>
      let key := cs.takeWhile isBareKeyChar
      if key.isEmpty then none else some (String.ofList key, cs.dropWhile isBareKeyChar)

/-- Keys with points between them. -/
def keysWithin : Nat → Parser (List String)
  | 0 => failure
  | fuel + 1 => do
    blanks
    let key ← simpleKey
    blanks
    if ← accept '.' then return key :: (← keysWithin fuel) else return [key]

/-- A key that may be dotted: the path to its table, and the last key. -/
def dottedKey : Parser (List String × String) := do
  let keys ← keysWithin maxNesting
  guard (keys.length < maxNesting)
  match keys.getLast? with
  | some key => return (keys.dropLast, key)
  | none => failure

/-- The values of an array, after its opening bracket. -/
def arrayItems (value : Parser Value) : Nat → Parser (List Value)
  | 0 => failure
  | fuel + 1 => do
    gap (← Parser.fuel)
    if ← accept ']' then return []
    let v ← value
    gap (← Parser.fuel)
    if ← accept ',' then return v :: (← arrayItems value fuel)
    expect ']'
    return [v]

/-- A key with its value, as in `key = value`. -/
def keyValue (value : Parser Value) : Parser ((List String × String) × Value) := do
  let key ← dottedKey
  expect '='
  blanks
  return (key, ← value)

/-- The entries of an inline table, after its opening brace and blanks. -/
def inlineEntries (value : Parser Value) : Nat → Parser (List ((List String × String) × Value))
  | 0 => failure
  | fuel + 1 => do
    let entry ← keyValue value
    blanks
    if ← accept ',' then return entry :: (← inlineEntries value fuel)
    expect '\x7d'
    return [entry]

mutual

/-- An item as a value. -/
def Item.toValue : Item → Value
  | .value v => v
  | .table _ entries => .inlineTable (entriesToValues entries)
  | .tables _ => .array []

def entriesToValues : List (String × Item) → List (String × Value)
  | [] => []
  | (k, i) :: rest => (k, i.toValue) :: entriesToValues rest

end

def inlineTable (value : Parser Value) : Parser Value := do
  blanks
  if ← accept '\x7d' then return .inlineTable []
  let entries ← inlineEntries value (← Parser.fuel)
  let t ← entries.foldlM (fun t ((path, key), v) => t.addValue path key v) (⟨.header, []⟩ : Table)
  return .inlineTable (entriesToValues t.entries)

/-- A value, with the number of arrays and inline tables that may still be nested. -/
def value (depth : Nat) : Parser Value := do
  match ← peek?, depth with
  | some '"', _ | some '\'', _ => fun cs => (string? cs).map (·.map .string id)
  | some '[', depth + 1 => do
    expect '['
    return .array (← arrayItems (value depth) (← Parser.fuel))
  | some '\x7b', depth + 1 => do
    expect '\x7b'
    inlineTable (value depth)
  | _, _ => scalar?

/-- The document so far, and the header that is open. -/
structure DocState where
  root : Table := ⟨.header, []⟩
  header : List String := []

/-- A header in one or two brackets. -/
def headerLine (s : DocState) : Parser DocState := do
  expect '['
  let many ← accept '['
  let (path, key) ← dottedKey
  expect ']'
  if many then expect ']'
  restOfLine
  let root ← if many then s.root.openElement path key else s.root.openTable path key
  return ⟨root, path ++ [key]⟩

def entryLine (s : DocState) : Parser DocState := do
  let ((path, key), v) ← keyValue (value (maxNesting - 1))
  restOfLine
  let root ← s.root.within s.header (·.addValue path key v)
  return { s with root }

def lines : Nat → DocState → Parser DocState
  | 0, _ => failure
  | fuel + 1, s => do
    blanks
    if ← atEnd then return s
    match ← peek? with
    | some '#' => do
      restOfLine
      lines fuel s
    | some '\n' | some '\r' => do
      guard (← lineEnd)
      lines fuel s
    | some '[' => lines fuel (← headerLine s)
    | _ => lines fuel (← entryLine s)

/-- The table of a document, which may start with a byte order mark. -/
def read? (text : String) : Option Table :=
  let cs := match text.toList with
    | '\ufeff' :: cs => cs
    | cs => cs
  (lines (cs.length + 1) {} cs).map (·.1.root)

end ExprLowering.Toml
