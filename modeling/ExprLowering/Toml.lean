/-!
# TOML documents

The values of a TOML document, and the tables that its lines build up. A table remembers how it came
about, because that decides how it may be extended: by dotted keys only if it was made by them, by a
header only if it was merely passed through by longer headers before.
-/

namespace ExprLowering.Toml

inductive Value where
  | bool (b : Bool)
  | int (n : Int)
  /-- A float, as it is written. -/
  | float (text : String)
  | string (s : String)
  /-- A date, a time or both, as written. -/
  | datetime (text : String)
  | array (items : List Value)
  | inlineTable (entries : List (String × Value))

/-- How a table came about. -/
inductive Origin where
  /-- By a header of its own, or as the document itself. -/
  | header
  /-- By a longer header that passes through it. -/
  | implied
  /-- By dotted keys. -/
  | dotted
deriving DecidableEq

inductive Item where
  | value (v : Value)
  | table (origin : Origin) (entries : List (String × Item))
  /-- The tables of an array of tables, the latest first. -/
  | tables (all : List (List (String × Item)))

/-- A table under construction. -/
structure Table where
  origin : Origin
  entries : List (String × Item)

namespace Table

def get? (t : Table) (key : String) : Option Item :=
  t.entries.lookup key

/-- Sets a key, in the place of the old entry if there is one. -/
def set (t : Table) (key : String) (item : Item) : Table :=
  if (t.entries.lookup key).isSome then
    { t with entries := t.entries.map fun (k, i) => if k == key then (k, item) else (k, i) }
  else { t with entries := t.entries ++ [(key, item)] }

/-- A key that may not be there yet. -/
def insertNew (t : Table) (key : String) (item : Item) : Option Table :=
  if (t.get? key).isSome then none else some (t.set key item)

/-- Changes the table at the end of a path by `f`. Missing tables on the way are made with the given
origin; of an array of tables the latest is taken. -/
def descend (made : Origin) (f : Table → Option Table) : List String → Table → Option Table
  | [], t => f t
  | key :: path, t =>
    match t.get? key with
    | none => do
      let child ← descend made f path ⟨made, []⟩
      return t.set key (.table child.origin child.entries)
    | some (.value _) => none
    | some (.table origin entries) =>
      if made = .dotted ∧ origin = .header then none
      else do
        let child ← descend made f path ⟨origin, entries⟩
        return t.set key (.table child.origin child.entries)
    | some (.tables []) => none
    | some (.tables (latest :: rest)) => do
      let child ← descend made f path ⟨.header, latest⟩
      return t.set key (.tables (child.entries :: rest))

/-- Adds a key with its value; dotted keys go through tables made by dotted keys. -/
def addValue (path : List String) (key : String) (v : Value) (t : Table) : Option Table :=
  descend .dotted (fun t =>
    if decide (t.origin = .dotted) == path.isEmpty then none else t.insertNew key (.value v)) path t

/-- Opens the table of a header. -/
def openTable (path : List String) (key : String) (t : Table) : Option Table :=
  descend .implied (fun t =>
    match t.get? key with
    | none => some (t.set key (.table .header []))
    | some (.table .implied entries) => some (t.set key (.table .header entries))
    | some _ => none) path t

/-- Adds a table to the array of tables of a header. -/
def openElement (path : List String) (key : String) (t : Table) : Option Table :=
  descend .implied (fun t =>
    match t.get? key with
    | none => some (t.set key (.tables [[]]))
    | some (.tables all) => some (t.set key (.tables ([] :: all)))
    | some _ => none) path t

/-- Changes the table that a header has opened. -/
def within (header : List String) (f : Table → Option Table) (t : Table) : Option Table :=
  descend .implied f header t

end Table

end ExprLowering.Toml
