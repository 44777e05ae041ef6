import ExprLowering.Machine
import ExprLowering.Machine.Text

/-!
# Scripted host functions

A host whose functions are small scripts. It counts the calls of each function and keeps a log of
all calls with the arguments, and with the arrays as they were when the call was made.
-/

namespace ExprLowering

/-- What a host function does. -/
inductive Script where
  /-- Returns the value. -/
  | const (v : Value)
  /-- Returns an argument. -/
  | arg (i : Nat)
  /-- Returns `start`, then one more with each call. -/
  | counter (start : Int)
  /-- Returns the number whose decimal digits are the arguments. -/
  | digits
  /-- Adds to the first argument. -/
  | add (n : Int)
  /-- Appends to the text of the first argument. -/
  | append (s : String)
  /-- Returns the values one by one. -/
  | sequence (values : List Value)
  /-- Sets an element of an array and returns `result`. -/
  | poke (array : Value) (indices : List Int) (value result : Value)
  | fail (message : String)
  | typeError (message : String)
  /-- Returns the number of arguments. -/
  | count

structure LogEntry where
  name : String
  args : List Value
  grids : Array Grid

/-- The functions of the host by number, how often each was called, and the log, latest first. -/
structure Scripts where
  functions : Array Script := #[]
  calls : Array Nat := #[]
  log : List LogEntry := []

namespace Script

def ofInt (n : Int) : Value :=
  .ofWord (.wrap .i32 n)

def argument (name : String) (args : List Value) (i : Nat) : Except Fault Value :=
  match args[i]? with
  | some v => .ok v
  | none => .error (.native name s!"no argument {i}")

/-- The value as an integer of the default kind. -/
def asInt (v : Value) : Except Fault Int :=
  match v with
  | .lit (.int w) =>
    if w.kind = .i32 then .ok w.val else .error (.type (.host s!"expected i32, got {v.typeName}"))
  | _ => .error (.type (.host s!"expected i32, got {v.typeName}"))

/-- Runs a script that was called `earlier` times before. -/
def run (name : String) (args : List Value) (earlier : Nat) (grids : Array Grid) :
    Script → Except Fault (Value × Array Grid)
  | const v => .ok (v, grids)
  | arg i => do return (← argument name args i, grids)
  | counter start => .ok (ofInt (start + earlier), grids)
  | digits => do
    let ns ← args.mapM asInt
    return (ofInt (ns.foldl (fun acc n => acc * 10 + n) 0), grids)
  | add n => do
    let a ← asInt (← argument name args 0)
    return (ofInt (a + n), grids)
  | append s => do
    let a ← argument name args 0
    return (.lit (.str (a.text grids ++ s)), grids)
  | sequence values =>
    match values[earlier]? with
    | some v => .ok (v, grids)
    | none => .error (.native name "sequence exhausted")
  | poke array indices value result => do
    let a ← array.asArray
    let g ← (grids.getD a default).set indices value
    return (result, grids.setIfInBounds a g)
  | fail message => .error (.native name message)
  | typeError message => .error (.type (.host message))
  | count => .ok (ofInt args.length, grids)

end Script

namespace Scripts

/-- Adds a function. -/
def register (s : Scripts) (name : String) (f : Script) : NativeFn × Scripts :=
  (⟨s.functions.size, name⟩,
    { s with functions := s.functions.push f, calls := s.calls.push 0 })

def host : Host Scripts where
  call f args grids s :=
    let earlier := s.calls.getD f.id 0
    let s' : Scripts :=
      { s with calls := s.calls.setIfInBounds f.id (earlier + 1), log := ⟨f.name, args, grids⟩ :: s.log }
    match (s.functions.getD f.id .count).run f.name args earlier grids with
    | .ok (v, grids) => (.ok v, grids, s')
    | .error e => (.error e, grids, s')

end Scripts

end ExprLowering
