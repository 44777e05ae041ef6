import ExprLowering.Doc
import ExprLowering.Signature
import ExprLowering.Var

/-!
# Types, signatures and constants as documents

A signature is written in full wherever a type mentions it. Reading takes the documents that writing
makes, with the fields in the same order; how numbers with a point are read is left to a `FloatReader`.
-/

namespace ExprLowering

def IntKind.all : List IntKind :=
  [u8, i8, u16, i16, u32, i32, u64, i64]

def IntKind.tag : IntKind → String
  | u8 => "U8"
  | i8 => "I8"
  | u16 => "U16"
  | i16 => "I16"
  | u32 => "U32"
  | i32 => "I32"
  | u64 => "U64"
  | i64 => "I64"

def IntKind.ofTag? (s : String) : Option IntKind :=
  all.find? (·.tag == s)

def Literal.toDoc : Literal → Doc
  | bool b => .tagged "Bool" (.bool b)
  | int w => .tagged w.kind.tag (.int w.val)
  | float (.single b) => .tagged "F32" (.ofBits (.single b))
  | float (.double b) => .tagged "F64" (.ofBits (.double b))
  | str s => .tagged "Str" (.str s)

def Literal.ofTagged? (read : FloatReader) (tag : String) (d : Doc) : Option Literal :=
  match d with
  | .bool b => if tag == "Bool" then some (bool b) else none
  | .int n => (IntKind.ofTag? tag).bind fun k => (Word.ofInt? k n).map int
  | .real n =>
    if tag == "F32" then (read .f32 n).map float
    else if tag == "F64" then (read .f64 n).map float
    else none
  | .str s => if tag == "Str" then some (str s) else none
  | _ => none

mutual

def Ty.toDoc : Ty → Doc
  | .void => .str "Void"
  | .bool => .str "Bool"
  | .int k => .str k.tag
  | .float .f32 => .str "F32"
  | .float .f64 => .str "F64"
  | .str => .str "Str"
  | .object => .str "Object"
  | .array e r => .tagged "Array" (.record [("element", e.toDoc), ("rank", .int r)])
  | .fn s => .tagged "Fn" s.toDoc
  | .quoted t => .tagged "Quoted" t.toDoc
  | .nullable t => .tagged "Nullable" t.toDoc

def Constant.toDoc : Constant → Doc
  | .null t => .tagged "Null" t.toDoc
  | .lit l => l.toDoc

def Constant.defaultDoc : Option Constant → Doc
  | none => .null
  | some c => c.toDoc

def Signature.toDoc : Signature → Doc
  | ⟨id, name, params, result⟩ => .record [("id", .str id.text), ("name", .str name),
    ("params", .list (Formal.toDocs id 0 params)), ("ret", result.toDoc)]

/-- The formal parameters of the signature `id`, from position `i` on. -/
def Formal.toDocs (id : SigId) (i : Nat) : List Formal → List Doc
  | [] => []
  | ⟨name, ty, c⟩ :: params =>
    .record [("signature", .str id.text), ("position", .int i), ("name", .str name),
      ("type", ty.toDoc), ("default", Constant.defaultDoc c)] :: Formal.toDocs id (i + 1) params

end

/-- The type that is written as a bare name. -/
def Ty.ofName? (s : String) : Option Ty :=
  match s with
  | "Void" => some .void
  | "Bool" => some .bool
  | "F32" => some (.float .f32)
  | "F64" => some (.float .f64)
  | "Str" => some .str
  | "Object" => some .object
  | s => (IntKind.ofTag? s).map .int

section
variable (read : FloatReader)

mutual

def Ty.ofDocWith? : Doc → Option Ty
  | .str s => Ty.ofName? s
  | .record [("Array", .record [("element", e), ("rank", .int (.ofNat r))])] => do
    return .array (← Ty.ofDocWith? e) r
  | .record [("Fn", s)] => do return .fn (← Signature.ofDocWith? s)
  | .record [("Quoted", t)] => do return .quoted (← Ty.ofDocWith? t)
  | .record [("Nullable", t)] => do return .nullable (← Ty.ofDocWith? t)
  | _ => none

def Constant.ofDocWith? : Doc → Option Constant
  | .record [("Null", t)] => do return .null (← Ty.ofDocWith? t)
  | .record [(tag, d)] => (Literal.ofTagged? read tag d).map .lit
  | _ => none

def Signature.ofDocWith? : Doc → Option Signature
  | .record [("id", .str id), ("name", .str name), ("params", .list params), ("ret", result)] => do
    return ⟨⟨id⟩, name, ← Formal.ofDocsWith? id 0 params, ← Ty.ofDocWith? result⟩
  | _ => none

def Formal.ofDocsWith? (id : String) (i : Nat) : List Doc → Option (List Formal)
  | [] => some []
  | .record [("signature", .str owner), ("position", .int position), ("name", .str name),
      ("type", t), ("default", c)] :: params =>
    if owner = id ∧ position = i then do
      let ty ← Ty.ofDocWith? t
      let default ← (if c.isNull then some none else (Constant.ofDocWith? c).map some)
      let rest ← Formal.ofDocsWith? id (i + 1) params
      return ⟨name, ty, default⟩ :: rest
    else none
  | _ => none

end

def Var.toDoc (v : Var) : Doc :=
  .record [("id", .int v.id.val), ("name", .str v.name), ("type", v.ty.toDoc)]

def Var.ofDocWith? : Doc → Option Var
  | .record [("id", .int (.ofNat id)), ("name", .str name), ("type", t)] => do
    return ⟨⟨id⟩, name, ← Ty.ofDocWith? read t⟩
  | _ => none

def Method.toDoc (m : Method) : Doc :=
  .record [("name", .str m.name), ("signature", m.signature.toDoc)]

def Method.ofDocWith? : Doc → Option Method
  | .record [("name", .str name), ("signature", s)] => do return ⟨name, ← Signature.ofDocWith? read s⟩
  | _ => none

end

end ExprLowering
