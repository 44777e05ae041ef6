import ExprLowering.Lowering
import ExprLowering.Proofs.Alike

/-!
# Renaming the variables of a primitive tree

`Prim.rename r` puts `r.id x` for every variable `x` of a tree, wherever it is declared, stored or read, and keeps the
name and the type that the variable has beside its id. Quotations are given other stamps along with it. What a
renaming makes of a tree depends on the variables that the tree mentions, `Prim.names`.
-/

namespace ExprLowering

/-- Other ids for variables, and other stamps for quotations. -/
structure Renaming where
  id : VarId → VarId
  stamp : Stamp → Stamp

/-- The variable with another id. -/
def Var.rename (r : Renaming) (v : Var) : Var :=
  { v with id := r.id v.id }

theorem Var.rename_of_fixed {r : Renaming} {v : Var} (h : r.id v.id = v.id) : v.rename r = v := by
  rw [Var.rename, h]

theorem Var.map_rename_of_fixed {r : Renaming} {vs : List Var} (h : ∀ x ∈ vs.map (·.id), r.id x = x) :
    vs.map (·.rename r) = vs := by
  have hself : ∀ v ∈ vs, v.rename r = v := fun v hv => rename_of_fixed (h v.id (List.mem_map_of_mem hv))
  rw [List.map_congr_left hself, List.map_id']

namespace Prim

mutual

def rename (r : Renaming) : Prim → Prim
  | const c => const c
  | read v => read (v.rename r)
  | assign target value => assign (renamePlace r target) (rename r value)
  | block locals body => block (locals.map (·.rename r)) (renameAll r body)
  | arith op checked left right => arith op checked (rename r left) (rename r right)
  | step op target => step op (renamePlace r target)
  | newArray ty bounds => newArray ty (renameAll r bounds)
  | constArray ty bounds values => constArray ty bounds values
  | element array indices => element (rename r array) (renameAll r indices)
  | call callee args => call (rename r callee) (renameAll r args)
  | callMethod method args => callMethod method (renameAll r args)
  | lambda code => lambda (renameCode r code)
  | quote stamp code => quote (r.stamp stamp) (renameCode r code)

def renamePlace (r : Renaming) : Place Prim → Place Prim
  | .var v => .var (v.rename r)
  | .element array indices => .element (rename r array) (renameAll r indices)

def renameCode (r : Renaming) : Lambda Prim → Lambda Prim
  | ⟨signature, params, body⟩ => ⟨signature, params.map (·.rename r), rename r body⟩

def renameAll (r : Renaming) : List Prim → List Prim
  | [] => []
  | p :: ps => rename r p :: renameAll r ps

end

variable {r r' : Renaming} {p : Prim} {x : VarId}

@[simp] theorem renameAll_eq_map (r : Renaming) (ps : List Prim) : renameAll r ps = ps.map (rename r) := by
  induction ps with
  | nil => rfl
  | cons p ps ih => rw [renameAll, ih, List.map_cons]

@[simp] theorem isTrivial_rename (r : Renaming) (p : Prim) : (p.rename r).isTrivial = p.isTrivial := by
  cases p <;> rfl

theorem rename_read (r : Renaming) (place : Place Prim) : place.read.rename r = (renamePlace r place).read := by
  cases place <;> rfl

/-! ### Variables that are mentioned -/

/-- The variables that the nodes of the tree read, store or bind. -/
def names (p : Prim) : List VarId :=
  p.preorder.flatMap fun q => q.own ++ q.binders

theorem mem_names : x ∈ p.names ↔ x ∈ p.own ∨ x ∈ p.binders ∨ ∃ q ∈ p.parts, x ∈ q.names := by
  -- The nodes of a list of trees are those of its trees; the tree itself adds its root.
  have hlist (ps : List Prim) : x ∈ (listPreorder ps).flatMap (fun q => q.own ++ q.binders) ↔
      ∃ q ∈ ps, x ∈ q.names := by
    induction ps with
    | nil => simp [listPreorder]
    | cons p ps ih =>
      rw [listPreorder, List.flatMap_append, List.mem_append, ih, List.exists_mem_cons_iff]
      rfl
  rw [names, preorder_eq, List.flatMap_cons, List.mem_append, List.mem_append, hlist, or_assoc]

theorem exists_mentions (h : x ∈ p.own ∨ x ∈ p.binders) : ∃ k, mentions x k p ≠ 0 := by
  have hcount {vs : List Var} (hx : x ∈ vs.map (·.id)) : (vs.map (·.id)).count x ≠ 0 :=
    Nat.pos_iff_ne_zero.1 (List.count_pos_iff.2 hx)
  cases p with
  | read v => exact ⟨.read, by simp_all [mentions, own, binders]⟩
  | assign target value => cases target <;> exact ⟨.store, by simp_all [mentions, own, binders, Place.own]⟩
  | step op target => cases target <;> exact ⟨.store, by simp_all [mentions, own, binders, Place.own]⟩
  | block locals body => exact ⟨.declare, hcount (h.resolve_left List.not_mem_nil)⟩
  | lambda code => exact ⟨.param, hcount (h.resolve_left List.not_mem_nil)⟩
  | quote stamp code => exact ⟨.param, hcount (h.resolve_left List.not_mem_nil)⟩
  | _ => simp_all [own, binders]

theorem Clean.not_mem_names (h : Clean x p.preorder) : x ∉ p.names := by
  intro hx
  obtain ⟨q, hq, hx⟩ := List.mem_flatMap.1 hx
  obtain ⟨k, hk⟩ := exists_mentions (List.mem_append.1 hx)
  exact hk (List.sum_eq_zero_iff_forall_eq_nat.1 (h k) _ (List.mem_map_of_mem hq))

/-! ### Renamings that agree -/

theorem rename_vars_congr (vs : List Var) (h : ∀ x ∈ vs.map (·.id), r.id x = r'.id x) :
    vs.map (·.rename r) = vs.map (·.rename r') := by
  refine List.map_congr_left fun v hv => ?_
  rw [Var.rename, Var.rename, h v.id (List.mem_map_of_mem hv)]

theorem renameAll_congr (ps : List Prim) (h : ∀ p ∈ ps, p.rename r = p.rename r') :
    renameAll r ps = renameAll r' ps := by
  rw [renameAll_eq_map, renameAll_eq_map, List.map_congr_left h]

theorem renamePlace_congr (place : Place Prim) (hown : ∀ x ∈ place.own, r.id x = r'.id x)
    (hparts : ∀ q ∈ place.parts, q.rename r = q.rename r') : renamePlace r place = renamePlace r' place := by
  cases place with
  | var v => rw [renamePlace, renamePlace, Var.rename, Var.rename, hown v.id (List.mem_singleton.2 rfl)]
  | element array indices =>
    obtain ⟨harray, hindices⟩ := List.forall_mem_cons.1 hparts
    rw [renamePlace, renamePlace, harray, renameAll_congr indices hindices]

theorem rename_congr (hs : r.stamp = r'.stamp) (h : ∀ x ∈ p.names, r.id x = r'.id x) : p.rename r = p.rename r' := by
  induction p using induction_parts with
  | _ p ih =>
    have hown : ∀ x ∈ p.own, r.id x = r'.id x := fun x hx => h x (mem_names.2 (.inl hx))
    have hbinders : ∀ x ∈ p.binders, r.id x = r'.id x := fun x hx => h x (mem_names.2 (.inr (.inl hx)))
    have hparts : ∀ q ∈ p.parts, q.rename r = q.rename r' := fun q hq =>
      ih q hq fun x hx => h x (mem_names.2 (.inr (.inr ⟨q, hq, hx⟩)))
    cases p with
    | const | constArray => rfl
    | read v => rw [rename, rename, Var.rename, Var.rename, hown v.id (List.mem_singleton.2 rfl)]
    | assign target value =>
      obtain ⟨htarget, hvalue⟩ := List.forall_mem_append.1 hparts
      rw [rename, rename, renamePlace_congr target hown htarget, hvalue value (List.mem_singleton.2 rfl)]
    | step op target => rw [rename, rename, renamePlace_congr target hown hparts]
    | block locals body => rw [rename, rename, rename_vars_congr locals hbinders, renameAll_congr body hparts]
    | newArray ty bounds => rw [rename, rename, renameAll_congr bounds hparts]
    | callMethod method args => rw [rename, rename, renameAll_congr args hparts]
    | arith op checked left right =>
      obtain ⟨hleft, hright⟩ := List.forall_mem_cons.1 hparts
      rw [rename, rename, hleft, hright right (List.mem_singleton.2 rfl)]
    | element array indices =>
      obtain ⟨harray, hindices⟩ := List.forall_mem_cons.1 hparts
      rw [rename, rename, harray, renameAll_congr indices hindices]
    | call callee args =>
      obtain ⟨hcallee, hargs⟩ := List.forall_mem_cons.1 hparts
      rw [rename, rename, hcallee, renameAll_congr args hargs]
    | lambda code =>
      rw [rename, rename, renameCode, renameCode, rename_vars_congr code.params hbinders,
        hparts code.body (List.mem_singleton.2 rfl)]
    | quote stamp code =>
      rw [rename, rename, renameCode, renameCode, rename_vars_congr code.params hbinders,
        hparts code.body (List.mem_singleton.2 rfl), hs]

mutual

theorem rename_id : ∀ p : Prim, p.rename ⟨id, id⟩ = p
  | const _ | read _ | constArray _ _ _ => rfl
  | assign target value => by rw [rename, renamePlace_id target, rename_id value]
  | block locals body => by rw [rename, renameAll_id body]; exact congrArg (block · body) (List.map_id locals)
  | arith _ _ left right => by rw [rename, rename_id left, rename_id right]
  | step _ target => by rw [rename, renamePlace_id target]
  | newArray _ bounds => by rw [rename, renameAll_id bounds]
  | element array indices => by rw [rename, rename_id array, renameAll_id indices]
  | call callee args => by rw [rename, rename_id callee, renameAll_id args]
  | callMethod _ args => by rw [rename, renameAll_id args]
  | lambda code => by rw [rename, renameCode_id code]
  | quote _ code => by rw [rename, renameCode_id code]; rfl

theorem renamePlace_id : ∀ place : Place Prim, renamePlace ⟨id, id⟩ place = place
  | .var _ => rfl
  | .element array indices => by rw [renamePlace, rename_id array, renameAll_id indices]

theorem renameCode_id : ∀ code : Lambda Prim, renameCode ⟨id, id⟩ code = code
  | ⟨signature, params, body⟩ => by
    rw [renameCode, rename_id body]
    exact congrArg (Lambda.mk signature · body) (List.map_id params)

theorem renameAll_id : ∀ ps : List Prim, renameAll ⟨id, id⟩ ps = ps
  | [] => rfl
  | p :: ps => by rw [renameAll, rename_id p, renameAll_id ps]

end

end Prim

end ExprLowering
