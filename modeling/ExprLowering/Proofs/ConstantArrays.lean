import ExprLowering.Proofs.AlikeRuns
import ExprLowering.Proofs.ArraySimulation
import ExprLowering.Proofs.CallLog

/-!
# Arrays of constants

An array node whose elements are constants is lowered to an array of the constants, or to a block that makes an array
with default elements and stores the constants one by one. Either way the machine makes one new array, of the
constants in row-major order (`LoweredTo.run_constants`), so a multi-index finds in it what it finds in the node
(`Lowerer.eval_constantArray`).
-/

namespace ExprLowering

/-- The array of the constants, in row-major order. -/
def Grid.ofConstants (element : Ty) (bounds : List Nat) (values : List Constant) : Grid :=
  ⟨element, bounds, (values.map .ofConstant).toArray⟩

section
variable {σ : Type} {host : Host σ} {m : Machine} {enter : Enter σ} {scopes : List Scope} {element : Ty}
  {bounds : List Nat} {values : List Constant}

/-! ### Making the array at once -/

theorem run_constArray (hsize : Shape.size? bounds = some values.length) (s : Store σ) :
    (m.evalWith host id enter scopes (.constArray element bounds values)).run s =
      (.ok (.array s.grids.size), { s with grids := s.grids.push (.ofConstants element bounds values) }) := by
  have hgrid : (Grid.ofRowMajor element bounds (values.map Value.ofConstant) : Except Fault Grid) =
      .ok (.ofConstants element bounds values) := by
    rw [Grid.ofRowMajor, Grid.size, hsize]
    exact if_pos (List.length_map ..)
  rw [Machine.evalWith, hgrid]
  rfl

/-! ### Storing the constants one by one -/

/-- While the array that was made last is in its temporary, the constants are stored in it from offset `i` on. -/
theorem run_storeConstants {β : Type} {array : Var} {c : CellId} {i : Nat} {stores : List Prim} {s : Store σ}
    {gs : Array Grid} {g : Grid} (hstores : storeElements? array bounds i (values.map .const) = some stores)
    (hlen : i + values.length ≤ bounds.prod) (hl : m.lookup scopes array = some c)
    (hc : s.cells.getD c .null = .array gs.size) (hs : s.grids = gs.push g) (hg : g.bounds = bounds) (y : Eval σ β) :
    (runThen (stores.map (m.evalWith host id enter scopes)) y).run s =
      y.run { s with grids := gs.push (g.setFrom i (values.map .ofConstant)) } := by
  induction values generalizing i stores s g with
  | nil =>
    cases hstores
    rw [List.map_nil, List.map_nil, Grid.setFrom, ← hs]
    rfl
  | cons v values ih =>
    obtain ⟨is, rest, his, hrest, rfl⟩ := storeElements?_cons_eq_some.1 hstores
    rw [List.length_cons] at hlen
    have hbounds : (s.grids.getD gs.size default).bounds = bounds := by
      rw [hs, getD_push, if_pos rfl, hg]
    have hlocate : (m.locate host id enter scopes (.element (.read array) is)).run s =
        (.ok (.element gs.size i), s) := run_locate_offset hl hc hbounds (by omega) his
    have hassign : (m.evalWith host id enter scopes (.assign (.element (.read array) is) (.const v))).run s =
        (.ok (.ofConstant v), s.setAt (.ofConstant v) (.element gs.size i)) := by
      rw [Machine.evalWith_assign, run_bind_of_ok hlocate, Machine.evalWith, pure_bind,
        run_bind_of_ok (run_store ..)]
      rfl
    have hgrids : (s.setAt (.ofConstant v) (.element gs.size i)).grids = gs.push (g.setAt i (.ofConstant v)) := by
      rw [Store.setAt, hs, modify_push]
    refine (run_bind_of_ok hassign).trans ?_
    exact ih hrest (by omega) hc hgrids hg

theorem run_newArray {sizes : List Prim} (hsize : Shape.size? bounds = some values.length)
    (hsizes : bounds.mapM indexConstant? = some sizes) (s : Store σ) :
    (m.evalWith host id enter scopes (.newArray element sizes)).run s =
      (.ok (.array s.grids.size),
        { s with grids := s.grids.push ⟨element, bounds, Array.replicate values.length (.defaultOf element)⟩ }) := by
  have hbounds : (bounds.map Int.ofNat).map Int.toNat = bounds := by
    simp [Function.comp_def]
  rw [Machine.evalWith, run_bind_of_ok (run_boundConstants hsizes s), hbounds, Grid.new, Grid.size, hsize]
  rfl

/-- The block that fills a new array leaves it in a cell of its own. -/
theorem run_constantBlock {array : Var} {p : Prim} (hsize : Shape.size? bounds = some values.length)
    (hp : arrayBlock? array element bounds (values.map .const) = some p) (s : Store σ) :
    (m.evalWith host id enter scopes p).run s =
      (.ok (.array s.grids.size), { s with
        cells := s.cells.push (.array s.grids.size)
        grids := s.grids.push (.ofConstants element bounds values) }) := by
  obtain ⟨sizes, stores, hsizes, hstores, rfl⟩ := arrayBlock?_eq_some hp
  have hextend : (Eval.extend [] (Temp.entries [⟨array, .newArray element sizes⟩])).run s =
      (.ok [(array.id, s.cells.size)], { s with cells := s.cells.push (.defaultOf array.ty) }) := rfl
  have hl : m.lookup ([(array.id, s.cells.size)] :: scopes) array = some s.cells.size := by
    rw [Machine.lookup, findSome?_lookup_cons, List.lookup_cons_self]
    rfl
  rw [evalWith_scope (by simp), run_bind_of_ok hextend]
  refine (run_bind_of_ok (run_assignVar hl (run_newArray hsize hsizes _))).trans ?_
  have hprod := Shape.size?_eq_prod hsize
  have hcells : (s.cells.push (.defaultOf array.ty)).setIfInBounds s.cells.size (.array s.grids.size) =
      s.cells.push (.array s.grids.size) := setIfInBounds_push ..
  have hcell : (s.cells.push (.array s.grids.size)).getD s.cells.size .null = (.array s.grids.size : Value) := by
    rw [getD_push, if_pos rfl]
  have hlength : values.length = (values.map (Value.ofConstant (α := Prim))).length := (List.length_map ..).symm
  rw [Store.setAt]
  simp only [hcells]
  refine (run_storeConstants hstores (by omega) hl hcell rfl rfl _).trans ?_
  rw [run_read hl, hlength, Grid.setFrom_new]
  simp only [hcell]
  rfl

end

/-! ### Either way -/

/-- An array has been made, and whatever was there before is as it was. -/
structure Store.Adds {σ : Type} (g : Grid) (s t : Store σ) : Prop where
  grids : t.grids = s.grids.push g
  cells : ∀ c < s.cells.size, t.cells[c]? = s.cells[c]?
  closures : t.closures = s.closures
  host : t.host = s.host

theorem Threaded.constants {o : LowerOptions} {values : List Constant} {ps : List Prim} {u u' : Supply}
    (h : Threaded (LoweredTo o) (values.map .const) ps u u') : ps = values.map .const := by
  induction values generalizing ps u with
  | nil => cases h; rfl
  | cons c values ih =>
    cases h with
    | cons head tail =>
      cases head.form (.const c) with
      | const => rw [List.map_cons, ih tail]

theorem LoweredTo.run_constants {o : LowerOptions} {stamp : Stamp} {element : Ty} {bounds : List Int32}
    {values : List Constant} {p : Prim} {u u' : Supply}
    (he : (Expr.node stamp (.array element bounds) (values.map .const)).WellMade)
    (h : LoweredTo o (.node stamp (.array element bounds) (values.map .const)) p u u') {σ : Type} (host : Host σ)
    (m : Machine) (enter : Enter σ) (scopes : List Scope) (s : Store σ) :
    ∃ t, (m.evalWith host id enter scopes p).run s = (.ok (.array s.grids.size), t) ∧
      s.Adds (.ofConstants element (bounds.map (·.toInt.toNat)) values) t := by
  have hsize : Shape.size? (bounds.map (·.toInt.toNat)) = some values.length := by
    cases he.allows with
    | array _ _ hcheck =>
      rw [List.length_map] at hcheck
      exact (checkBounds_eq_ok hcheck).2.1
  cases h.form he with
  | fold _ hvalues =>
    have hinj := Expr.constants?_eq_some hvalues
    obtain rfl := List.map_injective_iff.2 (fun c d h => Expr.const.inj h) hinj
    exact ⟨_, run_constArray hsize s, rfl, fun _ _ => rfl, rfl, rfl⟩
  | array _ _ helements hblock =>
    rw [helements.constants] at hblock
    refine ⟨_, run_constantBlock hsize hblock s, rfl, fun c hc => ?_, rfl, rfl⟩
    exact (Array.getElem?_push_lt hc).trans (Array.getElem?_eq_getElem hc).symm

/-! ### Elements -/

/-- A multi-index designates the same constant in the node and in the array, or it designates none in either. -/
theorem Expr.get_ofConstants {stamp : Stamp} {element : Ty} {bounds : List Int32} {values : List Constant}
    (hcount : values.length = (bounds.map (·.toInt.toNat)).prod) (indices : List Int) :
    (∃ c, getElement (.node stamp (.array element bounds) (values.map const)) indices = .ok (const c) ∧
      (Grid.ofConstants element (bounds.map (·.toInt.toNat)) values).get indices = .ok (.ofConstant c)) ∨
    (∃ err, getElement (.node stamp (.array element bounds) (values.map const)) indices = .error err) ∧
      ∃ f, (Grid.ofConstants element (bounds.map (·.toInt.toNat)) values).get indices = .error f := by
  rw [getElement, Grid.get, Grid.offset]
  have hbounds : (Grid.ofConstants element (bounds.map (·.toInt.toNat)) values).bounds =
      bounds.map (·.toInt.toNat) := rfl
  rw [hbounds]
  cases hoffset : Shape.offset (bounds.map (·.toInt.toNat)) indices with
  | error e =>
    cases e with
    | rank expected found => exact .inr ⟨⟨_, rfl⟩, _, rfl⟩
    | range dimension index bound => exact .inr ⟨⟨_, rfl⟩, _, rfl⟩
  | ok i =>
    have hi : i < values.length := hcount ▸ Shape.offset_lt hoffset
    have hnode : (values.map const)[i]? = some (const values[i]) := by simp [hi]
    have hgrid : (Grid.ofConstants element (bounds.map (·.toInt.toNat)) values).getAt i = .ofConstant values[i] := by
      simp [Grid.ofConstants, Grid.getAt, hi]
    refine .inl ⟨values[i], ?_, ?_⟩
    · simp only [hnode]
    · exact congrArg Except.ok hgrid

/-- There is one array that the machine makes of an array node whose elements are constants, however the node is
lowered: nothing is called for it, and nothing that was there is changed. It has the element type and the bounds of
the node, and a multi-index designates in it the value of the constant that it designates in the node. -/
theorem Lowerer.eval_constantArray {stamp : Stamp} {element : Ty} {bounds : List Int32} {values : List Constant}
    {e : Expr} (he : e.Obtained) (hform : e = .node stamp (.array element bounds) (values.map .const)) :
    ∃ g : Grid, g.element = element ∧ g.bounds = bounds.map (·.toInt.toNat) ∧
      (∀ indices, ((∃ v, g.get indices = .ok v) ↔ ∃ x, e.getElement indices = .ok x) ∧
        ∀ x, e.getElement indices = .ok x → ∃ c, x = .const c ∧ g.get indices = .ok (.ofConstant c)) ∧
      ∀ {l : Lowerer} {supply : Supply} {p : Prim}, (l.lower e supply).1 = .ok p →
        ∀ {σ : Type} (host : Host σ) (m : Machine) (enter : Enter σ) (scopes : List Scope) (s : Store σ),
          m.calls host p s = [] ∧
          ∃ t, (m.evalWith host id enter scopes p).run s = (.ok (.array s.grids.size), t) ∧ s.Adds g t := by
  subst hform
  have hcount : values.length = (bounds.map (·.toInt.toNat)).prod := by
    cases he.wellMade.allows with
    | array _ _ hcheck => simpa using (checkBounds_eq_ok hcheck).2.2
  refine ⟨.ofConstants element (bounds.map (·.toInt.toNat)) values, rfl, rfl, fun indices => ?_, ?_⟩
  · rcases Expr.get_ofConstants hcount indices with ⟨c, hnode, hgrid⟩ | ⟨⟨err, hnode⟩, f, hgrid⟩
    · rw [hnode, hgrid]
      refine ⟨iff_of_true ⟨_, rfl⟩ ⟨_, rfl⟩, fun x hx => ?_⟩
      cases hx
      exact ⟨c, rfl, rfl⟩
    · rw [hnode, hgrid]
      simp
  · intro l supply p hp σ host m enter scopes s
    obtain ⟨supply', h⟩ := exists_loweredTo hp
    refine ⟨?_, h.run_constants he.wellMade host m enter scopes s⟩
    obtain ⟨t, ht, hadds⟩ := h.run_constants he.wellMade host.logged m (m.enter host.logged m.maxCallDepth) [] s.logged
    rw [Machine.calls, Machine.eval, ht, hadds.host]
    rfl

/-! ### An array of objects -/

namespace ConstantArray

def name : Constant := .lit (.str "a")

/-- `new object[2, 1] { { "a" }, { null } }` -/
def expr : Expr := .node 0 (.array .object [2, 1]) [.const name, .const (.null .object)]

theorem expr_obtained : expr.Obtained := by
  have hmake : Expr.mkArray .object [2, 1] [.const name, .const (.null .object)] 0 = .ok (expr, 1) := rfl
  refine .made ?_ hmake
  simp only [List.forall_mem_cons]
  exact ⟨.const _, .const _, fun _ h => absurd h List.not_mem_nil⟩

end ConstantArray

open ConstantArray in
/-- Folded or not, the array holds the text and the null. -/
theorem Lowerer.eval_constantArray_objects :
    ∃ g : Grid, g.get [0, 0] = .ok (.ofConstant name) ∧ g.get [1, 0] = .ok .null ∧
      ∀ fold, ∃ p t, (lower { options := { foldConstantArrays := fold } } expr {}).1 = .ok p ∧
        (Machine.eval ⟨fun _ _ gs a => (.ok .null, gs, a)⟩ {} p).run { host := () } = (.ok (.array 0), t) ∧
        t.grids = #[g] := by
  have hform : expr = .node 0 (.array .object [2, 1]) ([name, .null .object].map .const) := rfl
  obtain ⟨g, -, -, hget, hrun⟩ := eval_constantArray expr_obtained hform
  obtain ⟨_, hname, hfirst⟩ := (hget [0, 0]).2 (.const name) rfl
  obtain ⟨_, hnull, hlast⟩ := (hget [1, 0]).2 (.const (.null .object)) rfl
  cases hname
  cases hnull
  refine ⟨g, hfirst, hlast, fun fold => ?_⟩
  obtain ⟨p, hp⟩ : ∃ p, (lower { options := { foldConstantArrays := fold } } expr {}).1 = .ok p := by
    cases fold <;> exact ⟨_, rfl⟩
  obtain ⟨-, t, ht, hadds⟩ := hrun hp ⟨fun _ _ gs a => (.ok .null, gs, a)⟩ {} (Machine.enter _ {} 256) [] { host := () }
  exact ⟨p, t, hp, ht, hadds.grids⟩

end ExprLowering
