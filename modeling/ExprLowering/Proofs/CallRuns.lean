import ExprLowering.Proofs.PlainTrees

/-!
# The run of a call with plain bindings

A lowered call finds its callee, then the values of its bindings, and then calls the function. If the bindings are not
in declaration order, the callee and the values are put into temporaries first. Where the values are plain this makes no
difference to what is called with what (`InvokeForm.callEnd`): the values are those in the store where the callee was
found, and the store in which the function is called differs from it in the cells of the temporaries only
(`Store.SameBut`).
-/

namespace ExprLowering

variable {σ : Type} {L : Prop} {R : Pairing → σ → σ → Prop} {m : Machine} {host : Host σ} {enter : Enter σ}
  {w : Pairing} {scopes : List Scope} {s t : Store σ} {n : Nat}

/-! ### Cells of temporaries -/

/-- Only cells of which `own` holds may have changed, and there may be new ones. -/
structure Store.SameBut (own : CellId → Prop) (s t : Store σ) : Prop where
  size : s.cells.size ≤ t.cells.size
  cell : ∀ c, c < s.cells.size → ¬ own c → t.cells.getD c .null = s.cells.getD c .null
  grids : t.grids = s.grids
  closures : t.closures = s.closures
  host : t.host = s.host

namespace Store.SameBut
variable {own own' : CellId → Prop} {s₁ t₁ : Store σ}

theorem refl : s.SameBut own s :=
  ⟨Nat.le_refl _, fun _ _ _ => rfl, rfl, rfl, rfl⟩

theorem trans (h : s.SameBut own s₁) (h' : s₁.SameBut own t) : s.SameBut own t where
  size := Nat.le_trans h.size h'.size
  cell c hc hown := (h'.cell c (Nat.lt_of_lt_of_le hc h.size) hown).trans (h.cell c hc hown)
  grids := h'.grids.trans h.grids
  closures := h'.closures.trans h.closures
  host := h'.host.trans h.host

theorem imp (h : s.SameBut own t) (hown : ∀ c, own c → own' c) : s.SameBut own' t :=
  { h with cell := fun c hc hn => h.cell c hc fun ho => hn (hown c ho) }

theorem push (v : Value) : s.SameBut own { s with cells := s.cells.push v } where
  size := by simp
  cell c hc _ := (getD_push ..).trans (if_neg (Nat.ne_of_lt hc))
  grids := rfl
  closures := rfl
  host := rfl

theorem setAt {c : CellId} (hc : own c) (v : Value) : s.SameBut own (s.setAt v (.cell c)) where
  size := by simp
  cell d _ hd := cell_setAt_of_ne fun heq => hd (Location.cell.inj heq ▸ hc)
  grids := rfl
  closures := rfl
  host := rfl

/-- Stores stay alike while cells change that are in no pair. -/
theorem alike (h : s.SameBut own s₁) (h' : t.SameBut own' t₁) (hs : s.Alike L R m w t)
    (hown : ∀ {c d}, w c d → ¬ own c ∧ ¬ own' d) : s₁.Alike L R m w t₁ where
  left hc := Nat.lt_of_lt_of_le (hs.left hc) h.size
  right hc := Nat.lt_of_lt_of_le (hs.right hc) h'.size
  inj := hs.inj
  cell hc := by
    rw [h.cell _ (hs.left hc) (hown hc).1, h'.cell _ (hs.right hc) (hown hc).2]
    exact hs.cell hc
  grids := by
    rw [h.grids, h'.grids]
    exact hs.grids
  closures := by rw [h.closures, h'.closures, hs.closures]
  host := by
    rw [h.host, h'.host]
    exact hs.host

end Store.SameBut

/-- A block has been entered: its variables have new cells, and all else is as it was. -/
structure Machine.Entered (m : Machine) (n : Nat) (scopes : List Scope) (s : Store σ) (scopes₁ : List Scope)
    (s₁ : Store σ) (vars : List Var) : Prop where
  same : s.SameBut (fun _ => False) s₁
  outer : ∀ x : VarId, x.val < n → scopes₁.findSome? (·.lookup x) = scopes.findSome? (·.lookup x)
  placed : Placed m scopes₁ (fun c => s.cells.size ≤ c ∧ c < s₁.cells.size) vars

namespace Machine.Entered
variable {scopes₁ : List Scope} {s₁ : Store σ} {vars : List Var}

theorem subset {vars' : List Var} (h : m.Entered n scopes s scopes₁ s₁ vars) (hsub : ∀ v ∈ vars', v ∈ vars) :
    m.Entered n scopes s scopes₁ s₁ vars' :=
  { h with placed := h.placed.subset hsub }

theorem cell?_eq (h : m.Entered n scopes s scopes₁ s₁ vars) (x : VarId) (hx : x.val < n) :
    m.cell? scopes₁ x = m.cell? scopes x := by
  rw [Machine.cell?, Machine.cell?, h.outer x hx]

theorem outside (h : m.Entered n scopes s scopes₁ s₁ vars)
    (hvars : ∀ x : VarId, x.val < n → ∀ c, m.cell? scopes x = some c → c < s.cells.size) (x : VarId) (hx : x.val < n)
    (c : CellId) (hc : m.cell? scopes₁ x = some c) :
    c < s₁.cells.size ∧ ¬ (s.cells.size ≤ c ∧ c < s₁.cells.size) := by
  have hlt := hvars x hx c (h.cell?_eq x hx ▸ hc)
  exact ⟨Nat.lt_of_lt_of_le hlt h.same.size, fun hown => Nat.not_lt.2 hown.1 hlt⟩

end Machine.Entered

theorem Machine.entered_scope (host : Host σ) (enter : Enter σ) {temps : List Temp} {u u' : Supply}
    (statements : List Prim) (result : Prim) (hst : temps = [] → statements = []) (hids : Temp.ids temps = u.taken u')
    (hn : n ≤ u.var) (scopes : List Scope) (s : Store σ) :
    ∃ scopes₁ s₁, m.Entered n scopes s scopes₁ s₁ (temps.map (·.var)) ∧
      (m.evalWith host id enter scopes (Temp.scope temps statements result)).run s =
        (runThen ((Temp.stores temps ++ statements).map (m.evalWith host id enter scopes₁))
          (m.evalWith host id enter scopes₁ result)).run s₁ := by
  have hnodup : (Temp.ids temps).Nodup := hids ▸ Supply.nodup_taken
  obtain ⟨scopes₁, s₁, hrun, hsame, -, hout, hplaced⟩ :=
    run_scope host enter (fun t v ht => ht.trans (.push v)) hst hnodup (Store.SameBut.refl (s := s))
  refine ⟨scopes₁, s₁, ⟨hsame, fun x hx => hout x fun hm => ?_, hplaced⟩, hrun⟩
  have hle : u.var ≤ x.val := Supply.le_of_mem_taken (hids ▸ hm)
  omega

open Machine (Yields)

/-- The cells of the temporaries. -/
def Temp.cells (m : Machine) (scopes : List Scope) (temps : List Temp) (c : CellId) : Prop :=
  ∃ t ∈ temps, m.lookup scopes t.var = some c

theorem Placed.of_cells {P : CellId → Prop} {temps : List Temp} (h : Placed m scopes P (temps.map (·.var))) {c : CellId}
    (hc : Temp.cells m scopes temps c) : P c := by
  obtain ⟨t, ht, hl⟩ := hc
  obtain ⟨d, hd, hP⟩ := h.cell t.var (List.mem_map_of_mem ht)
  cases hl.symm.trans hd
  exact hP

/-- No two temporaries share a cell. -/
theorem Placed.not_cells {P : CellId → Prop} {x : Var} {init : Prim} {temps : List Temp} {c : CellId}
    (h : Placed m scopes P ((⟨x, init⟩ :: temps : List Temp).map (·.var)))
    (hn : (Temp.ids (⟨x, init⟩ :: temps)).Nodup) (hl : m.lookup scopes x = some c) : ¬ Temp.cells m scopes temps c := by
  rintro ⟨t, ht, hlt⟩
  have hid := h.inj t.var (List.mem_cons_of_mem _ (List.mem_map_of_mem ht)) x List.mem_cons_self (hlt.trans hl.symm)
  exact (List.nodup_cons.1 hn).1 (List.mem_map.2 ⟨t, ht, hid⟩)

theorem Machine.Yields.read_set {own : CellId → Prop} {x : Var} {c : CellId} {v : Value}
    (hl : m.lookup scopes x = some c) (hlt : c < s.cells.size) (hown : ¬ own c)
    (ht : (s.setAt v (.cell c)).SameBut own t) : Yields host m enter scopes t (.read x) (.ok v) := by
  have hread : Yields host m enter scopes t (.read x) (.ok (t.cells.getD c .null)) := .read hl
  rwa [ht.cell c (by simpa using hlt) hown, Store.cell_setAt_self hlt] at hread

section
variable {x : Var} {init : Prim} {temps : List Temp} {c : CellId} (hx : m.lookup scopes x = some c) (y : Eval σ Value)
include hx

theorem run_stores_of_ok {v : Value} (h : (m.evalWith host id enter scopes init).run s = (.ok v, t)) :
    (runThen ((Temp.stores (⟨x, init⟩ :: temps)).map (m.evalWith host id enter scopes)) y).run s =
      (runThen ((Temp.stores temps).map (m.evalWith host id enter scopes)) y).run (t.setAt v (.cell c)) :=
  run_bind_of_ok (run_assignVar hx h)

theorem run_stores_of_error {f : Fault} (h : (m.evalWith host id enter scopes init).run s = (.error f, t)) :
    (runThen ((Temp.stores (⟨x, init⟩ :: temps)).map (m.evalWith host id enter scopes)) y).run s = (.error f, t) := by
  have hassign : (m.evalWith host id enter scopes (.assign (.var x) init)).run s = (.error f, t) := by
    rw [evalWith_assignVar hx, run_bind_of_error h]
  exact run_bind_of_error hassign

end

/-- Plain values that are kept: either all give values, and what is used in their place then gives the same ones, or
setting the temporaries ends with the fault of one. -/
theorem Temp.Kept.run_plain {labels : List (String × Ty)} {values ps : List Prim} {temps : List Temp} {u u' : Supply}
    (hk : Kept labels values ps temps u u') (hplain : ∀ p ∈ values, p.Plain n)
    (hplaced : Placed m scopes (· < s.cells.size) (temps.map (·.var))) (hn : (ids temps).Nodup)
    (hvars : ∀ x : VarId, x.val < n → ∀ c, m.cell? scopes x = some c → ¬ cells m scopes temps c)
    (host : Host σ) (enter : Enter σ) (y : Eval σ Value) :
    (∃ vs t, List.Forall₂ (fun p v => Yields host m enter scopes s p (.ok v)) values vs ∧
      List.Forall₂ (fun p v => Yields host m enter scopes t p (.ok v)) ps vs ∧ s.SameBut (cells m scopes temps) t ∧
      (runThen ((stores temps).map (m.evalWith host id enter scopes)) y).run s = y.run t) ∨
    ∃ p ∈ values, ∃ f t, Yields host m enter scopes s p (.error f) ∧ s.SameBut (cells m scopes temps) t ∧
      (runThen ((stores temps).map (m.evalWith host id enter scopes)) y).run s = (.error f, t) := by
  induction hk generalizing s with
  | nil => exact .inl ⟨[], s, .nil, .nil, .refl, rfl⟩
  | const _ ih =>
    rw [List.forall_mem_cons] at hplain
    rcases ih hplain.2 hplaced hn hvars with ⟨vs, t, hvs, hps, hsame, hrun⟩ | ⟨p, hp, hfault⟩
    · exact .inl ⟨_, t, .cons rfl hvs, .cons rfl hps, hsame, hrun⟩
    · exact .inr ⟨p, List.mem_cons_of_mem _ hp, hfault⟩
  | @held name ty _ value values _ temps u _ _ _ ih =>
    rw [List.forall_mem_cons] at hplain
    obtain ⟨c, hl, hlt⟩ := hplaced.cell (u.fresh name ty).1 (by simp)
    obtain ⟨r, hr⟩ : ∃ r, Yields host m enter scopes s value r := hplain.1.exists_yields
    have hhead : cells m scopes (⟨(u.fresh name ty).1, value⟩ :: temps) c := ⟨_, List.mem_cons_self, hl⟩
    have hrest (d : CellId) (hd : cells m scopes temps d) :
        cells m scopes (⟨(u.fresh name ty).1, value⟩ :: temps) d := by
      obtain ⟨t, ht, hlt⟩ := hd
      exact ⟨t, List.mem_cons_of_mem _ ht, hlt⟩
    cases r with
    | error f => exact .inr ⟨value, List.mem_cons_self, f, s, hr, .refl, run_stores_of_error hl y hr⟩
    | ok v =>
      have hsize : (s.setAt v (.cell c)).cells.size = s.cells.size := by simp
      -- the other values do not read the cell
      have hback {p : Prim} (hp : p ∈ values) {r : Except Fault Value}
          (h : Yields host m enter scopes (s.setAt v (.cell c)) p r) : Yields host m enter scopes s p r := by
        refine (hplain.2 p hp).congr (fun x hx d hd => (Store.cell_setAt_of_ne fun heq => ?_).symm) h
        exact hvars x hx d hd (Location.cell.inj heq ▸ hhead)
      have hset : s.SameBut (cells m scopes (⟨(u.fresh name ty).1, value⟩ :: temps)) (s.setAt v (.cell c)) :=
        .setAt hhead v
      have hplaced' : Placed m scopes (· < (s.setAt v (.cell c)).cells.size) (temps.map (·.var)) :=
        (hplaced.subset fun v hv => List.mem_cons_of_mem _ hv).imp fun _ hd => hsize ▸ hd
      have ih := ih hplain.2 hplaced' (List.nodup_cons.1 hn).2 fun x hx d hd hc => hvars x hx d hd (hrest d hc)
      rw [run_stores_of_ok hl y hr]
      rcases ih with ⟨vs, t, hvs, hps, hsame, hrun⟩ | ⟨p, hp, f, t, hf, hsame, hrun⟩
      · refine .inl ⟨v :: vs, t, .cons hr ?_, .cons ?_ hps, hset.trans (hsame.imp hrest), hrun⟩
        · exact ((List.forall₂_and_left ..).2 ⟨fun p hp => hp, hvs⟩).imp fun p v h => hback h.1 h.2
        · exact .read_set hl hlt (hplaced.not_cells hn hl) hsame
      · exact .inr ⟨p, List.mem_cons_of_mem _ hp, f, t, hback hp hf, hset.trans (hsame.imp hrest), hrun⟩

/-! ### The run of a call -/

/-- How a call ends whose callee has ended with `r` in the store `s`. The values of the bindings are found there, and
before the function is called only own cells change. -/
inductive CallEnd (host : Host σ) (m : Machine) (enter : Enter σ) (scopes : List Scope) (own : CellId → Prop)
    (slots : List Slot) (values : List Prim) (s : Store σ) : Except Fault Value → Except Fault Value × Store σ → Prop
  | callee (f : Fault) : CallEnd host m enter scopes own slots values s (.error f) (.error f, s)
  | value {v : Value} {p : Prim} {f f' : Fault} {t : Store σ} (hp : p ∈ values)
      (hf : Yields host m enter scopes s p (.error f)) (ht : s.SameBut own t) :
      CallEnd host m enter scopes own slots values s (.ok v) (.error f', t)
  | call {v : Value} {vs : List Value} {t : Store σ}
      (hvs : List.Forall₂ (fun p v => Yields host m enter scopes s p (.ok v)) values vs) (ht : s.SameBut own t) :
      CallEnd host m enter scopes own slots values s (.ok v)
        ((Machine.apply host enter v (slots.map (Slot.pick .ofConstant vs))).run t)

section
variable {signature : Signature} {params : List Descriptor} {slots : List Slot} {c : Prim} {values : List Prim}

theorem CallEnd.direct {own : CellId → Prop} {s₁ : Store σ} {r : Except Fault Value}
    (hslots : (slots.filterMap Slot.binding?).Perm (List.range values.length)) (hplain : ∀ p ∈ values, p.Plain n)
    (hr : (m.evalWith host id enter scopes c).run s = (r, s₁)) :
    CallEnd host m enter scopes own slots values s₁ r
      ((m.evalWith host id enter scopes (.call c (slots.map (Slot.pick .const values)))).run s) := by
  have hrange (i : Nat) (hi : i ∈ slots.filterMap Slot.binding?) : i < values.length :=
    List.mem_range.1 (hslots.mem_iff.1 hi)
  have hyields : ∀ p ∈ values, ∃ r, Yields host m enter scopes s₁ p r := fun p hp => (hplain p hp).exists_yields
  have hargs : ∀ p ∈ slots.map (Slot.pick .const values), ∃ r, Yields host m enter scopes s₁ p r := by
    have hall : List.Forall₂ (fun p _ => ∃ r, Yields host m enter scopes s₁ p r) values values :=
      List.forall₂_same.2 hyields
    exact List.forall₂_same.1 (Slot.forall₂_pick (fun c => ⟨_, .const c⟩) hall hrange)
  rw [Machine.evalWith]
  cases r with
  | error f =>
    rw [run_bind_of_error hr]
    exact .callee f
  | ok v =>
    rw [run_bind_of_ok hr]
    rcases Yields.values_or_error hyields with ⟨vs, hvs⟩ | ⟨p, hp, f, hf, -⟩
    · rw [run_bind_of_ok (Yields.values (Slot.forall₂_pick .const hvs hrange))]
      exact .call hvs .refl
    · -- the value that fails is among the arguments
      rcases Yields.values_or_error hargs with ⟨vs, hvs⟩ | ⟨_, _, f', _, hrun⟩
      · obtain ⟨v, hv⟩ := Yields.of_mem hvs (Slot.mem_pick hslots hp)
        cases hf.unique hv
      · rw [run_bind_of_error hrun]
        exact .value hp hf .refl

/-- A call whose callee is found, and gives `v` also after the temporaries of the values have been set. -/
theorem CallEnd.kept {own : CellId → Prop} {v : Value} {labels : List (String × Ty)} {values' : List Prim}
    {temps : List Temp} {u u' : Supply} (hk : Temp.Kept labels values values' temps u u')
    (hrange : ∀ i ∈ slots.filterMap Slot.binding?, i < values.length) (hplain : ∀ p ∈ values, p.Plain n)
    (hplaced : Placed m scopes (fun d => own d ∧ d < t.cells.size) (temps.map (·.var))) (hn : (Temp.ids temps).Nodup)
    (hvars : ∀ x : VarId, x.val < n → ∀ d, m.cell? scopes x = some d → d < s.cells.size ∧ ¬ own d)
    (ht : s.SameBut own t)
    (hc : ∀ t₁, t.SameBut (Temp.cells m scopes temps) t₁ → Yields host m enter scopes t₁ c (.ok v)) :
    CallEnd host m enter scopes own slots values s (.ok v)
      ((runThen ((Temp.stores temps).map (m.evalWith host id enter scopes))
        (m.evalWith host id enter scopes (.call c (slots.map (Slot.pick .const values'))))).run t) := by
  have hown (d : CellId) (hd : Temp.cells m scopes temps d) : own d := (hplaced.of_cells hd).1
  have hback {p : Prim} (hp : p ∈ values) {r : Except Fault Value} (h : Yields host m enter scopes t p r) :
      Yields host m enter scopes s p r := by
    refine (hplain p hp).congr (fun x hx d hd => ?_) h
    exact (ht.cell d (hvars x hx d hd).1 (hvars x hx d hd).2).symm
  have hrun := hk.run_plain hplain (hplaced.imp fun _ hd => hd.2) hn
    (fun x hx d hd hc => (hvars x hx d hd).2 (hown d hc)) host enter
    (m.evalWith host id enter scopes (.call c (slots.map (Slot.pick .const values'))))
  rcases hrun with ⟨vs, t₁, hvs, hvs', hsame, hrun⟩ | ⟨p, hp, f, t₁, hf, hsame, hrun⟩
  · have hargs := Yields.values (Slot.forall₂_pick .const hvs' fun i hi => hk.length.symm ▸ hrange i hi)
    rw [hrun, Machine.evalWith, run_bind_of_ok (hc t₁ hsame), run_bind_of_ok hargs]
    refine .call ?_ (ht.trans (hsame.imp hown))
    exact ((List.forall₂_and_left ..).2 ⟨fun p hp => hp, hvs⟩).imp fun p v h => hback h.1 h.2
  · rw [hrun]
    exact .value hp (hback hp hf) (ht.trans (hsame.imp hown))

/-- A call with temporaries for its callee and the values of its bindings, from where their cells have been made. -/
theorem CallEnd.spilled {own : CellId → Prop} {labels : List (String × Ty)} {c' : Prim} {values' : List Prim}
    {temps : List Temp} {u u' : Supply} {r : Except Fault Value} {s₁ : Store σ}
    (hk : Temp.Kept labels (c :: values) (c' :: values') temps u u')
    (hrange : ∀ i ∈ slots.filterMap Slot.binding?, i < values.length) (hplain : ∀ p ∈ values, p.Plain n)
    (hplaced : Placed m scopes (fun d => own d ∧ d < s.cells.size) (temps.map (·.var))) (hn : (Temp.ids temps).Nodup)
    (hvars : ∀ x : VarId, x.val < n → ∀ d, m.cell? scopes x = some d → d < s.cells.size ∧ ¬ own d)
    (hr : (m.evalWith host id enter scopes c).run s = (r, s₁))
    (hsize : ∀ v, r = .ok v → s.cells.size ≤ s₁.cells.size) :
    CallEnd host m enter scopes own slots values s₁ r
      ((runThen ((Temp.stores temps).map (m.evalWith host id enter scopes))
        (m.evalWith host id enter scopes (.call c' (slots.map (Slot.pick .const values'))))).run s) := by
  cases hk with
  | const hk =>
    cases hr
    exact .kept hk hrange hplain hplaced hn hvars .refl fun _ _ => .const _
  | @held name ty _ _ _ _ temps u _ _ hk =>
    obtain ⟨d, hl, hd⟩ := hplaced.cell (u.fresh name ty).1 List.mem_cons_self
    cases r with
    | error f =>
      rw [run_stores_of_error hl _ hr]
      exact .callee f
    | ok v =>
      have hsize := hsize v rfl
      rw [run_stores_of_ok hl _ hr]
      refine .kept hk hrange hplain ?_ (List.nodup_cons.1 hn).2 (fun x hx e he => ?_) (.setAt hd.1 v) fun t ht => ?_
      · refine (hplaced.subset fun v hv => List.mem_cons_of_mem _ hv).imp fun e he => ⟨he.1, ?_⟩
        simpa using Nat.lt_of_lt_of_le he.2 hsize
      · exact ⟨Nat.lt_of_lt_of_le (hvars x hx e he).1 hsize, (hvars x hx e he).2⟩
      · exact .read_set hl (Nat.lt_of_lt_of_le hd.2 hsize) (hplaced.not_cells hn hl) ht

/-- How a lowered call runs. It may first make cells of its own; then it finds the callee, and ends as described. -/
theorem InvokeForm.callEnd {ty : Ty} {tys : List Ty} {p : Prim} {u u' : Supply}
    (hform : InvokeForm params ty tys c values p u u') (hty : ty.signature? = some signature)
    (hbound : signature.Bound params) (hslots : signature.slots? params = some slots)
    (hlen : values.length = params.length) (hplain : ∀ q ∈ values, q.Plain n) (hu : n ≤ u.var)
    (hvars : ∀ x : VarId, x.val < n → ∀ d, m.cell? scopes x = some d → d < s.cells.size) (host : Host σ)
    (enter : Enter σ) :
    ∃ scopes₁ s₀, s.SameBut (fun _ => False) s₀ ∧ (∀ x : VarId, x.val < n → m.cell? scopes₁ x = m.cell? scopes x) ∧
      ∀ r s₁, (m.evalWith host id enter scopes₁ c).run s₀ = (r, s₁) →
        (∀ v, r = .ok v → s₀.cells.size ≤ s₁.cells.size) →
        CallEnd host m enter scopes₁ (fun d => s.cells.size ≤ d ∧ d < s₀.cells.size) slots values s₁ r
          ((m.evalWith host id enter scopes p).run s) := by
  have hperm := hbound.perm hslots
  cases hform with
  | direct hs' hslots' _ ha =>
    cases hty.symm.trans hs'
    cases hslots.symm.trans hslots'
    cases hbound.arrange hslots hlen ▸ ha
    exact ⟨scopes, s, .refl, fun _ _ => rfl, fun r s₁ hr _ => .direct (hlen ▸ hperm) hplain hr⟩
  | @spilled _ _ callee' values' _ temps _ _ hs' hslots' _ hk ha =>
    cases hty.symm.trans hs'
    cases hslots.symm.trans hslots'
    have hlen' : values'.length = params.length := (Nat.succ.inj hk.length).trans hlen
    have hrange (i : Nat) (hi : i ∈ slots.filterMap Slot.binding?) : i < values.length :=
      hlen ▸ hbound.binding_lt hslots i hi
    cases hbound.arrange hslots hlen' ▸ ha
    have hnodup : (Temp.ids temps).Nodup := hk.ids_eq ▸ Supply.nodup_taken
    obtain ⟨scopes₁, s₀, hin, hrun⟩ :=
      Machine.entered_scope (m := m) host enter [] _ (fun _ => rfl) hk.ids_eq hu scopes s
    refine ⟨scopes₁, s₀, hin.same, hin.cell?_eq, fun r s₁ hr hsize => ?_⟩
    rw [hrun, List.append_nil]
    exact .spilled hk hrange hplain (hin.placed.imp fun d hd => ⟨hd, hd.2⟩) hnodup (hin.outside hvars) hr hsize

end

end ExprLowering
