import ExprLowering.Proofs.Bindings

/-!
# Copies of descriptors

A signature declares the descriptors that it holds, and any other whose fields equal those of the parameter at its
position. Defaults are compared as numbers (`Parameter.beq_iff`): no copy that has a NaN for its default is declared,
and a zero stands for the zero of the other sign. Apart from that, a call is made with copies of descriptors as with
the descriptors themselves (`Expr.mkInvoke_copied`).
-/

namespace ExprLowering

/-! ### Constants as numbers -/

theorem FloatBits.isNaN_of_isZero {x : FloatBits} (h : x.isZero = true) : x.isNaN = false := by
  rw [isZero, Bool.and_eq_true, beq_iff_eq, beq_iff_eq] at h
  rw [isNaN, h.2]
  simp

theorem FloatBits.numEq_iff {x y : FloatBits} :
    x.numEq y = true ↔ x = y ∧ x.isNaN = false ∨ x.kind = y.kind ∧ x.isZero = true ∧ y.isZero = true := by
  simp only [numEq, Bool.and_eq_true, Bool.or_eq_true, Bool.not_eq_true', beq_iff_eq]
  constructor
  · rintro ⟨⟨⟨hk, hx⟩, -⟩, heq | hzero⟩
    · exact .inl ⟨heq, hx⟩
    · exact .inr ⟨hk, hzero⟩
  · rintro (⟨rfl, hx⟩ | ⟨hk, hzero⟩)
    · exact ⟨⟨⟨rfl, hx⟩, hx⟩, .inl rfl⟩
    · exact ⟨⟨⟨hk, isNaN_of_isZero hzero.1⟩, isNaN_of_isZero hzero.2⟩, .inr hzero⟩

namespace Constant

def isNaN : Constant → Bool
  | lit (.float x) => x.isNaN
  | _ => false

/-- Two zeros of one width, each of either sign. -/
inductive Zeros : Constant → Constant → Prop
  | intro {x y : FloatBits} (hk : x.kind = y.kind) (hx : x.isZero = true) (hy : y.isZero = true) :
      Zeros (lit (.float x)) (lit (.float y))

/-- The constants are equal as numbers: they are identical and no NaN, or they are zeros. -/
def Matches (c d : Constant) : Prop :=
  c.identical d = true ∧ c.isNaN = false ∨ c.Zeros d

variable {c d : Constant}

theorem identical_self (c : Constant) : c.identical c = true := by
  cases c with
  | null t => exact Ty.beq_iff.2 rfl
  | lit l => exact beq_self_eq_true l

theorem zeros_lit {l l' : Literal} : Zeros (lit l) (lit l') ↔
    ∃ x y, l = .float x ∧ l' = .float y ∧ x.kind = y.kind ∧ x.isZero = true ∧ y.isZero = true := by
  constructor
  · rintro ⟨hk, hx, hy⟩
    exact ⟨_, _, rfl, rfl, hk, hx, hy⟩
  · rintro ⟨x, y, rfl, rfl, hk, hx, hy⟩
    exact ⟨hk, hx, hy⟩

theorem numEq_iff : c.numEq d = true ↔ c.Matches d := by
  cases c with
  | null t =>
    have hzeros : ¬ Zeros (null t) d := nofun
    cases d with
    | null u => simp [Matches, numEq, identical, isNaN, hzeros]
    | lit l => simp [Matches, numEq, identical, hzeros]
  | lit l =>
    cases d with
    | null u =>
      have hzeros : ¬ Zeros (lit l) (null u) := nofun
      simp [Matches, numEq, identical, hzeros]
    | lit l' =>
      rw [Matches, zeros_lit]
      cases l with
      | float x => cases l' <;> simp [numEq, identical, Literal.numEq, isNaN, FloatBits.numEq_iff]
      | _ => cases l' <;> simp [numEq, identical, Literal.numEq, isNaN]

theorem matches_self : c.Matches c ↔ c.isNaN = false := by
  refine ⟨?_, fun h => .inl ⟨identical_self c, h⟩⟩
  rintro (⟨-, h⟩ | ⟨-, hx, -⟩)
  · exact h
  · exact FloatBits.isNaN_of_isZero hx

theorem Matches.isNaN_right (h : c.Matches d) : d.isNaN = false := by
  rcases h with ⟨hid, hc⟩ | ⟨-, -, hy⟩
  · cases c with
    | null t =>
      cases d with
      | null u => rfl
      | lit l => cases hid
    | lit l =>
      cases d with
      | null u => cases hid
      | lit l' =>
        obtain rfl : l = l' := LawfulBEq.eq_of_beq hid
        exact hc
  · exact FloatBits.isNaN_of_isZero hy

end Constant

/-! ### Parameters and their copies -/

/-- The fields of `p` are those of `q`, with defaults that are equal as numbers. -/
structure Parameter.Matches (q p : Parameter) : Prop where
  owner : q.owner = p.owner
  position : q.position = p.position
  name : q.name = p.name
  ty : q.ty.nominal = p.ty.nominal
  default : Option.Rel Constant.Matches q.default p.default

section
variable {c d : Option Constant}

theorem Parameter.defaultEq_iff : defaultEq c d = true ↔ Option.Rel Constant.Matches c d := by
  cases c with
  | none => cases d <;> simp [defaultEq]
  | some c => cases d <;> simp [defaultEq, Constant.numEq_iff]

theorem Constant.any_isNaN_of_rel (h : Option.Rel Matches c d) : d.any (·.isNaN) = false := by
  cases h with
  | some hmatch => exact hmatch.isNaN_right
  | none => rfl

theorem Constant.rel_matches_self : Option.Rel Matches c c ↔ c.any (·.isNaN) = false := by
  refine ⟨any_isNaN_of_rel, fun h => ?_⟩
  cases c with
  | none => exact .none
  | some c => exact .some (matches_self.2 h)

end

theorem Parameter.beq_iff {q p : Parameter} : (q == p) = true ↔ q.Matches p := by
  show (q.owner == p.owner && q.position == p.position && q.name == p.name && q.ty == p.ty &&
    defaultEq q.default p.default) = true ↔ _
  simp only [Bool.and_eq_true, beq_iff_eq, Ty.beq_iff, defaultEq_iff]
  constructor
  · rintro ⟨⟨⟨⟨howner, hposition⟩, hname⟩, hty⟩, hdefault⟩
    exact ⟨howner, hposition, hname, hty, hdefault⟩
  · intro h
    exact ⟨⟨⟨⟨h.owner, h.position⟩, h.name⟩, h.ty⟩, h.default⟩

/-- A copy that has a NaN for its default. -/
def Descriptor.hasNaN : Descriptor → Bool
  | held _ _ => false
  | copy p => p.default.any (·.isNaN)

namespace Signature
variable {s : Signature} {i : Fin s.params.length} {d : Descriptor}

/-- A descriptor that the signature does not hold is declared for its fields. -/
theorem declares_iff_matches (hd : d.isHeldBy s = false) : s.Declares i d ↔ (s.param i).Matches d.parameter := by
  rw [← Parameter.beq_iff]
  refine ⟨fun h => ?_, .equal⟩
  cases h with
  | own =>
    rw [Descriptor.isHeldBy_iff.2 ⟨i, rfl⟩] at hd
    cases hd
  | equal heq => exact heq

/-- A copy of a descriptor that is declared is declared too, unless its default is a NaN. -/
theorem Declares.copy_iff (h : s.Declares i d) :
    s.Declares i (.copy d.parameter) ↔ (Descriptor.copy d.parameter).hasNaN = false := by
  rw [declares_iff_matches rfl]
  cases h with
  | own =>
    exact ⟨fun h => Constant.any_isNaN_of_rel h.default,
      fun h => ⟨rfl, rfl, rfl, rfl, Constant.rel_matches_self.2 h⟩⟩
  | equal heq =>
    have hmatch := Parameter.beq_iff.1 heq
    exact iff_of_true hmatch (Constant.any_isNaN_of_rel hmatch.default)

theorem slots?_congr {ds ds' : List Descriptor} (h : ds'.map (·.position) = ds.map (·.position)) :
    s.slots? ds' = s.slots? ds := by
  have hfind (ds : List Descriptor) (n : Nat) :
      ds.findIdx? (·.position == n) = (ds.map (·.position)).findIdx? (· == n) := by
    rw [List.findIdx?_map]
    rfl
  have hslot : slot? ds' = slot? ds := by
    funext p
    rw [slot?, slot?, hfind, hfind ds, h]
  rw [slots?, slots?, hslot]

end Signature

/-! ### Calls with copies -/

/-- A binding, with its own descriptor or with a copy of it. -/
inductive Binding.Copied : Binding → Binding → Prop
  | kept (b : Binding) : Copied b b
  | copied {b b' : Binding} (hparam : b'.param = .copy b.param.parameter) (hvalue : b'.value = b.value) : Copied b b'

namespace Binding
variable {bindings bindings' : List Binding}

theorem Copied.parameter {b b' : Binding} (h : b.Copied b') : b'.param.parameter = b.param.parameter := by
  cases h with
  | kept => rfl
  | copied hparam => rw [hparam]; rfl

theorem Copied.value {b b' : Binding} (h : b.Copied b') : b'.value = b.value := by
  cases h with
  | kept => rfl
  | copied _ hvalue => exact hvalue

theorem Copied.positions (h : List.Forall₂ Copied bindings bindings') :
    (bindings'.map (·.param)).map (·.position) = (bindings.map (·.param)).map (·.position) := by
  induction h with
  | nil => rfl
  | cons hb _ ih =>
    simp only [List.map_cons, List.cons.injEq]
    exact ⟨congrArg Parameter.position hb.parameter, ih⟩

theorem Copied.values (h : List.Forall₂ Copied bindings bindings') :
    bindings'.map (·.value) = bindings.map (·.value) := by
  induction h with
  | nil => rfl
  | cons hb _ ih => rw [List.map_cons, List.map_cons, hb.value, ih]

end Binding

namespace Signature
variable {s : Signature} {bindings bindings' : List Binding}

/-- Of the bindings of a call, with copies for some of their descriptors, those are declared that have no NaN. -/
theorem Takes.declares_copied (h : s.Takes (bindings.map (·.param)))
    (hcopied : List.Forall₂ Binding.Copied bindings bindings') {b' : Binding} (hb' : b' ∈ bindings') :
    (∃ i, s.Declares i b'.param) ↔ b'.param.hasNaN = false := by
  obtain ⟨n, hn⟩ := List.mem_iff_getElem?.1 hb'
  obtain ⟨b, hb, hpair⟩ := exists_of_forall₂ hcopied.flip hn
  have hmem := List.mem_of_getElem? hb
  obtain ⟨i, hi⟩ := h.fit.declared b.param (List.mem_map_of_mem hmem)
  cases hpair with
  | kept =>
    refine iff_of_true ⟨i, hi⟩ ?_
    cases hparam : b'.param with
    | held t j => rfl
    | copy p =>
      have hcopy := hi.copy_iff
      rw [hparam] at hcopy hi
      exact hcopy.1 hi
  | copied hparam =>
    rw [hparam, ← hi.copy_iff]
    refine ⟨fun h => ?_, fun h => ⟨i, h⟩⟩
    obtain ⟨k, hk⟩ := h
    obtain rfl : k = i := Fin.ext (hk.position.symm.trans hi.position)
    exact hk

theorem Takes.fit_copied (h : s.Takes (bindings.map (·.param)))
    (hcopied : List.Forall₂ Binding.Copied bindings bindings') {before after : List Binding}
    (happend : bindings' = before ++ after) (hnan : ∀ b ∈ before, b.param.hasNaN = false) :
    s.Fit (before.map (·.param)) := by
  have hpositions := Binding.Copied.positions hcopied
  subst happend
  refine ⟨List.forall_mem_map.2 fun b hb => ?_, ?_⟩
  · exact (h.declares_copied hcopied (List.mem_append_left _ hb)).2 (hnan b hb)
  · have hdistinct := h.fit.distinct
    rw [← hpositions, List.map_append, List.map_append] at hdistinct
    exact hdistinct.of_append_left

end Signature

/-- A call is made with copies of descriptors as with the descriptors, with the same slots, unless the default in a
copy is a NaN; it is then refused for the first such copy. A descriptor that the signature does not hold is declared
only if its fields are those of the parameter at its position, where defaults are equal as numbers, and else refused. -/
theorem Expr.mkInvoke_copied {callee : Expr} {bindings bindings' : List Binding} {stamp : Stamp} {r : Expr × Stamp}
    {s : Signature} (hmake : mkInvoke callee bindings stamp = .ok r) (hs : callee.ty = .fn s)
    (hcopied : List.Forall₂ Binding.Copied bindings bindings') :
    s.slots? (bindings'.map (·.param)) = s.slots? (bindings.map (·.param)) ∧
    ((∀ b ∈ bindings', b.param.hasNaN = false) →
      mkInvoke callee bindings' stamp =
        .ok (node stamp (.invoke (bindings'.map (·.param))) (callee :: bindings.map (·.value)), stamp + 1)) ∧
    (∀ before b after, bindings' = before ++ b :: after → (∀ c ∈ before, c.param.hasNaN = false) →
      b.param.hasNaN = true → mkInvoke callee bindings' stamp = .error (.notAMember b.param.name s.name)) ∧
    (∀ d, d.isHeldBy s = false → ((s.declared? d).isSome ↔ ∃ i, (s.param i).Matches d.parameter)) ∧
    ∀ before b after, s.Fit (before.map (·.param)) → b.param.isHeldBy s = false →
      (∀ i, ¬ (s.param i).Matches b.param.parameter) →
      mkInvoke callee (before ++ b :: after) stamp = .error (.notAMember b.param.name s.name) := by
  obtain ⟨⟨s', hs', htakes⟩, -⟩ := (mkInvoke_eq_ok ..).1 hmake
  cases hs.symm.trans hs'
  have hpositions := Binding.Copied.positions hcopied
  refine ⟨Signature.slots?_congr hpositions, fun hnan => ?_, ?_, fun d hd => ?_, ?_⟩
  · refine (mkInvoke_eq_ok ..).2 ⟨⟨s, hs, ?_, fun i hi => ?_⟩, ?_⟩
    · exact htakes.fit_copied hcopied (List.append_nil _).symm hnan
    · exact htakes.complete i ⟨hpositions ▸ hi.1, hi.2⟩
    · rw [Binding.Copied.values hcopied]
  · intro before b after happend hbefore hb
    refine (mkInvoke_eq_error ..).2 (.inr ⟨s, hs, ?_⟩)
    refine .notMember (by rw [happend, List.map_append, List.map_cons])
      (htakes.fit_copied hcopied happend hbefore) (not_exists.1 fun hd => ?_)
    have hmem : b ∈ bindings' := happend ▸ List.mem_append_right _ List.mem_cons_self
    rw [htakes.declares_copied hcopied hmem, hb] at hd
    cases hd
  · rw [Signature.declared?_isSome]
    exact exists_congr fun i => Signature.declares_iff_matches hd
  · intro before b after hbefore hb hmatch
    refine (mkInvoke_eq_error ..).2 (.inr ⟨s, hs, ?_⟩)
    refine .notMember (by rw [List.map_append, List.map_cons]) hbefore fun i hi => ?_
    exact hmatch i ((Signature.declares_iff_matches hb).1 hi)

/-! ### A zero and a NaN

The function `f(x = 0, y = NaN)` of two floats. -/

namespace FloatDefaults

def zero : Constant := .lit (.float (.double 0))
def negativeZero : Constant := .lit (.float (.double 0x8000000000000000))
def nan : Constant := .lit (.float (.double 0x7ff8000000000000))

def signature : Signature :=
  ⟨⟨"f"⟩, "f", [⟨"x", .float .f64, some zero⟩, ⟨"y", .float .f64, some nan⟩], .float .f64⟩

def f : Var := ⟨⟨0⟩, "f", .fn signature⟩

def one : Expr := .const (.lit (.float (.one .f64)))

/-- `x: 1` -/
def first : Binding := ⟨.held signature ⟨0, by decide⟩, one, rfl⟩

/-- `y: 1` -/
def last : Binding := ⟨.held signature ⟨1, by decide⟩, one, rfl⟩

def firstCopy : Binding := ⟨.copy first.param.parameter, one, rfl⟩
def lastCopy : Binding := ⟨.copy last.param.parameter, one, rfl⟩

/-- `x: 1`, by a descriptor with the other zero -/
def firstSigned : Binding := ⟨.copy ⟨⟨"f"⟩, 0, "x", .float .f64, some negativeZero⟩, one, rfl⟩

end FloatDefaults

open FloatDefaults in
/-- The call `f(x: 1, y: 1)` is made with a copy for `x`, and refused with copies for both. -/
theorem Expr.mkInvoke_copied_floats :
    ∃ e, mkInvoke (.var f) [first, last] 0 = .ok (e, 1) ∧
      (∃ e', mkInvoke (.var f) [firstCopy, last] 0 = .ok (e', 1)) ∧
      mkInvoke (.var f) [firstCopy, lastCopy] 0 = .error (.notAMember "y" "f") := by
  obtain ⟨e, hmake⟩ : ∃ e, mkInvoke (.var f) [first, last] 0 = .ok (e, 1) := ⟨_, rfl⟩
  have hfirst : first.Copied firstCopy := .copied rfl rfl
  have hlast : last.Copied lastCopy := .copied rfl rfl
  obtain ⟨-, hmade, -⟩ := mkInvoke_copied hmake rfl (.cons hfirst (.cons (.kept last) .nil))
  obtain ⟨-, -, hrefused, -⟩ := mkInvoke_copied hmake rfl (.cons hfirst (.cons hlast .nil))
  refine ⟨e, hmake, ⟨_, hmade ?_⟩, hrefused [firstCopy] lastCopy [] rfl ?_ rfl⟩
  · simp only [List.forall_mem_cons]
    exact ⟨rfl, rfl, fun _ h => absurd h List.not_mem_nil⟩
  · simp only [List.forall_mem_singleton]
    rfl

open FloatDefaults in
/-- A copy of the descriptor of `y` is refused, and one of the descriptor of `x` with the other zero is not. -/
theorem Expr.mkInvoke_floatDefault :
    (∃ r, mkInvoke (.var f) [last] 0 = .ok r) ∧
      mkInvoke (.var f) [lastCopy] 0 = .error (.notAMember "y" "f") ∧
      zero.identical negativeZero = false ∧ ∃ r, mkInvoke (.var f) [firstSigned] 0 = .ok r :=
  ⟨⟨_, rfl⟩, rfl, by decide, ⟨_, rfl⟩⟩

end ExprLowering
