import ExprLowering.Proofs.WellMade

/-!
# A traversal shares what it did not change

A traversal may put other expressions in the place of constants and variables and leave the rest to the defaults.
Then a node above a changed leaf is made anew, with the same head, and every other node is the very node that was
there before (`traverse_shares`). A node is told from others by its stamp, and the stamps drawn from now on differ
from those of `e` if `e` is older than the next stamp.

The account of one traversal is `Rewritten`, which follows the expression; what became of the node at some position
is read off it by `Rewritten.at_eq`.
-/

namespace ExprLowering

namespace Expr

/-- The subexpression at a position: the numbers of the parts to go to, one after the other. -/
def at? : Expr → List Nat → Option Expr
  | e, [] => some e
  | e, i :: path => e.parts[i]?.bind (at? · path)

/-- Every node was made before the stamp was drawn. -/
def Older (n : Stamp) (e : Expr) : Prop :=
  ∀ path stamp head parts, e.at? path = some (node stamp head parts) → stamp < n

/-- The image of every leaf, found by its position, is the same as the leaf. -/
def LeavesSame (image : List Nat → Expr) (e : Expr) : Prop :=
  ∀ path leaf, e.at? path = some leaf → leaf.isLeaf = true → (image path).same leaf = true

/-! ### Positions -/

section
variable {image : List Nat → Expr} {stamp : Stamp} {head : Head} {parts : List Expr} {e d p : Expr}

theorem at?_part {i : Nat} {path : List Nat} (hp : parts[i]? = some p) (h : p.at? path = some d) :
    (node stamp head parts).at? (i :: path) = some d := by
  simp only [at?, Expr.parts, hp, Option.bind_some, h]

/-- A position below a node is a position below one of its parts. -/
theorem at?_cons_eq_some {i : Nat} {path : List Nat} (h : e.at? (i :: path) = some d) :
    ∃ p, e.parts[i]? = some p ∧ p.at? path = some d :=
  Option.bind_eq_some_iff.1 h

theorem Older.stamp_lt {n : Stamp} (h : (node stamp head parts).Older n) : stamp < n :=
  h [] stamp head parts rfl

theorem Older.part {n : Stamp} (h : (node stamp head parts).Older n) (hp : p ∈ parts) : p.Older n := by
  obtain ⟨i, hi⟩ := List.mem_iff_getElem?.1 hp
  intro path stamp' head' parts' hat
  exact h (i :: path) stamp' head' parts' (at?_part hi hat)

theorem Older.mono {m n : Stamp} (h : e.Older m) (hmn : m ≤ n) : e.Older n :=
  fun path stamp head parts hat => Nat.lt_of_lt_of_le (h path stamp head parts hat) hmn

theorem at?_of_isLeaf {path : List Nat} (hl : e.isLeaf = true) (h : e.at? path = some d) : path = [] ∧ d = e := by
  rcases path with _ | ⟨i, path⟩
  · exact ⟨rfl, (Option.some.inj h).symm⟩
  · obtain ⟨p, hp, -⟩ := at?_cons_eq_some h
    cases e with
    | const | var => simp [Expr.parts] at hp
    | node => cases hl

theorem Older.leaf {n : Stamp} (hl : e.isLeaf = true) : e.Older n := by
  intro path stamp head parts hat
  obtain ⟨-, rfl⟩ := at?_of_isLeaf hl hat
  cases hl

theorem Older.node {n : Stamp} (hs : stamp < n) (hp : ∀ p ∈ parts, p.Older n) : (node stamp head parts).Older n := by
  rintro (_ | ⟨i, path⟩) stamp' head' parts' hat
  · cases hat
    exact hs
  · obtain ⟨p, hi, hat⟩ := at?_cons_eq_some hat
    exact hp p (List.mem_of_getElem? hi) path stamp' head' parts' hat

theorem leavesSame_leaf (hl : e.isLeaf = true) : e.LeavesSame image ↔ (image []).same e = true := by
  constructor
  · intro h
    exact h [] e rfl hl
  · intro h path leaf hat _
    obtain ⟨rfl, rfl⟩ := at?_of_isLeaf hl hat
    exact h

theorem leavesSame_node : (node stamp head parts).LeavesSame image ↔
    ∀ (i : Nat) (p : Expr), parts[i]? = some p → p.LeavesSame fun path => image (i :: path) := by
  constructor
  · intro h i p hp path leaf hat hl
    exact h (i :: path) leaf (at?_part hp hat) hl
  · rintro h (_ | ⟨i, path⟩) leaf hat hl
    · cases hat
      cases hl
    · obtain ⟨p, hp, hat⟩ := at?_cons_eq_some hat
      exact h i p hp path leaf hat hl

end

/-! ### The same expression -/

theorem same_refl (e : Expr) : e.same e = true := by
  cases e with
  | const c => cases c <;> simp [same, Constant.identical, Ty.beq_iff]
  | var v => simp [same, BEq.beq]
  | node => simp [same]

theorem sameAll_iff {ds es : List Expr} : sameAll ds es = true ↔
    ds.length = es.length ∧ ∀ (i : Nat) (d e : Expr), ds[i]? = some d → es[i]? = some e → d.same e = true := by
  induction ds generalizing es with
  | nil => cases es <;> simp [sameAll]
  | cons d ds ih =>
    rcases es with _ | ⟨e, es⟩
    · simp [sameAll]
    · rw [sameAll, Bool.and_eq_true, ih]
      constructor
      · rintro ⟨hd, hlen, hds⟩
        refine ⟨congrArg (· + 1) hlen, ?_⟩
        rintro (_ | i) d' e' hd' he'
        · cases hd'
          cases he'
          exact hd
        · exact hds i d' e' hd' he'
      · rintro ⟨hlen, h⟩
        exact ⟨h 0 d e rfl rfl, Nat.succ.inj hlen, fun i d' e' => h (i + 1) d' e'⟩

theorem sameAll_refl (es : List Expr) : sameAll es es = true :=
  sameAll_iff.2 ⟨rfl, fun i d e hd he => by
    obtain rfl : d = e := Option.some.inj (hd.symm.trans he)
    exact same_refl d⟩

/-! ### The account of a traversal -/

/-- What became of an expression, where new nodes have stamps from `lo` on and before `hi`. -/
inductive Rewritten (lo hi : Stamp) : (List Nat → Expr) → Expr → Expr → Prop
  | replaced {image : List Nat → Expr} {e : Expr} (hl : e.isLeaf = true) : Rewritten lo hi image e (image [])
  /-- A leaf that is bound to a parameter stays if its image is the same. -/
  | left {image : List Nat → Expr} {e : Expr} (hl : e.isLeaf = true) (hs : (image []).same e = true) :
      Rewritten lo hi image e e
  /-- A leaf that becomes a lambda is quoted if it is an element of an array of quoted code. -/
  | quoted {image : List Nat → Expr} {e : Expr} {stamp : Stamp} (hl : e.isLeaf = true)
      (hs : (image []).same e = false) : Rewritten lo hi image e (node stamp .quote [image []])
  | kept {image : List Nat → Expr} {stamp : Stamp} {head : Head} {parts : List Expr}
      (h : (node stamp head parts).LeavesSame image) :
      Rewritten lo hi image (node stamp head parts) (node stamp head parts)
  | remade {image : List Nat → Expr} {stamp stamp' : Stamp} {head : Head} {parts parts' : List Expr}
      (hc : ¬ (node stamp head parts).LeavesSame image) (hlo : lo ≤ stamp') (hhi : stamp' < hi)
      (hlen : parts'.length = parts.length)
      (hparts : ∀ (i : Nat) (p p' : Expr), parts[i]? = some p → parts'[i]? = some p' →
        Rewritten lo hi (fun path => image (i :: path)) p p') :
      Rewritten lo hi image (node stamp head parts) (node stamp' head parts')

namespace Rewritten
variable {lo hi : Stamp} {image : List Nat → Expr} {e e' d : Expr}

theorem widen {lo' hi' : Stamp} (h : Rewritten lo hi image e e') (hlo : lo' ≤ lo) (hhi : hi ≤ hi') :
    Rewritten lo' hi' image e e' := by
  induction h with
  | replaced hl => exact .replaced hl
  | left hl hs => exact .left hl hs
  | quoted hl hs => exact .quoted hl hs
  | kept h => exact .kept h
  | remade hc h₁ h₂ hlen _ ih =>
    exact .remade hc (Nat.le_trans hlo h₁) (Nat.lt_of_lt_of_le h₂ hhi) hlen ih

theorem self (h : e.LeavesSame image) : Rewritten lo hi image e e := by
  cases e with
  | const c => exact .left rfl ((leavesSame_leaf rfl).1 h)
  | var v => exact .left rfl ((leavesSame_leaf rfl).1 h)
  | node => exact .kept h

/-- The result is the same just if no leaf changed. -/
theorem same_iff (h : Rewritten lo hi image e e') (hold : e.Older lo) :
    e'.same e = true ↔ e.LeavesSame image := by
  cases h with
  | replaced hl => rw [leavesSame_leaf hl]
  | left hl hs => simp only [leavesSame_leaf hl, hs, same_refl]
  | quoted hl hs =>
    rw [leavesSame_leaf hl, hs]
    cases e with
    | const | var => simp [same]
    | node => cases hl
  | kept h => simp only [h, same_refl]
  | remade hc hlo =>
    have hne := Nat.ne_of_gt (Nat.lt_of_lt_of_le hold.stamp_lt hlo)
    simp only [same, beq_iff_eq, hne, hc]

theorem at_eq {path : List Nat} (h : Rewritten lo hi image e e') (hat : e.at? path = some d) :
    ∃ d', e'.at? path = some d' ∧ Rewritten lo hi (fun below => image (path ++ below)) d d' := by
  induction path generalizing image e e' with
  | nil =>
    cases hat
    exact ⟨e', rfl, h⟩
  | cons i path ih =>
    obtain ⟨p, hp, hbelow⟩ := at?_cons_eq_some hat
    cases h with
    | replaced hl | left hl _ | quoted hl _ => exact absurd (at?_of_isLeaf hl hat).1 (List.cons_ne_nil i path)
    | kept h =>
      obtain ⟨d', hd', hr⟩ := ih (self (leavesSame_node.1 h i p hp)) hbelow
      exact ⟨d', at?_part hp hd', hr⟩
    | @remade _ _ _ _ _ parts' hc _ _ hlen hparts =>
      obtain ⟨p', hp'⟩ : ∃ p', parts'[i]? = some p' := by
        have hi := (List.getElem?_eq_some_iff.1 hp).1
        exact ⟨_, List.getElem?_eq_getElem (hlen ▸ hi)⟩
      obtain ⟨d', hd', hr⟩ := ih (hparts i p p' hp hp') hbelow
      exact ⟨d', at?_part hp' hd', hr⟩

end Rewritten

/-! ### New nodes -/

section
variable {element : Ty} {lo : Stamp} {image : List Nat → Expr} {stamp s s' : Stamp} {head : Head}
  {parts new : List Expr} {e e' held : Expr}

theorem make_stamp (h : make head new s = .ok (node stamp head parts, s')) : s ≤ stamp ∧ stamp < s' := by
  obtain ⟨_, t, hlift, h⟩ := build_bind_eq_ok.1 h
  obtain ⟨-, rfl⟩ := build_liftM_eq_ok.1 hlift
  cases head with
  | array element bounds =>
    obtain ⟨held, t, hheld, h⟩ := build_bind_eq_ok.1 h
    cases h
    obtain ⟨-, -, rfl⟩ := storeAll_eq_ok.1 hheld
    exact ⟨Nat.le_add_right _ _, Nat.lt_succ_self _⟩
  | _ =>
    cases h
    exact ⟨Nat.le_refl _, Nat.lt_succ_self _⟩

/-- Only a leaf can come to need quotation: a composite element has the type it had before, if it is a lambda. -/
theorem Rewritten.stored {hi : Stamp} (h : Rewritten lo hi image e e') (hfits : element.accepts e.ty = true)
    (hheld : StoredAs element e' held) : Rewritten lo hi image e held := by
  rcases hheld with ⟨-, rfl⟩ | ⟨hrefused, hquote, stamp, rfl⟩
  · exact h
  · have hlambda : e'.isLambda = true := by
      unfold needsQuote at hquote
      split at hquote
      · exact (Bool.and_eq_true_iff.1 hquote).1
      · cases hquote
    cases h with
    | replaced hl =>
      refine .quoted hl ?_
      cases e with
      | const | var =>
        cases himage : image [] with
        | node => rfl
        | const | var => simp [himage, isLambda] at hlambda
      | node => cases hl
    | left | kept =>
      rw [hfits] at hrefused
      cases hrefused
    | quoted => cases hlambda
    | @remade _ _ _ head =>
      cases head with
      | lambda signature params =>
        simp only [ty] at hfits hrefused
        rw [hfits] at hrefused
        cases hrefused
      | _ => cases hlambda

theorem Rewritten.of_make (hw : WellMade (node stamp head parts)) (hlo : lo ≤ s)
    (hc : ¬ (node stamp head parts).LeavesSame image) (hlen : new.length = parts.length)
    (hparts : ∀ (i : Nat) (p p' : Expr), parts[i]? = some p → new[i]? = some p' →
      Rewritten lo s (fun path => image (i :: path)) p p')
    (h : make head new s = .ok (e', s')) : Rewritten lo s' image (node stamp head parts) e' := by
  obtain ⟨-, stamp', held, hheld, rfl⟩ := make_eq_ok h
  obtain ⟨hle, hlt⟩ := make_stamp h
  have hss' : s ≤ s' := Nat.le_trans hle (Nat.le_of_lt hlt)
  cases head with
  | array element bounds =>
    have hheld : List.Forall₂ (StoredAs element) new held := hheld
    refine .remade hc (Nat.le_trans hlo hle) hlt (hheld.length_eq.symm.trans hlen) fun i p p' hp hp' => ?_
    obtain ⟨hi, hpi⟩ := List.getElem?_eq_some_iff.1 hp
    have hnew : new[i]? = some new[i] := List.getElem?_eq_getElem (hlen ▸ hi)
    have hstored : StoredAs element new[i] p' := by
      obtain ⟨hi', rfl⟩ := List.getElem?_eq_some_iff.1 hp'
      exact hheld.get (hlen ▸ hi) hi'
    have hfits := hw.fits p (List.mem_of_getElem? hp)
    exact ((hparts i p _ hp hnew).stored hfits hstored).widen (Nat.le_refl lo) hss'
  | _ =>
    cases hheld
    exact .remade hc (Nat.le_trans hlo hle) hlt hlen fun i p p' hp hp' =>
      (hparts i p p' hp hp').widen (Nat.le_refl lo) hss'

end

/-! ### Replacing leaves -/

section
variable {σ : Type} {f : Constant → TraversalM σ Expr} {g : Var → TraversalM σ Expr} {s s' : TraversalState σ}

/-- The image of each leaf is what `f` or `g` once gave for it. -/
def Answered (f : Constant → TraversalM σ Expr) (g : Var → TraversalM σ Expr) (image : List Nat → Expr)
    (e : Expr) : Prop :=
  (∀ path c, e.at? path = some (const c) → ∃ s s', (f c).run s = (.ok (image path), s')) ∧
    ∀ path v, e.at? path = some (var v) → ∃ s s', (g v).run s = (.ok (image path), s')

theorem answered_node {image : List Nat → Expr} {stamp : Stamp} {head : Head} {parts : List Expr}
    (h : ∀ (i : Nat) (p : Expr), parts[i]? = some p → Answered f g (fun path => image (i :: path)) p) :
    Answered f g image (node stamp head parts) := by
  constructor
  · rintro (_ | ⟨i, path⟩) c hat
    · cases hat
    · obtain ⟨p, hp, hat⟩ := at?_cons_eq_some hat
      exact (h i p hp).1 path c hat
  · rintro (_ | ⟨i, path⟩) v hat
    · cases hat
    · obtain ⟨p, hp, hat⟩ := at?_cons_eq_some hat
      exact (h i p hp).2 path v hat

/-- What a traversal of `e`, from one state to another, made of it. -/
def Taken (f : Constant → TraversalM σ Expr) (g : Var → TraversalM σ Expr) (s s' : TraversalState σ)
    (e e' : Expr) : Prop :=
  s.stamp ≤ s'.stamp ∧ ∃ image, Answered f g image e ∧ Rewritten s.stamp s'.stamp image e e'

theorem rebind_taken {param : Descriptor} {e new e' : Expr} (hold : e.Older s.stamp) (hnew : Taken f g s s' e new)
    {s'' : TraversalState σ} (h : (rebind param e new).run s' = (.ok e', s'')) : Taken f g s s'' e e' := by
  obtain ⟨hle, image, hanswered, hrewritten⟩ := hnew
  unfold rebind at h
  split_ifs at h with hs
  · cases h
    exact ⟨hle, image, hanswered, .self ((hrewritten.same_iff hold).1 hs)⟩
  · obtain ⟨_, _, hcheck, h⟩ := run_bind_eq_ok.1 h
    obtain ⟨-, rfl⟩ := Prod.mk.inj hcheck
    cases h
    exact ⟨hle, image, hanswered, hrewritten⟩

/-- The images below the first part and below the others. -/
def joinImages (first rest : List Nat → Expr) : List Nat → Expr
  | 0 :: path => first path
  | (i + 1) :: path => rest (i :: path)
  | [] => first []

theorem traverseParts_taken {es es' : List Expr} {roles : List (Option Descriptor)}
    (ih : ∀ e ∈ es, ∀ {s e' s'}, e.Older s.stamp → (e.traverse { const := f, var := g }).run s = (.ok e', s') →
      Taken f g s s' e e')
    (hold : ∀ e ∈ es, e.Older s.stamp)
    (h : (traverseParts { const := f, var := g } roles es).run s = (.ok es', s')) :
    s.stamp ≤ s'.stamp ∧ es'.length = es.length ∧ ∃ image : List Nat → Expr,
      ∀ (i : Nat) (e e' : Expr), es[i]? = some e → es'[i]? = some e' →
        Answered f g (fun path => image (i :: path)) e ∧
        Rewritten s.stamp s'.stamp (fun path => image (i :: path)) e e' := by
  induction es generalizing roles s es' with
  | nil =>
    cases h
    exact ⟨Nat.le_refl _, rfl, fun _ => const (.null .void), by simp⟩
  | cons e es ihs =>
    have hself := hold e (by simp)
    obtain ⟨new, rest, s₁, hpart, hrest, rfl⟩ : ∃ new rest s₁, Taken f g s s₁ e new ∧
        (traverseParts { const := f, var := g } roles.tail es).run s₁ = (.ok rest, s') ∧ es' = new :: rest := by
      rw [traverseParts] at h
      split at h
      · obtain ⟨new, s₁, hnew, h⟩ := run_bind_eq_ok.1 h
        obtain ⟨rest, _, hrest, h⟩ := run_bind_eq_ok.1 h
        cases h
        exact ⟨new, rest, s₁, ih e (by simp) hself hnew, hrest, rfl⟩
      · obtain ⟨_, _, henter, h⟩ := run_bind_eq_ok.1 h
        cases henter
        obtain ⟨value, _, hvalue, h⟩ := run_bind_eq_ok.1 h
        obtain ⟨new, s₁, hnew, h⟩ := run_bind_eq_ok.1 h
        obtain ⟨rest, _, hrest, h⟩ := run_bind_eq_ok.1 h
        cases h
        exact ⟨new, rest, s₁, rebind_taken hself (ih e (by simp) hself hvalue) hnew, hrest, rfl⟩
    obtain ⟨hle₁, first, hanswered, hfirst⟩ := hpart
    obtain ⟨hle₂, hlen, others, hothers⟩ := ihs (fun e he => ih e (by simp [he]))
      (fun e he => (hold e (by simp [he])).mono hle₁) hrest
    refine ⟨Nat.le_trans hle₁ hle₂, congrArg (· + 1) hlen, joinImages first others, ?_⟩
    rintro (_ | i) d d' hd hd'
    · cases hd
      cases hd'
      exact ⟨hanswered, hfirst.widen (Nat.le_refl _) hle₂⟩
    · obtain ⟨ha, hr⟩ := hothers i d d' hd hd'
      exact ⟨ha, hr.widen hle₁ (Nat.le_refl _)⟩

theorem ofBuild_eq_ok {α : Type} {b : Build α} {a : α}
    (h : (TraversalM.ofBuild b : TraversalM σ α).run s = (.ok a, s')) :
    ∃ stamp, b s.stamp = .ok (a, stamp) ∧ s' = { s with stamp } := by
  rcases hb : b s.stamp with e | ⟨a', stamp⟩
  · simp only [TraversalM.ofBuild, run_mk, hb] at h
    cases h
  · simp only [TraversalM.ofBuild, run_mk, hb] at h
    cases h
    exact ⟨stamp, rfl, rfl⟩

theorem update_taken {stamp : Stamp} {head : Head} {parts new : List Expr} {e' : Expr} {image : List Nat → Expr}
    {lo : Stamp} {t t' : Stamp} (hw : WellMade (node stamp head parts)) (hold : (node stamp head parts).Older lo)
    (hlo : lo ≤ t) (hlen : new.length = parts.length)
    (hparts : ∀ (i : Nat) (p p' : Expr), parts[i]? = some p → new[i]? = some p' →
      Rewritten lo t (fun path => image (i :: path)) p p')
    (h : (node stamp head parts).update new t = .ok (e', t')) :
    t ≤ t' ∧ Rewritten lo t' image (node stamp head parts) e' := by
  have hsame : sameAll new parts = true ↔ (node stamp head parts).LeavesSame image := by
    rw [sameAll_iff, leavesSame_node]
    constructor
    · rintro ⟨-, hall⟩ i p hp
      have hi := (List.getElem?_eq_some_iff.1 hp).1
      have hnew : new[i]? = some new[i] := List.getElem?_eq_getElem (hlen ▸ hi)
      exact ((hparts i p _ hp hnew).same_iff (hold.part (List.mem_of_getElem? hp))).1 (hall i _ p hnew hp)
    · intro hall
      refine ⟨hlen, fun i p' p hp' hp => ?_⟩
      exact ((hparts i p p' hp hp').same_iff (hold.part (List.mem_of_getElem? hp))).2 (hall i p hp)
  rw [update] at h
  split_ifs at h with hs
  · cases h
    exact ⟨Nat.le_refl _, .kept (hsame.1 hs)⟩
  · obtain ⟨-, stamp', held, -, rfl⟩ := make_eq_ok h
    obtain ⟨hle, hlt⟩ := make_stamp h
    exact ⟨Nat.le_trans hle (Nat.le_of_lt hlt), .of_make hw hlo (fun hl => hs (hsame.2 hl)) hlen hparts h⟩

theorem traverse_taken (hf : ∀ c s, s.stamp ≤ ((f c).run s).2.stamp) (hg : ∀ v s, s.stamp ≤ ((g v).run s).2.stamp)
    (e : Expr) : WellMade e → ∀ {s e' s'}, e.Older s.stamp →
      (e.traverse { const := f, var := g }).run s = (.ok e', s') → Taken f g s s' e e' := by
  induction e using induction_parts with
  | const c =>
    intro _ s e' s' _ h
    rw [traverse] at h
    have hrun : (f c).run s = (.ok e', s') := h
    refine ⟨by simpa [hrun] using hf c s, fun _ => e', ⟨?_, ?_⟩, .replaced rfl⟩
    · intro path c' hat
      obtain ⟨-, hc⟩ := at?_of_isLeaf rfl hat
      cases hc
      exact ⟨s, s', hrun⟩
    · intro path v hat
      cases (at?_of_isLeaf rfl hat).2
  | var v =>
    intro _ s e' s' _ h
    rw [traverse] at h
    have hrun : (g v).run s = (.ok e', s') := h
    refine ⟨by simpa [hrun] using hg v s, fun _ => e', ⟨?_, ?_⟩, .replaced rfl⟩
    · intro path c hat
      cases (at?_of_isLeaf rfl hat).2
    · intro path v' hat
      obtain ⟨-, hv⟩ := at?_of_isLeaf rfl hat
      cases hv
      exact ⟨s, s', hrun⟩
  | node stamp head parts ih =>
    intro hw s e' s' hold h
    rw [traverse_node _ hw.allows, Traversal.around] at h
    obtain ⟨_, _, henter, h⟩ := run_bind_eq_ok.1 h
    cases henter
    obtain ⟨new, s₁, hnew, h⟩ := run_bind_eq_ok.1 h
    obtain ⟨hle, hlen, image, himage⟩ := traverseParts_taken (fun p hp => ih p hp (hw.part p hp))
      (fun p hp => hold.part hp) hnew
    have hanswered : Answered f g image (node stamp head parts) := answered_node fun i p hp => by
      have hi := (List.getElem?_eq_some_iff.1 hp).1
      exact (himage i p _ hp (List.getElem?_eq_getElem (hlen ▸ hi))).1
    obtain ⟨s₂, hupdate, rfl⟩ := ofBuild_eq_ok h
    obtain ⟨hle', hrewritten⟩ := update_taken hw hold hle hlen (fun i p p' hp hp' => (himage i p p' hp hp').2) hupdate
    exact ⟨Nat.le_trans hle hle', image, hanswered, hrewritten⟩

end

section
variable {σ : Type}

theorem traverseParts_default {es : List Expr} (roles : List (Option Descriptor))
    (ih : ∀ e ∈ es, ∀ s, (e.traverse ({} : Traversal σ)).run s = (.ok e, s)) (s : TraversalState σ) :
    (traverseParts ({} : Traversal σ) roles es).run s = (.ok es, s) := by
  induction es generalizing roles with
  | nil => rfl
  | cons e es ihs =>
    have he := ih e (by simp) s
    have hes := ihs roles.tail fun e h => ih e (by simp [h])
    have hrebind (param : Descriptor) : (rebind param e e).run s = (.ok e, s) := by
      rw [rebind, if_pos (same_refl e)]
      rfl
    rw [traverseParts]
    split
    · rw [run_bind_of_ok he, run_bind_of_ok hes]
      rfl
    · rename_i param _
      have henter : (({} : Traversal σ).enterBinding param).run s = (.ok (), s) := rfl
      rw [run_bind_of_ok henter, run_bind_of_ok he, run_bind_of_ok (hrebind param), run_bind_of_ok hes]
      rfl

/-- The traversal that changes nothing gives the expression itself. -/
theorem traverse_default {e : Expr} (hw : WellMade e) (s : TraversalState σ) :
    (e.traverse ({} : Traversal σ)).run s = (.ok e, s) := by
  induction e using induction_parts generalizing s with
  | const | var => rw [traverse]; rfl
  | node stamp head parts ih =>
    have hupdate : (node stamp head parts).update parts = pure (node stamp head parts) := by
      rw [update, if_pos (sameAll_refl parts)]
    have henter : (({} : Traversal σ).enter (node stamp head parts)).run s = (.ok (), s) := rfl
    have hparts := traverseParts_default head.roles (fun p hp => ih p hp (hw.part p hp)) s
    rw [traverse_node _ hw.allows, Traversal.around, run_bind_of_ok henter, run_bind_of_ok hparts]
    show (TraversalM.ofBuild ((node stamp head parts).update parts)).run s = _
    rw [hupdate]
    rfl

/-- A traversal that replaces leaves gives the same expression just if it changed none; it shares every
subexpression in which it changed no leaf, makes every node above a changed leaf anew, with the same head, and
has the image of every changed leaf in its place. -/
theorem traverse_shares {f : Constant → TraversalM σ Expr} {g : Var → TraversalM σ Expr}
    (hf : ∀ c s, s.stamp ≤ ((f c).run s).2.stamp) (hg : ∀ v s, s.stamp ≤ ((g v).run s).2.stamp)
    {e e' : Expr} {s s' : TraversalState σ} (he : e.Obtained) (hold : e.Older s.stamp)
    (h : (e.traverse { const := f, var := g }).run s = (.ok e', s')) :
    (∃ image : List Nat → Expr,
      (∀ path c, e.at? path = some (const c) → ∃ s s', (f c).run s = (.ok (image path), s')) ∧
      (∀ path v, e.at? path = some (var v) → ∃ s s', (g v).run s = (.ok (image path), s')) ∧
      (e'.same e = true ↔ e.LeavesSame image) ∧
      (∀ path d, e.at? path = some d → d.LeavesSame (fun below => image (path ++ below)) →
        ∃ d', e'.at? path = some d' ∧ d'.same d = true ∧ (d.isLeaf = false → d' = d)) ∧
      (∀ path stamp head parts, e.at? path = some (node stamp head parts) →
        ¬ (node stamp head parts).LeavesSame (fun below => image (path ++ below)) →
        ∃ stamp' parts', e'.at? path = some (node stamp' head parts') ∧ parts'.length = parts.length ∧
          s.stamp ≤ stamp' ∧ stamp' < s'.stamp) ∧
      ∀ path leaf, e.at? path = some leaf → leaf.isLeaf = true → (image path).same leaf = false →
        ∃ d', e'.at? path = some d' ∧ (d' = image path ∨ ∃ stamp, d' = node stamp .quote [image path])) ∧
    ∀ t : TraversalState σ, (e.traverse {}).run t = (.ok e, t) := by
  refine ⟨?_, traverse_default he.wellMade⟩
  obtain ⟨-, image, ⟨hconst, hvar⟩, hrewritten⟩ := traverse_taken hf hg e he.wellMade hold h
  refine ⟨image, hconst, hvar, hrewritten.same_iff hold, ?_, ?_, ?_⟩
  · intro path d hat hsame
    obtain ⟨d', hd', hr⟩ := hrewritten.at_eq hat
    refine ⟨d', hd', ?_⟩
    cases hr with
    | replaced hl =>
      refine ⟨(leavesSame_leaf hl).1 hsame, fun hnode => ?_⟩
      rw [hl] at hnode
      cases hnode
    | left | kept => exact ⟨same_refl _, fun _ => rfl⟩
    | quoted hl hs =>
      rw [(leavesSame_leaf hl).1 hsame] at hs
      cases hs
    | remade hc => exact absurd hsame hc
  · intro path stamp head parts hat hchanged
    obtain ⟨d', hd', hr⟩ := hrewritten.at_eq hat
    cases hr with
    | kept hsame => exact absurd hsame hchanged
    | remade _ hlo hhi hlen => exact ⟨_, _, hd', hlen, hlo, hhi⟩
    | replaced hl | left hl | quoted hl => cases hl
  · intro path leaf hat hl hchanged
    obtain ⟨d', hd', hr⟩ := hrewritten.at_eq hat
    have himage : image (path ++ []) = image path := by rw [List.append_nil]
    refine ⟨d', hd', ?_⟩
    cases hr with
    | replaced => exact .inl himage
    | left _ hs =>
      replace hs : (image (path ++ [])).same leaf = true := hs
      rw [himage, hchanged] at hs
      cases hs
    | @quoted _ _ stamp => exact .inr ⟨stamp, congrArg (fun x => node stamp .quote [x]) himage⟩
    | kept | remade => cases hl

end

namespace ReplacedOperand

def x : Var := ⟨⟨0⟩, "x", .int .i32⟩
def y : Var := ⟨⟨1⟩, "y", .int .i32⟩
def one : Constant := .lit (.int (.one .i32))

/-- `y + y` -/
def double : Expr := node 0 (.binary .add false) [var y, var y]

/-- `x + (y + y)` -/
def sum : Expr := node 1 (.binary .add false) [var x, double]

def replaceX (v : Var) : TraversalM Unit Expr :=
  pure (if v == x then const one else var v)

theorem sum_obtained : sum.Obtained := by
  have hdouble : Expr.mkBinary .add false (var y) (var y) 0 = .ok (double, 1) := rfl
  have hsum : Expr.mkBinary .add false (var x) double 1 = .ok (sum, 2) := rfl
  have hobtained : double.Obtained := .made (by simp [Obtained.var]) hdouble
  exact .made (by simp [Obtained.var, hobtained]) hsum

theorem sum_older : sum.Older 2 := by
  have hvar (v : Var) : (var v).Older 2 := .leaf rfl
  have hdouble : double.Older 2 := .node (by decide) (by simp [hvar])
  exact .node (by decide) (by simp [hvar, hdouble])

end ReplacedOperand

open ReplacedOperand in
/-- With `1` for `x` the sum `x + (y + y)` is a new one, of which `y + y` is the old node. -/
theorem traverse_shares_double :
    ∃ e', (sum.traverse { const := fun c => pure (const c), var := replaceX }).run ⟨2, ()⟩ = (.ok e', ⟨3, ()⟩) ∧
      e'.same sum = false ∧ e'.at? [1] = some double := by
  obtain ⟨e', he'⟩ : ∃ e', (sum.traverse { const := fun c => pure (const c), var := replaceX }).run ⟨2, ()⟩ =
      (.ok e', ⟨3, ()⟩) := ⟨_, rfl⟩
  obtain ⟨⟨image, -, hvar, hsame, hkept, -⟩, -⟩ := traverse_shares (fun _ _ => Nat.le_refl _)
    (fun _ _ => Nat.le_refl _) sum_obtained sum_older he'
  have himage {path : List Nat} {v : Var} (hat : sum.at? path = some (var v)) :
      image path = if v == x then const one else var v := by
    obtain ⟨_, _, hrun⟩ := hvar path v hat
    exact (Except.ok.inj (Prod.mk.inj hrun).1).symm
  refine ⟨e', he', ?_, ?_⟩
  · have hx : image [0] = const one := himage (v := x) rfl
    rw [Bool.eq_false_iff, Ne, hsame]
    intro hleaves
    have := hleaves [0] (var x) rfl rfl
    rw [hx] at this
    cases this
  · have hleaves : double.LeavesSame fun below => image ([1] ++ below) := by
      refine leavesSame_node.2 fun i p hp => ?_
      obtain ⟨rfl, hi⟩ : p = var y ∧ sum.at? [1, i] = some (var y) := by
        rcases i with _ | _ | i
        · exact ⟨(Option.some.inj hp).symm, rfl⟩
        · exact ⟨(Option.some.inj hp).symm, rfl⟩
        · cases hp
      refine (leavesSame_leaf rfl).2 ?_
      show (image [1, i]).same (var y) = true
      rw [himage hi]
      rfl
    obtain ⟨d, hat, -, hd⟩ := hkept [1] double rfl hleaves
    rw [hat, hd rfl]

end Expr
end ExprLowering
