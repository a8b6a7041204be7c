import Mathlib.Algebra.BigOperators.Group.Finset.Basic
import Mathlib.Algebra.BigOperators.Group.Finset.Piecewise
import Mathlib.Algebra.Order.BigOperators.Group.Finset
import Mathlib.Algebra.Ring.Parity
import Mathlib.Algebra.BigOperators.Ring.Finset
import Mathlib.Data.Fintype.BigOperators

/-!
# Orienting a graph by walking it

A graph on a finite vertex type is a Boolean matrix `G`, an orientation another one, `D`;
`net G D u` is the out-degree of `u` minus its in-degree. A walk (`Walk`) follows edges not yet
used, directing each one the way it is walked; when the current vertex has no edge left, it goes on
at any vertex that has one.

`Walk.Inv`: between the steps every vertex is in balance except the start and the current vertex.
If all degrees are even, the walk gets stuck only where it started, and when no edge is left every
vertex is in balance (`Walk.Inv.balanced`).
-/

namespace Orient

variable {V : Type} [Fintype V] [DecidableEq V]

/-! ## Signed degrees -/

omit [Fintype V] [DecidableEq V] in
/-- What the pair `(u, w)` adds to the signed degree of `u`. -/
def arc (G D : V → V → Bool) (u w : V) : Int := if G u w then (if D u w then 1 else -1) else 0

omit [DecidableEq V] in
/-- The out-degree of `u` minus its in-degree. -/
def net (G D : V → V → Bool) (u : V) : Int := ∑ w, arc G D u w

omit [DecidableEq V] in
/-- The degree of `u`. -/
def deg (G : V → V → Bool) (u : V) : Nat := ∑ w, (G u w).toNat

omit [DecidableEq V] in
/-- Twice the number of edges. -/
def size (G : V → V → Bool) : Nat := ∑ u, deg G u

omit [DecidableEq V] in
theorem net_mod_two (G D : V → V → Bool) (u : V) : net G D u % 2 = (deg G u : Int) % 2 := by
  unfold net deg
  push_cast
  rw [Finset.sum_int_mod, Finset.sum_int_mod (f := fun w => ((G u w).toNat : Int))]
  congr 1
  refine Finset.sum_congr rfl fun w _ => ?_
  unfold arc
  cases G u w <;> cases D u w <;> rfl

omit [DecidableEq V] in
/-- The signed degree counts the edges that leave and those that arrive. -/
theorem net_eq_out_sub_in (G D : V → V → Bool) (u : V) :
    net G D u = (∑ w, (G u w && D u w).toNat : Nat) - (∑ w, (G u w && !D u w).toNat : Nat) := by
  push_cast
  rw [← Finset.sum_sub_distrib]
  refine Finset.sum_congr rfl fun w _ => ?_
  unfold arc
  cases G u w <;> cases D u w <;> rfl

omit [DecidableEq V] in
/-- Without loops every edge is counted once from its smaller end. -/
theorem size_eq_two_mul [LinearOrder V] {G : V → V → Bool} (hirr : ∀ a, G a a = false)
    (hsymm : ∀ a b, G a b = G b a) : size G = 2 * ∑ a, ∑ b, (decide (a < b) && G a b).toNat := by
  have hsplit : ∀ a b, (G a b).toNat =
      (decide (a < b) && G a b).toNat + (decide (b < a) && G b a).toNat := by
    intro a b
    rcases lt_trichotomy a b with h | rfl | h
    · simp [h, h.not_gt]
    · simp [hirr]
    · simp [h, h.not_gt, hsymm a b]
  have hswap : ∑ a, ∑ b, (decide (b < a) && G b a).toNat =
      ∑ a, ∑ b, (decide (a < b) && G a b).toNat := Finset.sum_comm
  calc size G = ∑ a, ∑ b, ((decide (a < b) && G a b).toNat + (decide (b < a) && G b a).toNat) :=
        Finset.sum_congr rfl fun a _ => Finset.sum_congr rfl fun b _ => hsplit a b
    _ = 2 * ∑ a, ∑ b, (decide (a < b) && G a b).toNat := by
        simp only [Finset.sum_add_distrib]
        rw [hswap, Nat.two_mul]

/-- The signed degrees after a change to the pair `a`, `b` only. -/
theorem net_change {G D G' D' : V → V → Bool} {a b : V} (hab : a ≠ b)
    (h : ∀ x y, (x, y) ≠ (a, b) → (x, y) ≠ (b, a) → arc G' D' x y = arc G D x y) (u : V) :
    net G' D' u = net G D u + (if u = a then arc G' D' a b - arc G D a b else 0) +
      (if u = b then arc G' D' b a - arc G D b a else 0) := by
  have hpt : ∀ w, arc G' D' u w = arc G D u w +
      ((if w = b then (if u = a then arc G' D' a b - arc G D a b else 0) else 0) +
        (if w = a then (if u = b then arc G' D' b a - arc G D b a else 0) else 0)) := by
    intro w
    by_cases h1 : (u, w) = (a, b)
    · obtain ⟨rfl, rfl⟩ := Prod.mk.inj h1
      simp [hab.symm]
    · by_cases h2 : (u, w) = (b, a)
      · obtain ⟨rfl, rfl⟩ := Prod.mk.inj h2
        simp [hab]
      · rw [h u w h1 h2]
        simp only [Prod.mk.injEq, not_and] at h1 h2
        by_cases e1 : w = b <;> by_cases e2 : w = a <;> by_cases e3 : u = a <;>
          by_cases e4 : u = b <;> simp_all
  unfold net
  rw [Finset.sum_congr rfl fun w _ => hpt w, Finset.sum_add_distrib, Finset.sum_add_distrib]
  simp [add_assoc]

/-- Removing one edge. -/
theorem size_change {G G' : V → V → Bool} {a b : V} (hab : a ≠ b) (h1 : G a b = true)
    (h2 : G b a = true) (h' : ∀ x y, G' x y = (G x y && !decide ((x, y) = (a, b)) &&
      !decide ((x, y) = (b, a)))) : size G = size G' + 2 := by
  have hpt : ∀ x y, (G x y).toNat = (G' x y).toNat +
      ((if x = a then (if y = b then 1 else 0) else 0) +
        (if x = b then (if y = a then 1 else 0) else 0)) := by
    intro x y
    rw [h' x y]
    by_cases e1 : (x, y) = (a, b)
    · obtain ⟨rfl, rfl⟩ := Prod.mk.inj e1
      simp [h1, hab]
    · by_cases e2 : (x, y) = (b, a)
      · obtain ⟨rfl, rfl⟩ := Prod.mk.inj e2
        simp [h2, hab]
      · simp only [e1, e2, decide_false, Bool.not_false, Bool.and_true]
        simp only [Prod.mk.injEq, not_and] at e1 e2
        by_cases e3 : x = a <;> by_cases e4 : x = b <;> simp_all
  unfold size deg
  simp_rw [hpt, Finset.sum_add_distrib]
  simp [Finset.sum_ite_irrel]

/-! ## Walks -/

omit [Fintype V] [DecidableEq V] in
/-- A walk: the edges not used yet, the orientation so far, where the current stretch started and
where it is. -/
structure Walk (V : Type) where
  edges : V → V → Bool
  path : V → V → Bool
  start : V
  cur : V

namespace Walk

/-- The walk goes from `v` to `next`. -/
def move (v next : V) (w : Walk V) : Walk V where
  edges x y := w.edges x y && !decide ((x, y) = (v, next)) && !decide ((x, y) = (next, v))
  path x y := w.path x y || decide ((x, y) = (v, next))
  start := if v = w.cur then w.start else v
  cur := next

/-- The graph `G` is walked, starting from the orientation `D`. -/
structure Inv (G D : V → V → Bool) (w : Walk V) : Prop where
  symm : ∀ a b, w.edges a b = w.edges b a
  sub : ∀ a b, w.edges a b = true → G a b = true
  free : ∀ a b, w.edges a b = true → w.path a b = false
  oriented : ∀ a b, a ≠ b → w.edges a b = false → w.path a b = !w.path b a
  kept : ∀ a b, G a b = false → w.path a b = D a b
  balance : ∀ u, net (fun a b => G a b && !w.edges a b) w.path u =
    (if u = w.start then 1 else 0) - (if u = w.cur then 1 else 0)

variable {G D : V → V → Bool} {w : Walk V}

/-- With even degrees the current vertex has an edge left unless the walk is back at its start. -/
theorem Inv.start_eq_cur (h : Inv G D w) (heven : ∀ u, deg G u % 2 = 0)
    (hstuck : ∀ b, w.edges w.cur b = false) : w.start = w.cur := by
  by_contra hne
  have hb := h.balance w.cur
  rw [if_neg (Ne.symm hne), if_pos rfl] at hb
  have hdeg : deg (fun a b => G a b && !w.edges a b) w.cur = deg G w.cur := by
    unfold deg
    simp [hstuck]
  have := net_mod_two (fun a b => G a b && !w.edges a b) w.path w.cur
  rw [hb, hdeg] at this
  have := heven w.cur
  omega

/-- **One step of a walk keeps the balance.** -/
theorem Inv.move (h : Inv G D w) (hirr : ∀ a, G a a = false) {v next : V}
    (he : w.edges v next = true) (hv : v = w.cur ∨ w.start = w.cur) :
    Inv G D (w.move v next) := by
  have hne : v ≠ next := fun e => by
    have := h.sub _ _ he
    rw [e, hirr] at this
    cases this
  have he' : w.edges next v = true := by rw [h.symm]; exact he
  have hG : G v next = true := h.sub _ _ he
  have hG' : G next v = true := h.sub _ _ he'
  refine ⟨fun a b => ?_, fun a b hab => ?_, fun a b hab => ?_, fun a b hab hE => ?_,
    fun a b hab => ?_, fun u => ?_⟩
  · simp only [Walk.move, Prod.mk.injEq]
    rw [h.symm a b]
    by_cases h1 : a = v <;> by_cases h2 : b = v <;> by_cases h3 : a = next <;>
      by_cases h4 : b = next <;> simp [h1, h2, h3, h4]
  · simp only [Walk.move, Bool.and_eq_true] at hab
    exact h.sub a b hab.1.1
  · simp only [Walk.move, Bool.and_eq_true, Bool.not_eq_true', decide_eq_false_iff_not] at hab ⊢
    simp [h.free a b hab.1.1, hab.1.2]
  · simp only [Walk.move] at hE ⊢
    by_cases h1 : (a, b) = (v, next)
    · obtain ⟨rfl, rfl⟩ := Prod.mk.inj h1
      simp [h.free _ _ he', hne, hne.symm]
    · by_cases h2 : (a, b) = (next, v)
      · obtain ⟨rfl, rfl⟩ := Prod.mk.inj h2
        simp [h.free _ _ he', hne, hne.symm]
      · have h3 : (b, a) ≠ (v, next) := fun e => h2 (by
          obtain ⟨rfl, rfl⟩ := Prod.mk.inj e; rfl)
        simp only [h1, h2, decide_false, Bool.not_false, Bool.and_true] at hE
        simp only [h1, h3, decide_false, Bool.or_false]
        exact h.oriented a b hab hE
  · have h1 : (a, b) ≠ (v, next) := fun e => by
      obtain ⟨rfl, rfl⟩ := Prod.mk.inj e
      rw [hG] at hab; cases hab
    simp only [Walk.move, h1, decide_false, Bool.or_false]
    exact h.kept a b hab
  · have hchange : ∀ x y, (x, y) ≠ (v, next) → (x, y) ≠ (next, v) →
        arc (fun a b => G a b && !(w.move v next).edges a b) (w.move v next).path x y =
          arc (fun a b => G a b && !w.edges a b) w.path x y := fun x y h1 h2 => by
      simp only [arc, Walk.move, h1, h2, decide_false, Bool.not_false, Bool.and_true,
        Bool.or_false]
    have a1 : arc (fun a b => G a b && !w.edges a b) w.path v next = 0 := by simp [arc, he]
    have a2 : arc (fun a b => G a b && !w.edges a b) w.path next v = 0 := by simp [arc, he']
    have a3 : arc (fun a b => G a b && !(w.move v next).edges a b) (w.move v next).path v next =
        1 := by simp [arc, Walk.move, hG]
    have a4 : arc (fun a b => G a b && !(w.move v next).edges a b) (w.move v next).path next v =
        -1 := by simp [arc, Walk.move, hG', h.free _ _ he', hne.symm]
    have hcur : (w.move v next).cur = next := rfl
    rw [net_change hne hchange u, h.balance u, a1, a2, a3, a4, hcur]
    by_cases hvc : v = w.cur
    · have hstart : (w.move v next).start = w.start := if_pos hvc
      rw [hstart, hvc]
      split_ifs <;> omega
    · have hstart : (w.move v next).start = v := if_neg hvc
      rw [hstart, hv.resolve_left hvc]
      split_ifs <;> omega

/-- **When no edge is left every vertex is in balance.** -/
theorem Inv.balanced (h : Inv G D w) (heven : ∀ u, deg G u % 2 = 0)
    (hdone : ∀ a b, w.edges a b = false) (u : V) : net G w.path u = 0 := by
  have hs := h.start_eq_cur heven fun b => hdone _ b
  have hb := h.balance u
  simp only [hdone, Bool.not_false, Bool.and_true, hs, sub_self] at hb
  exact hb

end Walk

end Orient
