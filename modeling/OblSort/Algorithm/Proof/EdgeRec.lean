import OblSort.Algorithm.EdgeRec
import OblSort.Lib.Orientation
import Mathlib.Algebra.BigOperators.Fin
import Mathlib.Tactic.IntervalCases
import Mathlib.Data.Fintype.Prod

/-!
# The Euler walk of an edge record

`mat e` is the matrix of a 64-bit edge set. Each iteration of `EulerPath` is a step of a walk in the
sense of `Orient.Walk` as long as an edge is left: the walk is always at vertex `v8 / 8`, and no
vertex below its start has an edge left, so a search that finds no edge from there on means that
there is none at all. `eulerPath_spec`: with even degrees and enough iterations every edge is
directed and every vertex is in balance; `eulerPath_balanced` says so of the vertices and the edges
that the record itself retrieves.
-/

namespace EM.Algorithm

open Orient

/-! ## Edge sets as matrices -/

/-- The matrix of an edge set. -/
def mat (e : BitVec 64) (i j : Fin 8) : Bool := e.getLsbD (8 * i.val + j.val)

theorem getLsbD_bitAt {n t : Nat} (hn : n < 64) (ht : t < 64) :
    (bitAt n).getLsbD t = decide (t = n) := by
  rw [bitAt, Nat.mod_eq_of_lt hn, BitVec.getLsbD_shiftLeft]
  simp only [ht, decide_true, Bool.true_and, BitVec.getLsbD_one]
  by_cases h : t = n
  · subst h; simp
  · by_cases h2 : t < n
    · simp [h, h2]
    · simp [h, show t - n ≠ 0 by omega]

@[simp] theorem mat_xor (x y : BitVec 64) (i j : Fin 8) :
    mat (x ^^^ y) i j = (mat x i j ^^ mat y i j) := by
  simp [mat]

@[simp] theorem mat_and (x y : BitVec 64) (i j : Fin 8) :
    mat (x &&& y) i j = (mat x i j && mat y i j) := by
  simp [mat]

@[simp] theorem mat_or (x y : BitVec 64) (i j : Fin 8) :
    mat (x ||| y) i j = (mat x i j || mat y i j) := by
  simp [mat]

@[simp] theorem mat_not (x : BitVec 64) (i j : Fin 8) : mat (~~~x) i j = !mat x i j := by
  have : 8 * i.val + j.val < 64 := by omega
  simp [mat, this]

@[simp] theorem mat_bitAt (a b i j : Fin 8) :
    mat (bitAt (8 * a.val + b.val)) i j = decide ((i, j) = (a, b)) := by
  rw [mat, getLsbD_bitAt (by omega) (by omega)]
  simp only [Prod.mk.injEq, Fin.ext_iff]
  rw [decide_eq_decide]
  omega

theorem getEdgeOffset_eq (v0 : Nat) {v1 : Nat} (h : v1 < 8) :
    EdgeRec.getEdgeOffset v0 v1 = 8 * v0 + v1 := by
  rw [EdgeRec.getEdgeOffset, Nat.shiftLeft_eq, Nat.mul_comm, ← Nat.two_pow_add_eq_or_of_lt h]

theorem mat_getEdgesMask (a b i j : Fin 8) :
    mat (EdgeRec.getEdgesMask a b) i j =
      (decide ((i, j) = (a, b)) || decide ((i, j) = (b, a))) := by
  rw [EdgeRec.getEdgesMask, getEdgeOffset_eq _ b.isLt, getEdgeOffset_eq _ a.isLt, mat_or,
    mat_bitAt, mat_bitAt]

/-! ## The first edge -/

theorem countrZero_spec {x : BitVec 64} {t : Nat} (ht : t < 64) (hx : x.getLsbD t = true) :
    countrZero x < 64 ∧ x.getLsbD (countrZero x) = true ∧
      ∀ u < countrZero x, x.getLsbD u = false := by
  unfold countrZero
  cases hf : (List.range 64).find? (x.getLsbD ·) with
  | none =>
    rw [List.find?_range_eq_none] at hf
    simpa [hx] using hf t ht
  | some s =>
    rw [List.find?_range_eq_some] at hf
    obtain ⟨h1, h2, h3⟩ := hf
    exact ⟨List.mem_range.1 h2, h1, fun u hu => by simpa using h3 u hu⟩

theorem countrZero_zero : countrZero 0#64 = 64 := by decide

/-! ## One iteration -/

/-- The walk at a state of the loop. -/
structure Walks (G D : Fin 8 → Fin 8 → Bool) (s : EdgeRec.EulerState)
    (w : Walk (Fin 8)) : Prop where
  edges : mat s.edges = w.edges
  path : mat s.path = w.path
  cur : s.v8 = 8 * w.cur.val
  inv : Walk.Inv G D w
  low : ∀ a < w.start, ∀ b, w.edges a b = false

variable {G D : Fin 8 → Fin 8 → Bool} {s : EdgeRec.EulerState} {w : Walk (Fin 8)}

/-- The bits of the edge set from row `v` on. -/
theorem getLsbD_choices {e : BitVec 64} {v8 t : Nat} (ht : t < 64) :
    (e &&& (BitVec.allOnes 64 <<< v8)).getLsbD t = (e.getLsbD t && decide (v8 ≤ t)) := by
  rw [BitVec.getLsbD_and, BitVec.getLsbD_shiftLeft, BitVec.getLsbD_allOnes]
  simp only [ht, decide_true, Bool.true_and]
  congr 1
  by_cases h : t < v8
  · simp [h, show ¬ v8 ≤ t by omega]
  · simp [h, show v8 ≤ t by omega, show t - v8 < 64 by omega]

/-- An iteration that finds an edge. -/
theorem eulerStep_eq {s : EdgeRec.EulerState} {v0 next : Fin 8}
    (h : countrZero (s.edges &&& (BitVec.allOnes 64 <<< s.v8)) = 8 * v0.val + next.val) :
    EdgeRec.eulerStep s =
      { edges := s.edges &&& ~~~(bitAt (8 * v0.val + next.val) ||| bitAt (8 * next.val + v0.val))
        path := s.path ||| bitAt (8 * v0.val + next.val)
        v8 := 8 * next.val } := by
  have h1 : (8 * v0.val + next.val) &&& 7 = next.val := by
    rw [show 7 = 2 ^ 3 - 1 by rfl, Nat.and_two_pow_sub_one_eq_mod]
    omega
  have h2 : (8 * v0.val + next.val) >>> 3 = v0.val := by
    rw [Nat.shiftRight_eq_div_pow]
    omega
  have h3 : next.val <<< 3 = 8 * next.val := by rw [Nat.shiftLeft_eq, Nat.mul_comm]
  have h4 : 8 * next.val ||| v0.val = 8 * next.val + v0.val := by
    have := getEdgeOffset_eq next.val v0.isLt
    rwa [EdgeRec.getEdgeOffset, h3] at this
  simp only [EdgeRec.eulerStep, h, h1, h2, h3, h4]

/-- **An iteration of the loop is a step of the walk** while an edge is left. -/
theorem Walks.step (h : Walks G D s w) (hirr : ∀ a, G a a = false)
    (heven : ∀ u, deg G u % 2 = 0) (hsome : ∃ a b, w.edges a b = true) :
    ∃ w', Walks G D (EdgeRec.eulerStep s) w' ∧ size w.edges = size w'.edges + 2 := by
  have hget : ∀ a b : Fin 8, s.edges.getLsbD (8 * a.val + b.val) = w.edges a b :=
    fun a b => congrFun (congrFun h.edges a) b
  have hchoice : ∀ a b : Fin 8, (s.edges &&& (BitVec.allOnes 64 <<< s.v8)).getLsbD
      (8 * a.val + b.val) = (w.edges a b && decide (w.cur ≤ a)) := fun a b => by
    rw [getLsbD_choices (by omega), hget, h.cur]
    congr 1
    rw [decide_eq_decide, Fin.le_def]
    omega
  -- the search succeeds: otherwise the walk is stuck at its start, and nothing is left below it
  obtain ⟨a, b, hab, hle⟩ : ∃ a b, w.edges a b = true ∧ w.cur ≤ a := by
    by_contra hno
    push Not at hno
    obtain ⟨a, b, hab⟩ := hsome
    have hstuck : ∀ b, w.edges w.cur b = false := fun b => by
      by_contra hc
      exact absurd (hno w.cur b (by simpa using hc)) (lt_irrefl _)
    have hs := h.inv.start_eq_cur heven hstuck
    rw [h.low a (by rw [hs]; exact hno a b hab) b] at hab
    cases hab
  obtain ⟨h1, h2, h3⟩ := countrZero_spec (x := s.edges &&& (BitVec.allOnes 64 <<< s.v8))
    (t := 8 * a.val + b.val) (by omega) (by rw [hchoice, hab]; simpa using hle)
  generalize hz : countrZero (s.edges &&& (BitVec.allOnes 64 <<< s.v8)) = z at h1 h2 h3
  let v0 : Fin 8 := ⟨z / 8, by omega⟩
  let next : Fin 8 := ⟨z % 8, by omega⟩
  have hzeq : z = 8 * v0.val + next.val := by simp only [v0, next]; omega
  rw [hzeq, hchoice, Bool.and_eq_true, decide_eq_true_iff] at h2
  have hbefore : ∀ c d : Fin 8, w.cur ≤ c → c < v0 → w.edges c d = false := fun c d hc hlt => by
    have := h3 (8 * c.val + d.val) (by rw [Fin.lt_def] at hlt; omega)
    rw [hchoice] at this
    simpa [hc] using this
  have hv : v0 = w.cur ∨ w.start = w.cur := by
    rcases eq_or_lt_of_le h2.2 with e | hlt
    · exact .inl e.symm
    · exact .inr (h.inv.start_eq_cur heven fun d => hbefore _ d (le_refl _) hlt)
  refine ⟨w.move v0 next, ⟨?_, ?_, ?_, h.inv.move hirr h2.1 hv, ?_⟩, ?_⟩
  · rw [eulerStep_eq (hz.trans hzeq)]
    funext x y
    simp [Walk.move, ← h.edges, Bool.and_assoc]
  · rw [eulerStep_eq (hz.trans hzeq)]
    funext x y
    simp [Walk.move, ← h.path]
  · rw [eulerStep_eq (hz.trans hzeq)]
    rfl
  · intro c hc d
    have hE : w.edges c d = false := by
      by_cases e : v0 = w.cur
      · rw [show (w.move v0 next).start = w.start from if_pos e] at hc
        exact h.low c hc d
      · rw [show (w.move v0 next).start = v0 from if_neg e] at hc
        rcases le_or_gt w.cur c with hcur | hcur
        · exact hbefore c d hcur hc
        · exact h.low c (by rw [hv.resolve_left e]; exact hcur) d
    simp [Walk.move, hE]
  · have hne : v0 ≠ next := fun e => by
      have := h.inv.sub _ _ h2.1
      rw [e, hirr] at this
      cases this
    refine size_change hne h2.1 ?_ fun x y => rfl
    rw [h.inv.symm]
    exact h2.1

/-! ## The whole loop -/

/-- Every edge of `G` is directed and every vertex is in balance; pairs outside `G` have the
direction of `D`. -/
structure Oriented (G D path : Fin 8 → Fin 8 → Bool) : Prop where
  antisymm : ∀ a b, a ≠ b → path a b = !path b a
  balanced : ∀ u, net G path u = 0
  kept : ∀ a b, a ≠ b → G a b = false → path a b = D a b

theorem Oriented.congr {path path' : Fin 8 → Fin 8 → Bool} (h : Oriented G D path)
    (hirr : ∀ a, G a a = false) (heq : ∀ a b, a ≠ b → path' a b = path a b) :
    Oriented G D path' where
  antisymm a b hab := by rw [heq a b hab, heq b a hab.symm, h.antisymm a b hab]
  balanced u := by
    rw [← h.balanced u]
    refine Finset.sum_congr rfl fun x _ => ?_
    by_cases e : u = x
    · simp [arc, e, hirr]
    · simp [arc, heq u x e]
  kept a b hab hG := by rw [heq a b hab, h.kept a b hab hG]

theorem Walks.oriented (h : Walks G D s w) (heven : ∀ u, deg G u % 2 = 0)
    (hdone : ∀ a b, w.edges a b = false) : Oriented G D (mat s.path) := by
  rw [h.path]
  exact ⟨fun a b hab => h.inv.oriented a b hab (hdone a b), h.inv.balanced heven hdone,
    fun a b _ hG => h.inv.kept a b hG⟩

/-- Once no edge is left an iteration only sets a self loop of the path. -/
theorem eulerStep_done (hE : s.edges = 0#64) : (EdgeRec.eulerStep s).edges = 0#64 ∧
    ∀ a b, a ≠ b → mat (EdgeRec.eulerStep s).path a b = mat s.path a b := by
  have h0 : (EdgeRec.eulerStep s).path = s.path ||| bitAt 64 := by
    simp only [EdgeRec.eulerStep, hE, BitVec.zero_and, countrZero_zero]
  refine ⟨by simp [EdgeRec.eulerStep, hE], fun a b hab => ?_⟩
  rw [h0, show bitAt 64 = bitAt (8 * (0 : Fin 8).val + (0 : Fin 8).val) from rfl, mat_or, mat_bitAt]
  have : (a, b) ≠ ((0 : Fin 8), (0 : Fin 8)) := fun e => hab (by
    obtain ⟨rfl, rfl⟩ := Prod.mk.inj e; rfl)
  simp [this]

theorem edges_eq_zero {e : BitVec 64} (h : ∀ a b, mat e a b = false) : e = 0#64 := by
  apply BitVec.eq_of_getLsbD_eq
  intro t ht
  have := h ⟨t / 8, by omega⟩ ⟨t % 8, by omega⟩
  rw [mat] at this
  simp only [Nat.div_add_mod] at this
  simpa using this

theorem exists_edge_of_size {E : Fin 8 → Fin 8 → Bool} (h : ¬ ∃ a b, E a b = true) :
    ∀ a b, E a b = false := fun a b => by
  by_contra hc
  exact h ⟨a, b, by simpa using hc⟩

/-- Enough iterations from a walk, or from an oriented state. -/
theorem iterate_eulerStep (hirr : ∀ a, G a a = false) (heven : ∀ u, deg G u % 2 = 0) (n : Nat)
    (s : EdgeRec.EulerState) (h : (∃ w, Walks G D s w ∧ size w.edges ≤ 2 * n) ∨
      (s.edges = 0#64 ∧ Oriented G D (mat s.path))) :
    Oriented G D (mat (EdgeRec.eulerStep^[n] s).path) := by
  induction n generalizing s with
  | zero =>
    rcases h with ⟨w, hw, hsize⟩ | h
    · have hnone : ¬ ∃ a b, w.edges a b = true := fun hsome => by
        obtain ⟨w', -, hs⟩ := hw.step hirr heven hsome
        omega
      exact hw.oriented heven (exists_edge_of_size hnone)
    · exact h.2
  | succ n ih =>
    rw [Function.iterate_succ_apply]
    apply ih
    rcases h with ⟨w, hw, hsize⟩ | ⟨hE, ho⟩
    · by_cases hsome : ∃ a b, w.edges a b = true
      · obtain ⟨w', hw', hs⟩ := hw.step hirr heven hsome
        exact .inl ⟨w', hw', by omega⟩
      · have hnone := exists_edge_of_size hsome
        have hE : s.edges = 0#64 := edges_eq_zero fun a b => by rw [hw.edges, hnone]
        obtain ⟨h1, h2⟩ := eulerStep_done hE
        exact .inr ⟨h1, (hw.oriented heven hnone).congr hirr h2⟩
    · obtain ⟨h1, h2⟩ := eulerStep_done hE
      exact .inr ⟨h1, ho.congr hirr h2⟩

/-! ## `EulerPath` -/

/-- The graph of an edge record, without its self loops. -/
def simple (e : BitVec 64) (a b : Fin 8) : Bool := mat e a b && decide (a ≠ b)

/-- A graph on `k` vertices has at most `k * (k - 1) / 2` edges. -/
theorem size_simple_le {e : BitVec 64} {k : Nat} (hk : k ≤ 8)
    (hlt : ∀ a b : Fin 8, mat e a b = true → a.val < k ∧ b.val < k) :
    size (simple e) ≤ k * (k - 1) := by
  have hle : size (simple e) ≤ ∑ a : Fin 8, ∑ b : Fin 8,
      (decide (a.val < k ∧ b.val < k ∧ a ≠ b)).toNat := by
    refine Finset.sum_le_sum fun a _ => Finset.sum_le_sum fun b _ => ?_
    unfold simple
    cases hm : mat e a b with
    | false => simp
    | true => simp [hlt a b hm]
  refine hle.trans ?_
  revert hk
  clear hle hlt
  revert k
  decide

/-- **`EulerPath`** directs every edge of a symmetric graph with even degrees so that every vertex
is in balance, and every other pair from the larger to the smaller vertex. -/
theorem eulerPath_spec {r : EdgeRec} {numEdge : Nat} (hk : r.k ≤ 8)
    (hsymm : ∀ a b, mat r.edges a b = mat r.edges b a)
    (hlt : ∀ a b : Fin 8, mat r.edges a b = true → a.val < r.k ∧ b.val < r.k)
    (heven : ∀ u, deg (simple r.edges) u % 2 = 0) (hsize : size (simple r.edges) ≤ 2 * numEdge) :
    Oriented (simple r.edges) (fun a b => decide (b < a)) (mat (r.eulerPath numEdge).edges) := by
  have hirr : ∀ a, simple r.edges a a = false := fun a => by simp [simple]
  have hmask : ∀ a b : Fin 8, mat (~~~0x8040201008040201#64) a b = decide (a ≠ b) := by decide
  have hlow : ∀ a b : Fin 8, mat 0xFF7F3F1F0F070301#64 a b = decide (b ≤ a) := by decide
  have hpath : ∀ a b, mat (~~~r.edges &&& 0xFF7F3F1F0F070301#64) a b =
      (!mat r.edges a b && decide (b ≤ a)) := fun a b => by rw [mat_and, mat_not, hlow]
  have hrun : Oriented (simple r.edges) (mat (~~~r.edges &&& 0xFF7F3F1F0F070301#64))
      (mat (r.eulerPath numEdge).edges) := by
    refine iterate_eulerStep hirr heven _ _ (.inl
      ⟨⟨simple r.edges, mat (~~~r.edges &&& 0xFF7F3F1F0F070301#64), 0, 0⟩,
        ⟨?_, rfl, rfl, ⟨fun a b => ?_, fun a b h => h, fun a b h => ?_, fun a b hab h => ?_,
          fun a b h => rfl, fun u => ?_⟩, fun a ha => absurd ha (Nat.not_lt_zero _)⟩, ?_⟩)
    · funext a b
      rw [mat_and, hmask]
      rfl
    · simp only [simple, hsymm a b, ne_comm]
    · simp only [simple, Bool.and_eq_true] at h
      dsimp only
      rw [hpath, h.1]
      rfl
    · have hE : mat r.edges a b = false := by simpa [simple, hab] using h
      dsimp only
      rw [hpath, hpath, ← hsymm a b, hE]
      rcases lt_or_gt_of_ne hab with hlt' | hlt'
      · simp [hlt'.not_ge, hlt'.le]
      · simp [hlt'.not_ge, hlt'.le]
    · simp [net, arc]
    · have hkk := size_simple_le hk hlt
      have heven2 : 2 ∣ r.k * (r.k - 1) := (Nat.even_mul_pred_self r.k).two_dvd
      dsimp only
      omega
  refine ⟨hrun.antisymm, hrun.balanced, fun a b hab hG => ?_⟩
  have hE : mat r.edges a b = false := by simpa [simple, hab] using hG
  rw [hrun.kept a b hab hG, hpath, hE, Bool.not_false, Bool.true_and, decide_eq_decide]
  exact ⟨fun hle => lt_of_le_of_ne hle hab.symm, le_of_lt⟩

/-! ## Degrees as numbers of neighbours -/

namespace EdgeRec

theorem retrieveEdge_eq (r : EdgeRec) (a b : Fin 8) : r.retrieveEdge a b = mat r.edges a b := by
  have hoff : getEdgeOffset a b % 64 = 8 * a.val + b.val := by
    rw [getEdgeOffset_eq _ b.isLt]
    omega
  have hbit : ∀ x : BitVec 64, (x &&& 1#64 != 0#64) = x.getLsbD 0 := by
    intro x
    rw [BitVec.and_one_eq_setWidth_ofBool_getLsbD]
    cases x.getLsbD 0 <;> rfl
  rw [retrieveEdge, hoff, hbit, BitVec.getLsbD_ushiftRight]
  rfl

/-- The neighbours of a vertex, itself left out. -/
def neighbours (r : EdgeRec) (u : Nat) : Finset Nat :=
  (Finset.range r.k).filter fun w => w ≠ u ∧ r.retrieveEdge u w = true

/-- The edges without the self loops, each once. -/
def properEdges (r : EdgeRec) : Finset (Nat × Nat) :=
  (Finset.range r.k ×ˢ Finset.range r.k).filter fun p => p.1 < p.2 ∧ r.retrieveEdge p.1 p.2 = true

/-- A symmetric edge set on the vertices below `k`. -/
structure IsGraph (r : EdgeRec) : Prop where
  symm : ∀ a < 8, ∀ b < 8, r.retrieveEdge a b = r.retrieveEdge b a
  below : ∀ a < 8, ∀ b < 8, r.retrieveEdge a b = true → a < r.k ∧ b < r.k

end EdgeRec

/-- A sum over the eight vertices to which only those below `k` add something. -/
theorem sum_vertices {k : Nat} (hk : k ≤ 8) (f : Nat → Nat) (hf : ∀ w < 8, k ≤ w → f w = 0) :
    ∑ w : Fin 8, f w = ∑ w ∈ Finset.range k, f w := by
  rw [← Finset.sum_range]
  symm
  apply Finset.sum_subset (Finset.range_subset_range.2 hk)
  intro w hw hnot
  exact hf w (Finset.mem_range.1 hw) (Nat.le_of_not_lt fun h => hnot (Finset.mem_range.2 h))

section Graph

variable {r : EdgeRec} (hk : r.k ≤ 8) (hG : r.IsGraph)

theorem simple_eq (u w : Fin 8) :
    simple r.edges u w = (decide (w.val ≠ u.val) && r.retrieveEdge u w) := by
  rw [simple, EdgeRec.retrieveEdge_eq, Bool.and_comm]
  congr 1
  rw [decide_eq_decide]
  exact ⟨fun h e => h (Fin.ext e.symm), fun h e => h (e ▸ rfl)⟩

include hG in
theorem simple_symm (a b : Fin 8) : simple r.edges a b = simple r.edges b a := by
  rw [simple_eq, simple_eq, hG.symm a a.isLt b b.isLt]
  congr 1
  rw [decide_eq_decide]
  exact ne_comm

include hk hG

/-- The neighbours of a vertex that satisfy a condition, counted over the matrix. -/
theorem sum_simple_eq_card (u : Fin 8) (Q : Nat → Bool) :
    ∑ w : Fin 8, (simple r.edges u w && Q w).toNat =
      ((r.neighbours u).filter fun w => Q w = true).card := by
  simp only [simple_eq]
  rw [sum_vertices hk fun w => ((decide (w ≠ u.val) && r.retrieveEdge u w) && Q w).toNat]
  · rw [EdgeRec.neighbours, Finset.filter_filter, Finset.card_filter]
    refine Finset.sum_congr rfl fun w _ => ?_
    rw [Bool.toNat, Bool.cond_eq_ite]
    simp only [Bool.and_eq_true, decide_eq_true_eq]
  · intro w hw hkw
    cases he : r.retrieveEdge u w with
    | false => simp
    | true =>
      have := (hG.below u u.isLt w hw he).2
      omega

theorem deg_eq_card (u : Fin 8) : deg (simple r.edges) u = (r.neighbours u).card := by
  have h := sum_simple_eq_card hk hG u fun _ => true
  simp only [Bool.and_true, Finset.filter_true] at h
  exact h

theorem size_eq_card : size (simple r.edges) = 2 * r.properEdges.card := by
  have hirr : ∀ a, simple r.edges a a = false := fun a => by simp [simple]
  have hpair : ∀ a b : Fin 8, (decide (a < b) && simple r.edges a b).toNat =
      if a.val < b.val ∧ r.retrieveEdge a b = true then 1 else 0 := by
    intro a b
    by_cases hab : a < b
    · have hne : b.val ≠ a.val := by omega
      cases he : r.retrieveEdge a b <;> simp [simple_eq, hab, hne, he]
    · have hnot : ¬ a.val < b.val := hab
      simp [hab]
  rw [size_eq_two_mul hirr (simple_symm hG), EdgeRec.properEdges, Finset.card_filter,
    Finset.sum_product]
  refine congrArg (2 * ·) ?_
  simp only [hpair]
  have hinner : ∀ a : Fin 8, ∑ b :
    Fin 8, (if a.val < b.val ∧ r.retrieveEdge a b = true then 1 else 0) =
      ∑ b ∈ Finset.range r.k, if a.val < b ∧ r.retrieveEdge a b = true then 1 else 0 := by
    intro a
    apply sum_vertices hk fun b => if a.val < b ∧ r.retrieveEdge a b = true then 1 else 0
    intro b hb hkb
    rw [if_neg]
    rintro ⟨-, he⟩
    have := (hG.below a a.isLt b hb he).2
    omega
  simp only [hinner]
  apply sum_vertices hk fun a =>
    ∑ b ∈ Finset.range r.k, if a < b ∧ r.retrieveEdge a b = true then 1 else 0
  intro a ha hka
  refine Finset.sum_eq_zero fun b hb => if_neg ?_
  rintro ⟨-, he⟩
  have hb := Finset.mem_range.1 hb
  have := (hG.below a ha b (by omega) he).1
  omega

end Graph

/-- **`EulerPath` orients every even graph in balance.** Every pair of distinct vertices gets one
direction, a pair that is no edge from the larger to the smaller vertex, and along the edges every
vertex has as many successors as predecessors. -/
theorem eulerPath_balanced (r : EdgeRec) (numEdge : Nat) (hk : r.k ≤ 8) (hG : r.IsGraph)
    (heven : ∀ u < r.k, (r.neighbours u).card % 2 = 0) (hnum : r.properEdges.card ≤ numEdge) :
    let path := r.eulerPath numEdge
    (∀ a < r.k, ∀ b < r.k, a ≠ b → path.retrieveEdge a b = !path.retrieveEdge b a) ∧
      (∀ a < r.k, ∀ b < a, r.retrieveEdge a b = false → path.retrieveEdge a b = true) ∧
      ∀ u < r.k, ((r.neighbours u).filter fun w => path.retrieveEdge u w = true).card =
        ((r.neighbours u).filter fun w => path.retrieveEdge w u = true).card := by
  intro path
  have hdeg : ∀ u, deg (simple r.edges) u % 2 = 0 := by
    intro u
    rw [deg_eq_card hk hG]
    by_cases hu : u.val < r.k
    · exact heven u hu
    · -- a vertex from `k` on has no edges
      have hnone : r.neighbours u = ∅ := by
        refine Finset.filter_eq_empty_iff.2 fun w hw h => hu ?_
        have hw := Finset.mem_range.1 hw
        exact (hG.below u u.isLt w (by omega) h.2).1
      rw [hnone, Finset.card_empty]
  have hsize : size (simple r.edges) ≤ 2 * numEdge := by
    rw [size_eq_card hk hG]
    omega
  have hor : Oriented (simple r.edges) (fun a b => decide (b < a)) (mat path.edges) := by
    apply eulerPath_spec hk ?_ ?_ hdeg hsize
    · intro a b
      rw [← EdgeRec.retrieveEdge_eq, ← EdgeRec.retrieveEdge_eq]
      exact hG.symm a a.isLt b b.isLt
    · intro a b h
      exact hG.below a a.isLt b b.isLt ((EdgeRec.retrieveEdge_eq r a b).trans h)
  have hpath : ∀ a b : Fin 8, path.retrieveEdge a b = mat path.edges a b := path.retrieveEdge_eq
  refine ⟨?_, ?_, ?_⟩
  · intro a ha b hb hab
    have h := hor.antisymm ⟨a, by omega⟩ ⟨b, by omega⟩ (by simpa using hab)
    rwa [← hpath, ← hpath] at h
  · intro a ha b hb he
    have hne : (⟨a, by omega⟩ : Fin 8) ≠ ⟨b, by omega⟩ := by
      simp only [ne_eq, Fin.mk.injEq]
      omega
    have h := hor.kept ⟨a, by omega⟩ ⟨b, by omega⟩ hne (by simp [simple_eq, he])
    rw [← hpath] at h
    simpa [hb] using h
  · intro u hu
    have hbal := hor.balanced ⟨u, by omega⟩
    rw [net_eq_out_sub_in] at hbal
    have hout := sum_simple_eq_card hk hG ⟨u, by omega⟩ fun w => path.retrieveEdge u w
    have hin := sum_simple_eq_card hk hG ⟨u, by omega⟩ fun w => path.retrieveEdge w u
    have hrev : ∑ w : Fin 8, (simple r.edges ⟨u, by omega⟩ w &&
      !mat path.edges ⟨u, by omega⟩ w).toNat =
        ∑ w : Fin 8, (simple r.edges ⟨u, by omega⟩ w && path.retrieveEdge w u).toNat := by
      refine Finset.sum_congr rfl fun w _ => ?_
      by_cases hw : w = ⟨u, by omega⟩
      · simp [hw, simple]
      · have h := hor.antisymm w ⟨u, by omega⟩ hw
        rw [← h, ← hpath]
    rw [hrev] at hbal
    dsimp only at hout hin
    rw [← hout, ← hin]
    have hfwd : ∑ w : Fin 8, (simple r.edges ⟨u, by omega⟩ w && path.retrieveEdge u w).toNat =
        ∑ w : Fin 8, (simple r.edges ⟨u, by omega⟩ w && mat path.edges ⟨u, by omega⟩ w).toNat :=
      Finset.sum_congr rfl fun w _ => by rw [← hpath]
    rw [hfwd]
    exact Int.ofNat_inj.1 (Int.sub_eq_zero.1 hbal)

/-- Two triangles that meet in the vertex 0, and a self loop. -/
def bowTie : EdgeRec :=
  [(0, 1), (1, 2), (2, 0), (0, 3), (3, 4), (4, 0), (2, 2)].foldl
    (fun r p => r.flipEdge p.1 p.2) (.new 5)

theorem eulerPath_balanced_bowTie :
    let path := bowTie.eulerPath 6
    (∀ a < 5, ∀ b < 5, a ≠ b → path.retrieveEdge a b = !path.retrieveEdge b a) ∧
      (∀ a < 5, ∀ b < a, bowTie.retrieveEdge a b = false → path.retrieveEdge a b = true) ∧
      ∀ u < 5, ((bowTie.neighbours u).filter fun w => path.retrieveEdge u w = true).card =
        ((bowTie.neighbours u).filter fun w => path.retrieveEdge w u = true).card :=
  eulerPath_balanced bowTie 6 (by decide) ⟨by decide, by decide⟩ (by decide) (by decide)

end EM.Algorithm
