import OblSort.Algorithm.Proof.BinPacking
import Mathlib.Tactic.Ring

/-!
# Routing to buckets

`routing_routed`: both recursions of the bucket shuffle bring every real element to the bucket that
the top bits of its tag name, whatever the vectors are. The vectors are described by their lengths
and by what can be read at each position (`Lawful`); copies are of whole pieces of `g` elements.

A call is given a range that holds `xs`, and ends with `ys` in the output (`Done`), or in an
overflow. Besides the two ranges it changes none of the vectors that exist when it is made
(`Frame`). That the two halves of the recursion compose is a fact about lists (`Routed.compose`).
-/

namespace EM.Algorithm.CABucketSort

open Store Loop

/-! ## Two halves -/

section Halves

variable {α : Type} {o a b Z : Nat}

theorem digit_add (h : o + (a + b) ≤ 63) (x : TaggedT α) :
    digit o (a + b) x = digit o a x * 2 ^ b + digit (o + a) b x := by
  have hdiv : x.tag.toNat / 2 ^ (64 - o - a) = x.tag.toNat / 2 ^ (64 - o - (a + b)) / 2 ^ b := by
    rw [Nat.div_div_eq_div_mul, ← Nat.pow_add, show 64 - o - (a + b) + b = 64 - o - a by omega]
  rw [digit, digit, digit, hdiv,
    show 64 - (o + a) - b = 64 - o - (a + b) by omega, Nat.add_comm a b,
    Nat.pow_add, Nat.mod_mul, Nat.add_comm, Nat.mul_comm]

/-- The elements of a digit, by its two halves. -/
theorem ofDigit_ofDigit (h : o + (a + b) ≤ 63) {k m : Nat} (hm : m < 2 ^ b)
    (xs : List (TaggedT α)) :
    ofDigit (o + a) b m (ofDigit o a k xs) = ofDigit o (a + b) (k * 2 ^ b + m) xs := by
  rw [ofDigit, ofDigit, ofDigit, List.filter_filter]
  refine List.filter_congr fun x _ => ?_
  rw [← Bool.decide_and, digit_add h]
  refine decide_eq_decide.2 ⟨fun h => by rw [h.1, h.2], fun heq => ?_⟩
  have hlt := digit_lt (o + a) b x
  have hpos := Nat.two_pow_pos b
  have hdiv := congrArg (· / 2 ^ b) heq
  have hmod := congrArg (· % 2 ^ b) heq
  simp only [Nat.add_comm (_ * 2 ^ b), Nat.add_mul_div_right _ _ hpos, Nat.add_mul_mod_self_right,
    Nat.div_eq_of_lt hlt, Nat.div_eq_of_lt hm, Nat.mod_eq_of_lt hlt, Nat.mod_eq_of_lt hm,
    Nat.zero_add] at hdiv hmod
  exact ⟨hmod, hdiv⟩

/-- A bucket of lists of `b` layers, one after the other. -/
theorem bucket_gather {n k m : Nat} {f : Nat → List (TaggedT α)}
    (h : ∀ i < n, (f i).length = 2 ^ b * Z) (hk : k < n) (hm : m < 2 ^ b) :
    bucket Z (k * 2 ^ b + m) (gather n f) = bucket Z m (f k) := by
  obtain ⟨r, rfl⟩ := Nat.exists_eq_add_of_le (show k + 1 ≤ n by omega)
  have hfront := length_gather fun i (hi : i < k) => h i (by omega)
  have hpos : (k * 2 ^ b + m) * Z = (gather k f).length + m * Z := by
    rw [hfront]
    ring
  have hfit : m * Z + Z ≤ (f k).length := by
    rw [h k (by omega), ← Nat.succ_mul]
    exact Nat.mul_le_mul_right Z hm
  rw [bucket, bucket, gather_add, gather_succ, List.append_assoc, hpos, ← List.drop_drop,
    List.drop_left, List.drop_append_of_le_length (by omega), List.take_append_of_le_length]
  rw [List.length_drop]
  omega

/-- **Two halves of a routing compose**: the batches `i` by the first `a` bits, then bucket `k` of
all of them by the `b` bits after. -/
theorem Routed.compose (h : o + (a + b) ≤ 63) {xs : List (TaggedT α)}
    {ys zs : Nat → List (TaggedT α)} (hxs : xs.length = 2 ^ (a + b) * Z)
    (h1 : ∀ i < 2 ^ b, Routed o a Z (bucket (2 ^ a * Z) i xs) (ys i))
    (h2 : ∀ k < 2 ^ a, Routed (o + a) b Z (gather (2 ^ b) fun i => bucket Z k (ys i)) (zs k)) :
    Routed o (a + b) Z xs (gather (2 ^ a) zs) := by
  refine ⟨?_, fun q hq => ?_⟩
  · rw [length_gather fun k hk => (h2 k hk).size]
    ring
  · have hpos := Nat.two_pow_pos b
    have hk : q / 2 ^ b < 2 ^ a := by
      rw [Nat.div_lt_iff_lt_mul hpos, ← Nat.pow_add]
      exact hq
    have hm := Nat.mod_lt q hpos
    have hsplit : q = q / 2 ^ b * 2 ^ b + q % 2 ^ b := by
      rw [Nat.mul_comm]
      exact (Nat.div_add_mod q _).symm
    generalize q / 2 ^ b = k at hk hsplit
    generalize q % 2 ^ b = m at hm hsplit
    subst hsplit
    have hall : gather (2 ^ b) (fun i => bucket (2 ^ a * Z) i xs) = xs := by
      have hlen : 2 ^ b * (2 ^ a * Z) = xs.length := by
        rw [hxs]
        ring
      rw [show (fun i => bucket (2 ^ a * Z) i xs) =
        fun i => (xs.drop (i * (2 ^ a * Z))).take (2 ^ a * Z) from rfl, gather_take_drop, hlen,
        List.take_length]
    -- the real elements of bucket `k` of all batches
    have hnext : List.Perm (reals (gather (2 ^ b) fun i => bucket Z k (ys i)))
        (ofDigit o a k (reals xs)) := by
      have hperm : List.Perm (gather (2 ^ b) fun i => reals (bucket Z k (ys i)))
          (gather (2 ^ b) fun i => ofDigit o a k (reals (bucket (2 ^ a * Z) i xs))) :=
        gather_perm fun i hi => (h1 i hi).buckets k hk
      refine (List.Perm.of_eq (gather_filter _ _)).trans (hperm.trans (List.Perm.of_eq ?_))
      conv_rhs => rw [← hall]
      rw [reals, gather_filter, ofDigit, gather_filter]
      rfl
    rw [bucket_gather (fun i hi => (h2 i hi).size) hk hm, ← ofDigit_ofDigit h hm]
    exact ((h2 k hk).buckets m hm).trans (ofDigit_perm _ _ _ hnext)

end Halves

/-! ## Vectors -/

/-- The vectors of a kind: `len` is their length, and `view` what can be read at a position. -/
structure Lawful {V β : Type} (K : Vectors V β) (g : Nat) (len : V → Nat)
    (view : V → Nat → Option β) :
    Prop where
  new : ∀ number size, len (K.new number size) = size
  copyIn : ∀ {v b xs}, g ∣ b → g ∣ xs.length → b + xs.length ≤ len v →
    (∀ i < xs.length, view v (b + i) = xs[i]?) →
    ∃ v', K.copyIn b (b + xs.length) v = some (xs, v') ∧ len v' = len v ∧ view v' = view v
  copyOut : ∀ {v a src}, g ∣ a → g ∣ src.length → a + src.length ≤ len v →
    ∃ v', K.copyOut src a v = some v' ∧ len v' = len v ∧
      ∀ i, view v' i = if a ≤ i ∧ i < a + src.length then src[i - a]? else view v i

/-- The positions of a range. -/
def Within (it : Iter) (size : Nat) (k i : Nat) : Prop :=
    k = it.vec ∧ it.ptr ≤ i ∧ i < it.ptr + size

theorem Iter.add_add (it : Iter) (p q : Nat) : (it.add p).add q = it.add (p + q) := by
  rw [Iter.add, Iter.add, Iter.add, Nat.add_assoc]

section Heaps

variable {V β : Type} {K : Vectors V β} {g : Nat} {len : V → Nat} {view : V → Nat → Option β}
variable {h h' h'' : Heap V} {it : Iter} {xs : List β} {W W' : Nat → Nat → Prop}

variable (len view) in
/-- The range from `it` on holds `xs`. -/
structure Holds (h : Heap V) (it : Iter) (xs : List β) : Prop where
  exists_vec : it.vec < h.allocated
  size : it.ptr + xs.length ≤ len (h.vecs it.vec)
  elements : ∀ i < xs.length, view (h.vecs it.vec) (it.ptr + i) = xs[i]?

variable (len view) in
/-- The vectors of `h` are still there, and nothing in them has changed outside of `W`. -/
structure Frame (W : Nat → Nat → Prop) (h h' : Heap V) : Prop where
  allocated : h.allocated ≤ h'.allocated
  size : ∀ k < h.allocated, len (h'.vecs k) = len (h.vecs k)
  elements : ∀ k < h.allocated, ∀ i, ¬ W k i → view (h'.vecs k) i = view (h.vecs k) i

theorem Frame.refl (W : Nat → Nat → Prop) (h : Heap V) : Frame len view W h h :=
  ⟨Nat.le_refl _, fun _ _ => rfl, fun _ _ _ _ => rfl⟩

theorem Frame.trans (h1 : Frame len view W h h') (h2 : Frame len view W h' h'') :
    Frame len view W h h'' where
  allocated := h1.allocated.trans h2.allocated
  size k hk := (h2.size k (hk.trans_le h1.allocated)).trans (h1.size k hk)
  elements k hk i hi := (h2.elements k (hk.trans_le h1.allocated) i hi).trans
    (h1.elements k hk i hi)

theorem Frame.mono (h1 : Frame len view W h h') (hW : ∀ k < h.allocated, ∀ i, W k i → W' k i) :
    Frame len view W' h h' where
  allocated := h1.allocated
  size := h1.size
  elements k hk i hi := h1.elements k hk i fun hw => hi (hW k hk i hw)

/-- One vector replaced. -/
theorem frame_update {k : Nat} {v : V} (hsize : len v = len (h.vecs k))
    (hview : ∀ i, ¬ W k i → view v i = view (h.vecs k) i) :
    Frame len view W h { h with vecs := Function.update h.vecs k v } where
  allocated := Nat.le_refl _
  size l _ := by
    by_cases hl : l = k
    · subst hl
      simp [hsize]
    · simp [hl]
  elements l _ i hi := by
    by_cases hl : l = k
    · subst hl
      simpa using hview i hi
    · simp [hl]

theorem Holds.frame (hx : Holds len view h it xs) (hf : Frame len view W h h')
    (hW : ∀ i < xs.length, ¬ W it.vec (it.ptr + i)) : Holds len view h' it xs where
  exists_vec := hx.exists_vec.trans_le hf.allocated
  size := by
    rw [hf.size _ hx.exists_vec]
    exact hx.size
  elements i hi := (hf.elements _ hx.exists_vec _ (hW i hi)).trans (hx.elements i hi)

/-- A part of the range. -/
theorem Holds.part (hx : Holds len view h it xs) {k l : Nat} (hkl : k + l ≤ xs.length) :
    Holds len view h (it.add k) ((xs.drop k).take l) := by
  have hlen : ((xs.drop k).take l).length = l := by
    rw [List.length_take, List.length_drop]
    omega
  refine ⟨hx.exists_vec, ?_, fun i hi => ?_⟩
  · have := hx.size
    rw [hlen]
    change it.ptr + k + l ≤ _
    exact Nat.le_trans (by omega) this
  · rw [hlen] at hi
    rw [List.getElem?_take_of_lt hi, List.getElem?_drop, ← hx.elements (k + i) (by omega)]
    change view _ (it.ptr + k + i) = _
    rw [Nat.add_assoc]
    rfl

/-- Parts of one length make up a range. -/
theorem Holds.gather {c m : Nat} {f : Nat → List (TaggedT β)} {view : V → Nat → Option (TaggedT β)}
    (hvec : it.vec < h.allocated) (hsize : it.ptr + m * c ≤ len (h.vecs it.vec))
    (hlen : ∀ j < m, (f j).length = c) (hx : ∀ j < m, Holds len view h (it.add (j * c)) (f j)) :
    Holds len view h it (Store.gather m f) := by
  refine ⟨hvec, by rwa [length_gather hlen], ?_⟩
  induction m with
  | zero => exact fun i hi => absurd hi (Nat.not_lt_zero i)
  | succ m ih =>
    intro i hi
    have hfront := length_gather fun j (hj : j < m) => hlen j (by omega)
    rw [gather_succ] at hi ⊢
    rw [List.length_append, hfront, hlen m (by omega)] at hi
    rw [Nat.succ_mul] at hsize
    by_cases hm : i < m * c
    · rw [List.getElem?_append_left (by omega)]
      exact ih (by omega) (fun j hj => hlen j (by omega)) (fun j hj => hx j (by omega)) i (by omega)
    · have hlast := (hx m (by omega)).elements (i - m * c) (by rw [hlen m (by omega)]; omega)
      rw [List.getElem?_append_right (by omega), hfront, ← hlast]
      change _ = view _ (it.ptr + m * c + (i - m * c))
      rw [show it.ptr + m * c + (i - m * c) = it.ptr + i by omega]
      rfl

variable (hK : Lawful K g len view)

include hK

theorem Holds.copyIn (hx : Holds len view h it xs) (hptr : g ∣ it.ptr) (hlen : g ∣ xs.length) :
    ∃ h', h.copyIn K it xs.length = .ok (xs, h') ∧ Frame len view (fun _ _ => False) h h' := by
  obtain ⟨v', hcopy, hsize, hview⟩ := hK.copyIn hptr hlen hx.size hx.elements
  exact ⟨{ h with vecs := Function.update h.vecs it.vec v' }, by rw [Heap.copyIn, hcopy],
    frame_update hsize fun i _ => by rw [hview]⟩

theorem copyOut_spec (hvec : it.vec < h.allocated)
    (hsize : it.ptr + xs.length ≤ len (h.vecs it.vec)) (hptr : g ∣ it.ptr) (hlen : g ∣ xs.length) :
    ∃ h', h.copyOut K xs it = .ok h' ∧ Frame len view (Within it xs.length) h h' ∧
      Holds len view h' it xs := by
  obtain ⟨v', hcopy, hsize', hview⟩ := hK.copyOut hptr hlen hsize
  refine ⟨{ h with vecs := Function.update h.vecs it.vec v' }, by rw [Heap.copyOut, hcopy],
    frame_update hsize' fun i hi => by rw [hview, if_neg fun hw => hi ⟨rfl, hw⟩], hvec, ?_,
    fun i hi => ?_⟩
  · simpa [hsize'] using hsize
  · have hwritten := hview (it.ptr + i)
    rw [if_pos ⟨by omega, by omega⟩, Nat.add_sub_cancel_left] at hwritten
    simpa using hwritten

/-- A copy to another range. -/
theorem Holds.copy {dest : Iter} (hx : Holds len view h it xs) (hptr : g ∣ it.ptr)
    (hlen : g ∣ xs.length)
    (hvec : dest.vec < h.allocated) (hsize : dest.ptr + xs.length ≤ len (h.vecs dest.vec))
    (hdest : g ∣ dest.ptr) :
    ∃ h', h.copy K xs.length it dest = .ok h' ∧ Frame len view (Within dest xs.length) h h' ∧
      Holds len view h' dest xs := by
  obtain ⟨h1, hin, hf1⟩ := hx.copyIn hK hptr hlen
  obtain ⟨h2, hout, hf2, hholds⟩ := copyOut_spec hK (hvec.trans_le hf1.allocated)
    (by rwa [hf1.size _ hvec]) hdest hlen
  refine ⟨h2, ?_, (hf1.mono fun _ _ _ hw => hw.elim).trans hf2, hholds⟩
  rw [Heap.copy, hin]
  exact hout

omit hK in
theorem alloc_frame (h : Heap V) (size : Nat) (W : Nat → Nat → Prop) :
    Frame len view W h (h.alloc K size) where
  allocated := Nat.le_succ _
  size k hk := by simp [Heap.alloc, hk.ne]
  elements k hk i _ := by simp [Heap.alloc, hk.ne]

theorem alloc_size (h : Heap V) (size : Nat) : len ((h.alloc K size).vecs h.allocated) = size := by
  simp [Heap.alloc, hK.new]

/-- Copies one after the other to ranges that do not overlap, none of which is in a vector that is
copied from. -/
theorem copy_loop {E : Abort → Prop} {m Z : Nat} (src dest : Nat → Iter) (y : Nat → List β)
    (hsrc : ∀ j < m, Holds len view h (src j) (y j) ∧ (y j).length = Z ∧ g ∣ (src j).ptr)
    (hdest : ∀ j < m, (dest j).vec < h.allocated ∧ (dest j).ptr + Z ≤ len (h.vecs (dest j).vec) ∧
      g ∣ (dest j).ptr)
    (hg : g ∣ Z) (hsep : ∀ j < m, ∀ j' < m, (src j).vec ≠ (dest j').vec)
    (hdisj : ∀ j < m, ∀ j' < m, j ≠ j' → ∀ k i, Within (dest j) Z k i → ¬ Within (dest j') Z k i) :
    Ends (fun h' => Frame len view (fun k i => ∃ j < m, Within (dest j) Z k i) h h' ∧
      ∀ j < m, Holds len view h' (dest j) (y j)) E
      (forRange m (fun j h => h.copy K Z (src j) (dest j)) h) := by
  refine (forRange_ends (fun j h' => Frame len view (fun k i =>
    ∃ j < m, Within (dest j) Z k i) h h' ∧
    ∀ j' < j, Holds len view h' (dest j') (y j')) (E := E)
    ⟨Frame.refl _ h, fun j hj => by omega⟩ ?_)
  rintro j hj h' ⟨hf, hdone⟩
  obtain ⟨hx, hlen, hptr⟩ := hsrc j hj
  obtain ⟨hvec, hsize, hdptr⟩ := hdest j hj
  have hx' : Holds len view h' (src j) (y j) := by
    refine hx.frame hf ?_
    rintro i _ ⟨j', hj', hw⟩
    exact hsep j hj j' hj' hw.1
  obtain ⟨h'', hcopy, hf', hnew⟩ := hx'.copy hK hptr (by rwa [hlen]) (hvec.trans_le hf.allocated)
    (by rwa [hf.size _ hvec, hlen]) hdptr
  rw [hlen] at hcopy hf'
  rw [hcopy]
  refine ⟨hf.trans (hf'.mono fun k _ i hw => ⟨j, hj, hw⟩), fun j' hj' => ?_⟩
  by_cases hjj : j' = j
  · subst hjj
    exact hnew
  · have hlen' := (hsrc j' (by omega)).2.1
    refine (hdone j' (by omega)).frame hf' fun i hi hw => ?_
    exact hdisj j hj j' (by omega) (fun h => hjj h.symm) _ _ hw
      ⟨rfl, Nat.le_add_right _ _, by rw [hlen'] at hi; omega⟩

end Heaps

/-! ## The recursion -/

/-- A recursion on `2 ^ L` buckets that splits four buckets at least, down to leaves with `P`. -/
inductive Splits (isLeaf : Nat → Bool) (P : Nat → Prop) (Z : Nat) : (L : Nat) → Prop
  | leaf {L : Nat} : isLeaf (2 ^ L * Z) = true → P L → Splits isLeaf P Z L
  | split {L : Nat} : isLeaf (2 ^ L * Z) = false → 2 ≤ L → Splits isLeaf P Z (L / 2) →
    Splits isLeaf P Z (L - L / 2) → Splits isLeaf P Z L

section Recursion

variable {α V : Type} (len : V → Nat) (view : V → Nat → Option (TaggedT α))

/-- A call of the routing, for `2 ^ L` buckets. -/
structure Call (o L Z : Nat) (h : Heap V) (begin out : Iter) (xs : List (TaggedT α)) : Prop where
  bits : o + L ≤ 63
  length : xs.length = 2 ^ L * Z
  /-- The sizes are below `2 ^ 63`, also of the padded elements. -/
  half : 2 * (2 ^ L * Z) ≤ 2 ^ 63
  /-- The positions of the next layer are computed without a carry. -/
  product : 2 ^ L * Z * 2 ^ (L / 2) ≤ 2 ^ 64
  holds : Holds len view h begin xs
  aligned : Z ∣ begin.ptr
  out_vec : out.vec < h.allocated
  out_size : out.ptr + 2 ^ L * Z ≤ len (h.vecs out.vec)
  out_aligned : Z ∣ out.ptr

/-- How a call ends. -/
def Done (o L Z : Nat) (h : Heap V) (begin out : Iter) (xs : List (TaggedT α))
    (h' : Heap V) : Prop :=
  ∃ ys, Routed o L Z xs ys ∧ Holds len view h' out ys ∧
    Frame len view (fun k i => Within begin (2 ^ L * Z) k i ∨ Within out (2 ^ L * Z) k i) h h'

/-- `route` routes the calls for `2 ^ L` buckets from bit `o` on. -/
def Routes (o L Z : Nat)
    (route : Iter → Nat → Iter → BitVec 64 → Heap V → Except Abort (Heap V)) : Prop :=
  ∀ h begin out xs, Call len view o L Z h begin out xs →
    Ends (Done len view o L Z h begin out xs) (fun e => e = .overflow)
      (route begin (2 ^ L * Z) out (maskAt o) h)

variable {len view}

/-- The sizes of a smaller call. -/
theorem Call.sizes {o L Z L' : Nat} {h : Heap V} {begin out : Iter} {xs : List (TaggedT α)}
    (hc : Call len view o L Z h begin out xs) (hL : L' ≤ L) :
    2 * (2 ^ L' * Z) ≤ 2 ^ 63 ∧ 2 ^ L' * Z * 2 ^ (L' / 2) ≤ 2 ^ 64 := by
  have hpow : 2 ^ L' * Z ≤ 2 ^ L * Z := Nat.mul_le_mul_right Z (Nat.pow_le_pow_right (by decide) hL)
  have hhalf : 2 ^ (L' / 2) ≤ 2 ^ (L / 2) := Nat.pow_le_pow_right (by decide) (by omega)
  exact ⟨Nat.le_trans (Nat.mul_le_mul_left 2 hpow) hc.half,
    Nat.le_trans (Nat.mul_le_mul hpow hhalf) hc.product⟩

theorem length_bucket {Z j m : Nat} {xs : List (TaggedT α)} (hlen : xs.length = m * Z)
    (hj : j < m) :
    (bucket Z j xs).length = Z := by
  have : (j + 1) * Z ≤ m * Z := Nat.mul_le_mul_right Z hj
  rw [Nat.succ_mul] at this
  rw [bucket, List.length_take, List.length_drop, hlen]
  omega

theorem Holds.bucket {h : Heap V} {it : Iter} {Z j m : Nat} {xs : List (TaggedT α)}
    (hx : Holds len view h it xs) (hlen : xs.length = m * Z) (hj : j < m) :
    Holds len view h (it.add (j * Z)) (bucket Z j xs) := by
  have : (j + 1) * Z ≤ m * Z := Nat.mul_le_mul_right Z hj
  rw [Nat.succ_mul] at this
  exact hx.part (by omega)

/-- Different pieces of one length do not overlap. -/
theorem within_disjoint (it : Iter) {c p q : Nat} (hne : p ≠ q) (k i : Nat)
    (hp : Within (it.add (p * c)) c k i) : ¬ Within (it.add (q * c)) c k i := by
  rintro ⟨-, hq1, hq2⟩
  obtain ⟨-, hp1, hp2⟩ := hp
  simp only [Iter.add] at hq1 hq2 hp1 hp2
  rcases Nat.lt_or_gt_of_ne hne with hlt | hlt
  · have := Nat.mul_le_mul_right c hlt
    rw [Nat.succ_mul] at this
    omega
  · have := Nat.mul_le_mul_right c hlt
    rw [Nat.succ_mul] at this
    omega

/-- A call that reads its range at once, and writes the output at once. -/
theorem leaf_routes {K : Vectors V (TaggedT α)} {g o L Z : Nat} (hK : Lawful K g len view)
    (hg : g ∣ Z) {f : Nat → BitVec 64 → List (TaggedT α) → Except Abort (List (TaggedT α))}
    (hf : ∀ xs : List (TaggedT α), o + L ≤ 63 → xs.length = 2 ^ L * Z → 2 * (2 ^ L * Z) ≤ 2 ^ 63 →
      2 ^ L * Z * 2 ^ (L / 2) ≤ 2 ^ 64 →
      Ends (Routed o L Z xs) (fun e => e = .overflow) (f (2 ^ L * Z) (maskAt o) xs)) :
    Routes len view o L Z fun begin size out mask h =>
      h.copyIn K begin size >>= fun (xs, h) => f size mask xs >>= fun ys => h.copyOut K ys out := by
  intro h begin out xs hc
  have hsize : g ∣ 2 ^ L * Z := hg.trans (Nat.dvd_mul_left Z _)
  obtain ⟨h₁, hin, hf₁⟩ := hc.holds.copyIn hK (hg.trans hc.aligned) (by rwa [hc.length])
  rw [hc.length] at hin
  dsimp only
  rw [hin]
  refine (hf xs hc.bits hc.length hc.half hc.product).bind fun ys hy => ?_
  obtain ⟨h₂, hout, hf₂, hnew⟩ := copyOut_spec hK (hc.out_vec.trans_le hf₁.allocated)
    (by rw [hf₁.size _ hc.out_vec, hy.size]; exact hc.out_size) (hg.trans hc.out_aligned)
    (by rwa [hy.size])
  rw [hy.size] at hf₂
  rw [hout]
  exact ⟨ys, hy, hnew, (hf₁.mono fun _ _ _ => False.elim).trans (hf₂.mono fun _ _ _ => .inr)⟩

section Phases

variable {K : Vectors V (TaggedT α)} {g o a b Z : Nat} {h : Heap V} {begin out : Iter}
  {xs : List (TaggedT α)} {route : Iter → Nat → Iter → BitVec 64 → Heap V → Except Abort (Heap V)}
variable (hK : Lawful K g len view) (hg : g ∣ Z) (hc : Call len view o (a + b) Z h begin out xs)

variable (len view) in
/-- What is left of the first half when `i` batches have been routed. The pieces of the next layer
are numbered bucket by bucket. -/
structure FirstHalf (o a b Z : Nat) (begin next : Iter) (xs : List (TaggedT α)) (h₁ : Heap V)
    (i : Nat) (h : Heap V) : Prop where
  frame : Frame len view (fun k p => Within begin (2 ^ (a + b) * Z) k p ∨ k = next.vec) h₁ h
  rest : ∀ i', i ≤ i' → i' < 2 ^ b →
    Holds len view h (begin.add (i' * (2 ^ a * Z))) (bucket (2 ^ a * Z) i' xs)
  routed : ∀ i' < i, ∃ y, Routed o a Z (bucket (2 ^ a * Z) i' xs) y ∧
    ∀ j < 2 ^ a, Holds len view h (next.add ((j * 2 ^ b + i') * Z)) (bucket Z j y)

include hc

include hK hg in
/-- One batch of the first half. -/
theorem FirstHalf.step (hroute : Routes len view o a Z route) {h₁ h₂ : Heap V} {next : Iter}
    {i : Nat} {pos : Nat → Nat} (hi : i < 2 ^ b) (hpos : ∀ j < 2 ^ a, pos j = (j * 2 ^ b + i) * Z)
    (hnext : begin.vec < next.vec ∧ next.vec < h₁.allocated ∧ next.ptr = 0)
    (hsize : len (h₁.vecs next.vec) = 2 ^ (a + b) * Z)
    (hx : FirstHalf len view o a b Z begin next xs h₁ i h₂) :
    Ends (FirstHalf len view o a b Z begin next xs h₁ (i + 1))
      (fun e => e = .overflow)
      (route (begin.add (i * (2 ^ a * Z))) (2 ^ a * Z) (begin.add (i * (2 ^ a * Z)))
        (maskAt o) h₂ >>= forRange (2 ^ a) fun j h =>
          h.copy K Z ((begin.add (i * (2 ^ a * Z))).add (j * Z)) (next.add (pos j))) := by
  obtain ⟨hvec, hex, hptr⟩ := hnext
  have hxs : xs.length = 2 ^ b * (2 ^ a * Z) := by
    rw [hc.length]
    ring
  have hbatch := hx.rest i (Nat.le_refl i) hi
  have haligned : Z ∣ (begin.add (i * (2 ^ a * Z))).ptr :=
    Nat.dvd_add hc.aligned ⟨i * 2 ^ a, by ring⟩
  have hcall : Call len view o a Z h₂ (begin.add (i * (2 ^ a * Z))) (begin.add (i * (2 ^ a * Z)))
      (bucket (2 ^ a * Z) i xs) :=
    { bits := by
        have := hc.bits
        omega
      length := length_bucket hxs hi
      half := (hc.sizes (Nat.le_add_right a b)).1
      product := (hc.sizes (Nat.le_add_right a b)).2
      holds := hbatch
      aligned := haligned
      out_vec := hbatch.exists_vec
      out_size := by
        have := hbatch.size
        rwa [length_bucket hxs hi] at this
      out_aligned := haligned }
  refine (hroute _ _ _ _ hcall).bind ?_
  rintro h₃ ⟨y, hy, hhold, hf⟩
  -- the batch is in another vector than the next layer
  have hbegin : begin.vec ≠ next.vec := hvec.ne
  have hframe : Frame len view (fun k p => Within begin (2 ^ (a + b) * Z) k p ∨
    k = next.vec) h₁ h₃ := by
    refine hx.frame.trans (hf.mono fun k _ p hw => .inl ?_)
    obtain ⟨hk, hp1, hp2⟩ := or_self_iff.1 hw
    have hle : (i + 1) * (2 ^ a * Z) ≤ 2 ^ b * (2 ^ a * Z) := Nat.mul_le_mul_right _ hi
    rw [Nat.succ_mul] at hle
    simp only [Iter.add] at hp1 hp2
    refine ⟨hk, by omega, ?_⟩
    rw [← hc.length, hxs]
    omega
  have hpiece : ∀ j < 2 ^ a, (j * 2 ^ b + i) * Z + Z ≤ 2 ^ (a + b) * Z := fun j hj => by
    have hq : j * 2 ^ b + i + 1 ≤ 2 ^ (a + b) := by
      have := Nat.mul_le_mul_right (2 ^ b) hj
      rw [Nat.succ_mul, ← Nat.pow_add] at this
      omega
    have := Nat.mul_le_mul_right Z hq
    rwa [Nat.succ_mul] at this
  have hcopies := copy_loop hK (E := fun e => e = .overflow) (h := h₃) (m := 2 ^ a) (Z := Z)
    (fun j => (begin.add (i * (2 ^ a * Z))).add (j * Z)) (fun j => next.add (pos j))
    (fun j => bucket Z j y)
    (fun j hj => ⟨hhold.bucket hy.size hj, length_bucket hy.size hj,
      hg.trans (Nat.dvd_add haligned ⟨j, Nat.mul_comm j Z⟩)⟩)
    (fun j hj => ⟨hex.trans_le hframe.allocated, ?_, ?_⟩) hg (fun j _ j' _ => hbegin) ?_
  · refine hcopies.mono ?_ fun _ => id
    rintro h₄ ⟨hf', hnew⟩
    have hcopied : ∀ k p, (∃ j < 2 ^ a, Within (next.add (pos j)) Z k p) → k = next.vec := by
      rintro k p ⟨j, _, hw⟩
      exact hw.1
    refine ⟨?_, fun i' hi' hib => ?_, fun i' hi' => ?_⟩
    · exact hframe.trans (hf'.mono fun k _ p hw => .inr (hcopied k p hw))
    · refine ((hx.rest i' (by omega) hib).frame hf fun p hp hw => ?_).frame hf'
        fun p _ hw => hbegin (hcopied _ _ hw)
      rw [length_bucket hxs hib] at hp
      exact within_disjoint begin (show i' ≠ i by omega) _ _
        ⟨rfl, Nat.le_add_right _ _, Nat.add_lt_add_left hp _⟩ (or_self_iff.1 hw)
    · by_cases hii : i' = i
      · subst hii
        refine ⟨y, hy, fun j hj => ?_⟩
        have := hnew j hj
        rwa [hpos j hj] at this
      · obtain ⟨y', hy', hold⟩ := hx.routed i' (by omega)
        refine ⟨y', hy', fun j hj => ((hold j hj).frame hf fun p _ hw => ?_).frame hf' ?_⟩
        · exact hbegin (or_self_iff.1 hw).1.symm
        · rintro p hp ⟨j', hj', hw⟩
          rw [hpos j' hj'] at hw
          rw [length_bucket hy'.size hj] at hp
          refine within_disjoint next (fun heq => ?_) _ _
            ⟨rfl, Nat.le_add_right _ _, Nat.add_lt_add_left hp _⟩ hw
          have hmod := congrArg (· % 2 ^ b) heq
          simp only [Nat.mul_add_mod_self_right] at hmod
          rw [Nat.mod_eq_of_lt (show i' < 2 ^ b by omega), Nat.mod_eq_of_lt hi] at hmod
          exact hii hmod
  · change next.ptr + pos j + Z ≤ len (h₃.vecs next.vec)
    rw [hframe.size _ hex, hsize, hptr, Nat.zero_add, hpos j hj]
    exact hpiece j hj
  · change g ∣ next.ptr + pos j
    rw [hptr, Nat.zero_add, hpos j hj]
    exact hg.trans ⟨_, Nat.mul_comm _ _⟩
  · intro j hj j' hj' hne k p hw
    rw [hpos j hj] at hw
    rw [hpos j' hj']
    refine within_disjoint next (fun heq => hne ?_) k p hw
    exact Nat.eq_of_mul_eq_mul_right (Nat.two_pow_pos b) (Nat.add_right_cancel heq)

/-- The second half: bucket `k` of all batches is routed by the bits after. -/
theorem secondHalf_ends (hroute : Routes len view (o + a) b Z route) {h₁ h₂ : Heap V} {next : Iter}
    {next' : Nat → List (TaggedT α)} (hlen : ∀ k < 2 ^ a, (next' k).length = 2 ^ b * Z)
    (hnext : begin.vec < next.vec ∧ next.vec < h₁.allocated ∧ next.ptr = 0)
    (hout : out.vec < next.vec) (hsize : out.ptr + 2 ^ (a + b) * Z ≤ len (h₁.vecs out.vec))
    (hf : Frame len view (fun k p => Within begin (2 ^ (a + b) * Z) k p ∨ k = next.vec) h₁ h₂)
    (hx : ∀ k < 2 ^ a, Holds len view h₂ (next.add (k * (2 ^ b * Z))) (next' k)) :
    Ends (fun h₃ => Frame len view (fun k p => (Within begin (2 ^ (a + b) * Z) k p ∨
        Within out (2 ^ (a + b) * Z) k p) ∨ k = next.vec) h₁ h₃ ∧
        ∀ k < 2 ^ a, ∃ z, Routed (o + a) b Z (next' k) z ∧
          Holds len view h₃ (out.add (k * (2 ^ b * Z))) z)
      (fun e => e = .overflow)
      (forRange (2 ^ a) (fun k h => route (next.add (k * (2 ^ b * Z))) (2 ^ b * Z)
        (out.add (k * (2 ^ b * Z))) (maskAt (o + a)) h) h₂) := by
  obtain ⟨hvec, hex, hptr⟩ := hnext
  have htotal : 2 ^ (a + b) * Z = 2 ^ a * (2 ^ b * Z) := by ring
  have hpiece : ∀ k < 2 ^ a, k * (2 ^ b * Z) + 2 ^ b * Z ≤ 2 ^ (a + b) * Z := fun k hk => by
    have := Nat.mul_le_mul_right (2 ^ b * Z) hk
    rwa [Nat.succ_mul, ← htotal] at this
  have houtvec : out.vec < h₁.allocated := hout.trans hex
  refine (forRange_ends (fun k h₃ => Frame len view (fun k p =>
    (Within begin (2 ^ (a + b) * Z) k p ∨
      Within out (2 ^ (a + b) * Z) k p) ∨ k = next.vec) h₁ h₃ ∧
      (∀ k', k ≤ k' → k' < 2 ^ a → Holds len view h₃ (next.add (k' * (2 ^ b * Z))) (next' k')) ∧
      ∀ k' < k, ∃ z, Routed (o + a) b Z (next' k') z ∧
        Holds len view h₃ (out.add (k' * (2 ^ b * Z))) z) ⟨?_, fun k _ hk => hx k hk, ?_⟩ ?_).mono
    (fun h₃ hI => ⟨hI.1, hI.2.2⟩) fun _ => id
  · exact hf.mono fun k _ p hw => hw.imp_left .inl
  · exact fun k hk => by omega
  · rintro k hk h₃ ⟨hf₃, hrest, hdone⟩
    have hholds := hrest k (Nat.le_refl k) hk
    have hcall : Call len view (o + a) b Z h₃ (next.add (k * (2 ^ b * Z)))
      (out.add (k * (2 ^ b * Z)))
        (next' k) :=
      { bits := by
          have := hc.bits
          omega
        length := hlen k hk
        half := (hc.sizes (Nat.le_add_left b a)).1
        product := (hc.sizes (Nat.le_add_left b a)).2
        holds := hholds
        aligned := by
          change Z ∣ next.ptr + k * (2 ^ b * Z)
          rw [hptr, Nat.zero_add]
          exact ⟨k * 2 ^ b, by ring⟩
        out_vec := houtvec.trans_le hf₃.allocated
        out_size := by
          change out.ptr + k * (2 ^ b * Z) + 2 ^ b * Z ≤ len (h₃.vecs out.vec)
          rw [hf₃.size _ houtvec]
          have := hpiece k hk
          omega
        out_aligned := Nat.dvd_add hc.out_aligned ⟨k * 2 ^ b, by ring⟩ }
    refine (hroute _ _ _ _ hcall).mono ?_ fun _ => id
    rintro h₄ ⟨z, hz, hnew, hf₄⟩
    refine ⟨?_, fun k' hk' hka => ?_, fun k' hk' => ?_⟩
    · refine hf₃.trans (hf₄.mono fun l _ p hw => ?_)
      rcases hw with hw | ⟨hl, hp1, hp2⟩
      · exact .inr hw.1
      · have := hpiece k hk
        simp only [Iter.add] at hp1 hp2
        exact .inl (.inr ⟨hl, by omega, by omega⟩)
    · refine (hrest k' (by omega) hka).frame hf₄ fun p hp hw => ?_
      rw [hlen k' hka] at hp
      rcases hw with hw | hw
      · exact within_disjoint next (show k' ≠ k by omega) _ _
          ⟨rfl, Nat.le_add_right _ _, Nat.add_lt_add_left hp _⟩ hw
      · exact hout.ne hw.1.symm
    · by_cases hkk : k' = k
      · subst hkk
        exact ⟨z, hz, hnew⟩
      · obtain ⟨z', hz', hold⟩ := hdone k' (by omega)
        refine ⟨z', hz', hold.frame hf₄ fun p hp hw => ?_⟩
        rw [hz'.size] at hp
        rcases hw with hw | hw
        · exact hout.ne hw.1
        · exact within_disjoint out (show k' ≠ k by omega) _ _
            ⟨rfl, Nat.le_add_right _ _, Nat.add_lt_add_left hp _⟩ hw

include hK hg in
/-- **A call that splits** routes its elements, when the calls of its halves do. -/
theorem split_ends {route' : Iter → Nat → Iter → BitVec 64 → Heap V → Except Abort (Heap V)}
    (hroute : Routes len view o a Z route) (hroute' : Routes len view (o + a) b Z route')
    {pos : Nat → Nat → Nat} (hpos : ∀ i < 2 ^ b, ∀ j < 2 ^ a, pos i j = (j * 2 ^ b + i) * Z) :
    Ends (Done len view o (a + b) Z h begin out xs) (fun e => e = .overflow)
      (forRange (2 ^ b) (fun i h₂ =>
        route (begin.add (i * (2 ^ a * Z))) (2 ^ a * Z) (begin.add (i * (2 ^ a * Z)))
        (maskAt o) h₂ >>=
        forRange (2 ^ a) fun j h₂ => h₂.copy K Z ((begin.add (i * (2 ^ a * Z))).add (j * Z))
          (Iter.add ⟨h.allocated, 0⟩ (pos i j))) (h.alloc K (2 ^ (a + b) * Z)) >>=
      forRange (2 ^ a) fun k h₂ => route' (Iter.add ⟨h.allocated, 0⟩ (k * (2 ^ b * Z))) (2 ^ b * Z)
        (out.add (k * (2 ^ b * Z))) (maskAt (o + a)) h₂) := by
  have hxs : xs.length = 2 ^ b * (2 ^ a * Z) := by
    rw [hc.length]
    ring
  have hbegin := hc.holds.exists_vec
  have halloc : Frame len view (fun _ _ => False) h (h.alloc K (2 ^ (a + b) * Z)) := alloc_frame ..
  have hnext : begin.vec < h.allocated ∧ h.allocated < (h.alloc K (2 ^ (a + b) * Z)).allocated ∧
    0 = 0 :=
    ⟨hbegin, Nat.lt_succ_self _, rfl⟩
  have hsize := alloc_size hK h (2 ^ (a + b) * Z)
  have hstart : FirstHalf len view o a b Z begin ⟨h.allocated, 0⟩ xs (h.alloc K (2 ^ (a + b) * Z)) 0
      (h.alloc K (2 ^ (a + b) * Z)) :=
    ⟨Frame.refl _ _, fun i _ hi => (hc.holds.bucket hxs hi).frame halloc fun _ _ => id,
      fun i hi => by omega⟩
  refine (forRange_ends _ hstart fun i hi h₂ hx =>
    hx.step hK hg hc hroute hi (hpos i hi) hnext hsize).bind fun h₂ hx => ?_
  -- the batches as they were routed
  have hchoose : ∀ i, ∃ y, i < 2 ^ b → Routed o a Z (bucket (2 ^ a * Z) i xs) y ∧
      ∀ j < 2 ^ a, Holds len view h₂ (Iter.add ⟨h.allocated, 0⟩ ((j * 2 ^ b + i) * Z))
      (bucket Z j y) :=
    fun i => by
      by_cases hi : i < 2 ^ b
      · obtain ⟨y, hy⟩ := hx.routed i hi
        exact ⟨y, fun _ => hy⟩
      · exact ⟨[], fun h => absurd h hi⟩
  choose ys hys using hchoose
  have hlen : ∀ k < 2 ^ a, (gather (2 ^ b) fun i => bucket Z k (ys i)).length = 2 ^ b * Z :=
    fun k hk => length_gather fun i hi => length_bucket (hys i hi).1.size hk
  have hholds : ∀ k < 2 ^ a, Holds len view h₂ (Iter.add ⟨h.allocated, 0⟩ (k * (2 ^ b * Z)))
      (gather (2 ^ b) fun i => bucket Z k (ys i)) := fun k hk => by
    refine Holds.gather (hnext.2.1.trans_le hx.frame.allocated) ?_
      (fun i hi => length_bucket (hys i hi).1.size hk) fun i hi => ?_
    · change 0 + k * (2 ^ b * Z) + 2 ^ b * Z ≤ len (h₂.vecs h.allocated)
      rw [hx.frame.size _ hnext.2.1, hsize, Nat.zero_add, ← Nat.succ_mul,
        show 2 ^ (a + b) * Z = 2 ^ a * (2 ^ b * Z) by ring]
      exact Nat.mul_le_mul_right _ hk
    · have := (hys i hi).2 k hk
      rwa [show (k * 2 ^ b + i) * Z = k * (2 ^ b * Z) + i * Z by ring, ← Iter.add_add] at this
  refine (secondHalf_ends hc hroute' hlen hnext hc.out_vec
    (by rw [halloc.size _ hc.out_vec]; exact hc.out_size) hx.frame hholds).mono ?_ fun _ => id
  rintro h₃ ⟨hf, hdone⟩
  have hchoose : ∀ k, ∃ z, k < 2 ^ a → Routed (o + a) b Z (gather (2 ^ b) fun i =>
    bucket Z k (ys i)) z ∧
      Holds len view h₃ (out.add (k * (2 ^ b * Z))) z := fun k => by
    by_cases hk : k < 2 ^ a
    · obtain ⟨z, hz⟩ := hdone k hk
      exact ⟨z, fun _ => hz⟩
    · exact ⟨[], fun h => absurd h hk⟩
  choose zs hzs using hchoose
  have houtvec : out.vec < (h.alloc K (2 ^ (a + b) * Z)).allocated := hc.out_vec.trans hnext.2.1
  refine ⟨gather (2 ^ a) zs, ?_, ?_, ?_⟩
  · exact Routed.compose hc.bits hc.length (fun i hi => (hys i hi).1) fun k hk => (hzs k hk).1
  · refine Holds.gather (houtvec.trans_le hf.allocated) ?_ (fun k hk => (hzs k hk).1.size)
      fun k hk => (hzs k hk).2
    rw [hf.size _ houtvec, halloc.size _ hc.out_vec,
      show 2 ^ a * (2 ^ b * Z) = 2 ^ (a + b) * Z by ring]
    exact hc.out_size
  · refine ⟨halloc.allocated.trans hf.allocated, fun k hk => ?_, fun k hk p hp => ?_⟩
    · rw [hf.size _ (hk.trans_le halloc.allocated), halloc.size _ hk]
    · rw [hf.elements _ (hk.trans_le halloc.allocated) p fun hw => hw.elim hp hk.ne,
        halloc.elements _ hk p id]

end Phases

section Whole

variable {K : Vectors V (TaggedT α)} {g Z : Nat} {isLeaf : Nat → Bool}
  {leaf : Iter → Nat → Iter → BitVec 64 → Heap V → Except Abort (Heap V)}

/-- The recursion on `2 ^ L` buckets, with its sizes computed. -/
theorem routing_split {L o : Nat} (hZ : 0 < Z) (hL : L < 64) (fuel : Nat) (begin out : Iter)
    (h : Heap V) (hleaf : isLeaf (2 ^ L * Z) = false) :
    routing K Z isLeaf leaf (fuel + 1) begin (2 ^ L * Z) out (maskAt o) h =
      (forRange (2 ^ (L - L / 2)) (fun i h₂ =>
        routing K Z isLeaf leaf fuel (begin.add (i * (2 ^ (L / 2) * Z))) (2 ^ (L / 2) * Z)
          (begin.add (i * (2 ^ (L / 2) * Z))) (maskAt o) h₂ >>=
        forRange (2 ^ (L / 2)) fun j h₂ => h₂.copy K Z
          ((begin.add (i * (2 ^ (L / 2) * Z))).add (j * Z))
          (Iter.add ⟨h.allocated, 0⟩ (j * (2 ^ L * Z) % 2 ^ 64 / 2 ^ (L / 2) + i * Z)))
        (h.alloc K (2 ^ L * Z)) >>=
      forRange (2 ^ (L / 2)) fun k h₂ => routing K Z isLeaf leaf fuel
        (Iter.add ⟨h.allocated, 0⟩ (k * (2 ^ (L - L / 2) * Z))) (2 ^ (L - L / 2) * Z)
        (out.add (k * (2 ^ (L - L / 2) * Z))) (maskAt (o + L / 2)) h₂) := by
  have hlayer : getLogBaseTwo (2 ^ L * Z / Z) = L := by
    rw [Nat.mul_div_cancel _ hZ, getLogBaseTwo_two_pow L hL]
  have hdiv : ∀ a ≤ L, 2 ^ L * Z / (2 ^ a * Z) = 2 ^ (L - a) := fun a ha => by
    rw [Nat.mul_div_mul_right _ _ hZ, Nat.pow_div ha (by decide)]
  have hmask : maskAt o >>> (L / 2) = maskAt (o + L / 2) := by
    rw [maskAt, maskAt, BitVec.shiftRight_add]
  rw [routing, hleaf, if_neg Bool.false_ne_true, hlayer]
  dsimp only
  rw [Nat.mul_comm Z, hdiv _ (by omega), hdiv _ (by omega), hmask,
    show L - (L - L / 2) = L / 2 by omega]

/-- **The recursion** routes when it splits four buckets at least, and its leaves do. -/
theorem routing_routed (hK : Lawful K g len view) (hg : g ∣ Z) (hZ : 0 < Z) {P : Nat → Prop}
    (hleaf : ∀ o L, isLeaf (2 ^ L * Z) = true → P L → Routes len view o L Z leaf) {o L : Nat}
    (hsplits : Splits isLeaf P Z L) {fuel : Nat} (hfuel : L < fuel) :
    Routes len view o L Z (routing K Z isLeaf leaf fuel) := by
  induction hsplits generalizing o fuel with
  | leaf hl hP =>
    obtain ⟨fuel, rfl⟩ := Nat.exists_eq_add_of_le' (Nat.zero_lt_of_lt hfuel)
    intro h begin out xs hc
    rw [routing, hl, if_pos rfl]
    exact hleaf o _ hl hP h begin out xs hc
  | @split L hl hL _ _ ih ih' =>
    obtain ⟨fuel, rfl⟩ := Nat.exists_eq_add_of_le' (Nat.zero_lt_of_lt hfuel)
    intro h begin out xs hc
    have hbits := hc.bits
    have hsum : L / 2 + (L - L / 2) = L := by omega
    rw [routing_split hZ (by omega) fuel begin out h hl]
    have hpos : ∀ i < 2 ^ (L - L / 2), ∀ j < 2 ^ (L / 2),
        j * (2 ^ L * Z) % 2 ^ 64 / 2 ^ (L / 2) + i * Z = (j * 2 ^ (L - L / 2) + i) * Z := by
      intro i _ j hj
      have hsize : 2 ^ L * Z = 2 ^ (L / 2) * (2 ^ (L - L / 2) * Z) := by
        rw [← Nat.mul_assoc, ← Nat.pow_add, hsum]
      -- no carry: the positions are below the size times the number of buckets
      have hlt : j * (2 ^ L * Z) < 2 ^ 64 := by
        refine Nat.lt_of_lt_of_le ?_ hc.product
        rw [Nat.mul_comm]
        exact Nat.mul_lt_mul_of_pos_left hj (Nat.mul_pos (Nat.two_pow_pos L) hZ)
      rw [Nat.mod_eq_of_lt hlt, hsize, Nat.mul_left_comm, Nat.mul_div_cancel_left _
        (Nat.two_pow_pos _)]
      ring
    have hc' : Call len view o (L / 2 + (L - L / 2)) Z h begin out xs := by rwa [hsum]
    have hsplit := split_ends hK hg hc' (ih (show L / 2 < fuel by omega))
      (ih' (show L - L / 2 < fuel by omega)) hpos
    rwa [hsum] at hsplit

end Whole

end Recursion

end EM.Algorithm.CABucketSort
