import OblSort.Algorithm.Proof.WaksWalk

/-!
# The Waksman network routes its permutation

`controlBits_spec`: by induction on the number of values, `ControlBits` gives a circuit with which
`WaksShuffleOnline` brings the element at `i` to the position that the value at `i` encodes, and it
leaves its own values there. A level of the network is taken apart in `Level`: the input layer, the
two networks of half the size and the output layer each move positions by a function, and together
they move `x` to its value.
-/

namespace EM.Algorithm.WaksOnOff

variable {α : Type}

/-! ## Layers -/

/-- `ys` has the element of `xs` at `i` at `v i`. -/
structure Routes (n : Nat) (v : Nat → Nat) (xs ys : List α) : Prop where
  length : ys.length = n
  moved : ∀ i < n, ys[v i]? = xs[i]?

/-- Where the switches between `i` and `k + i`, for `i < count`, move a position. -/
def layerPos (bits : Nat → Bool) (k count i : Nat) : Nat :=
  if i < count then if bits i then k + i else i
  else if k ≤ i ∧ i < k + count then if bits (i - k) then i - k else i
  else i

theorem layerPos_left {bits : Nat → Bool} {k count : Nat} (hcount : count < k) :
    layerPos bits k count count = count := by
  rw [layerPos, if_neg (by omega), if_neg (by omega)]

theorem layerPos_right {bits : Nat → Bool} {k count : Nat} :
    layerPos bits k count (k + count) = k + count := by
  rw [layerPos, if_neg (by omega), if_neg (by omega)]

/-- The last switch moves its own two positions only. -/
theorem layerPos_succ {bits : Nat → Bool} {k count i : Nat} (hcount : count < k) :
    layerPos bits k (count + 1) i =
      if i = count then if bits count then k + count else count
      else if i = k + count then if bits count then count else k + count
      else layerPos bits k count i := by
  unfold layerPos
  grind

theorem layerPos_ne (bits : Nat → Bool) {k count i : Nat} (hcount : count < k) (h1 : i ≠ count)
    (h2 : i ≠ k + count) :
    layerPos bits k count i ≠ count ∧ layerPos bits k count i ≠ k + count := by
  unfold layerPos
  grind

/-- **A layer of switches** moves the positions of its pairs. -/
theorem switchLayer_routes {bits : List Bool} {b : Nat → Bool} {k count : Nat} (xs : List α)
    (hcount : count ≤ k) (hlen : k + count ≤ xs.length)
    (hbits : ∀ i < count, bits[i]? = some (b i)) :
    ∃ ys, switchLayer bits k count xs = some ys ∧ ys.length = xs.length ∧
      ∀ i, ys[layerPos b k count i]? = xs[i]? := by
  induction count with
  | zero =>
    refine ⟨xs, rfl, rfl, fun i => ?_⟩
    rw [layerPos, if_neg (by omega), if_neg (by omega)]
  | succ c ih =>
    obtain ⟨ys, hrun, hylen, hys⟩ := ih (by omega) (by omega) fun i hi => hbits i (by omega)
    have hc : c < ys.length := by omega
    have hkc : k + c < ys.length := by omega
    refine ⟨Net.condSwap (fun _ _ => b c) c (k + c) ys, ?_, ?_, fun i => ?_⟩
    · rw [switchLayer, hrun, hbits c (by omega)]
      rfl
    · rw [Net.length_condSwap, hylen]
    · have hleft := hys c
      have hright := hys (k + c)
      rw [layerPos_left (by omega), List.getElem?_eq_getElem hc] at hleft
      rw [layerPos_right, List.getElem?_eq_getElem hkc] at hright
      rw [Net.getElem?_condSwap _ hc hkc, layerPos_succ (by omega)]
      by_cases h1 : i = c
      · subst h1
        cases hb : b i with
        | true => simp [hleft]
        | false => simp [← hleft]
      · by_cases h2 : i = k + c
        · subst h2
          cases hb : b c with
          | true => simp [hright, show k ≠ 0 by omega]
          | false => simp [← hright, show k ≠ 0 by omega]
        · have hne := layerPos_ne b (show c < k by omega) h1 h2
          simp only [h1, h2, if_false, hne.1, hne.2, ite_self]
          exact hys i

/-- A layer reads its own control bits only. -/
theorem switchLayer_congr {bits bits' : List Bool} {k count : Nat} {xs : List α}
    (h : ∀ i < count, bits'[i]? = bits[i]?) :
    switchLayer bits' k count xs = switchLayer bits k count xs := by
  induction count with
  | zero => rfl
  | succ c ih => rw [switchLayer, switchLayer, ih fun i hi => h i (by omega), h c (by omega)]

/-- The output layer takes its control bits from the values that come to the top. -/
theorem outBits_eq {k count : Nat} {P : List Nat} (hcount : count ≤ k)
    (hlen : k + count ≤ P.length) :
    ∃ bits P', outBits k count P = some (bits, P') ∧ bits.length = count ∧
      (∀ i < count, bits[i]? = P[i]?.map fun x => x &&& 1 == 1) ∧
      switchLayer bits k count P = some P' := by
  induction count with
  | zero => exact ⟨[], P, rfl, rfl, fun i hi => absurd hi (Nat.not_lt_zero i), rfl⟩
  | succ c ih =>
    obtain ⟨bits, P', hrun, hblen, hbits, hswitch⟩ := ih (by omega) (by omega)
    have hc : c < P.length := by omega
    -- the earlier switches have not touched position `c`
    obtain ⟨P'', hswitch', -, hmoved⟩ :=
      switchLayer_routes (b := fun i => P[i]?.getD 0 &&& 1 == 1) P
      (show c ≤ k by omega) (show k + c ≤ P.length by omega) fun i hi => by
        rw [hbits i hi, List.getElem?_eq_getElem (show i < P.length by omega)]
        rfl
    rw [hswitch] at hswitch'
    cases hswitch'
    have hPc : P'[c]? = some (P.get ⟨c, hc⟩) := by
      have := hmoved c
      rw [layerPos_left (by omega), List.getElem?_eq_getElem hc] at this
      exact this
    have hget : ∀ i < c, (bits ++ [P.get ⟨c, hc⟩ &&& 1 == 1])[i]? = bits[i]? := fun i hi =>
      List.getElem?_append_left (by omega)
    have hlast : (bits ++ [P.get ⟨c, hc⟩ &&& 1 == 1])[c]? = some (P.get ⟨c, hc⟩ &&& 1 == 1) := by
      rw [List.getElem?_append_right (by omega), hblen, Nat.sub_self]
      rfl
    refine ⟨bits ++ [P.get ⟨c, hc⟩ &&& 1 == 1],
      Net.condSwap (fun _ _ => P.get ⟨c, hc⟩ &&& 1 == 1) c (k + c) P', ?_, ?_, fun i hi => ?_, ?_⟩
    · rw [outBits, hrun]
      simp only [Option.bind_eq_bind, Option.bind_some, hPc]
    · rw [List.length_append, hblen]
      rfl
    · by_cases hic : i = c
      · subst hic
        rw [hlast, List.getElem?_eq_getElem hc]
        rfl
      · rw [hget i (by omega), hbits i (by omega)]
    · rw [switchLayer, switchLayer_congr hget, hswitch, hlast]
      rfl

/-! ## Reducing values -/

/-- What is taken off a value. -/
def offset (k d x : Nat) : Nat := if x >>> d ≥ k then k * 2 ^ d else 0

theorem offset_le (k d x : Nat) : offset k d x ≤ x := by
  unfold offset
  split
  · rename_i h
    rw [Nat.shiftRight_eq_div_pow] at h
    exact (Nat.mul_le_mul_right _ h).trans (Nat.div_mul_le_self x (2 ^ d))
  · exact Nat.zero_le x

/-- Without a wrap, reducing appends the bit to undo it. -/
theorem reduce_eq {k d x : Nat} (hx : x < 2 ^ 62) :
    reduce k d x = 2 * (x - offset k d x) + (decide (x >>> d ≥ k)).toNat := by
  have hle := offset_le k d x
  have hshift : (if decide (x >>> d ≥ k) = true then k else 0) <<< d = offset k d x := by
    rw [offset, Nat.shiftLeft_eq]
    simp only [decide_eq_true_eq]
    split
    · rfl
    · exact Nat.zero_mul _
  unfold reduce
  dsimp only
  rw [hshift, Nat.mod_eq_of_lt (show offset k d x < 2 ^ 64 by omega),
    show x + (2 ^ 64 - offset k d x) = (x - offset k d x) + 2 ^ 64 by omega, Nat.add_mod_right,
    Nat.mod_eq_of_lt (show x - offset k d x < 2 ^ 64 by omega),
    Nat.mod_eq_of_lt (show (x - offset k d x) <<< 1 < 2 ^ 64 by rw [Nat.shiftLeft_eq]; omega),
    ← Nat.shiftLeft_add_eq_or_of_lt (show (decide (x >>> d ≥ k)).toNat < 2 ^ 1 from
      Bool.toNat_lt _), Nat.shiftLeft_eq]
  omega

theorem reduce_bit {k d x : Nat} (hx : x < 2 ^ 62) :
    (reduce k d x &&& 1 == 1) = decide (x >>> d ≥ k) := by
  rw [reduce_eq hx, Nat.and_one_is_mod]
  cases decide (x >>> d ≥ k) with
  | true => simp
  | false => simp

/-- **Undoing** a reduction. -/
theorem undo_reduce {k d x : Nat} (hx : x < 2 ^ 62) : undo k d (reduce k d x) = x := by
  have hle := offset_le k d x
  have hshift : (if (reduce k d x &&& 1 == 1) = true then k else 0) <<< d = offset k d x := by
    rw [reduce_bit hx, offset, Nat.shiftLeft_eq]
    simp only [decide_eq_true_eq]
    split
    · rfl
    · exact Nat.zero_mul _
  have hhalf : reduce k d x >>> 1 = x - offset k d x := by
    have := Bool.toNat_lt (decide (x >>> d ≥ k))
    rw [reduce_eq hx, Nat.shiftRight_eq_div_pow]
    omega
  unfold undo
  dsimp only
  rw [hshift, hhalf, Nat.sub_add_cancel hle, Nat.mod_eq_of_lt (by omega)]

/-- The value of a reduced number. -/
theorem reduce_value {k d x : Nat} (hx : x < 2 ^ 62) :
    reduce k d x >>> (d + 1) = x >>> d - if x >>> d ≥ k then k else 0 := by
  have hb := Bool.toNat_lt (decide (x >>> d ≥ k))
  rw [reduce_eq hx, Nat.shiftRight_eq_div_pow, Nat.pow_succ', ← Nat.div_div_eq_div_mul,
    show (2 * (x - offset k d x) + (decide (x >>> d ≥ k)).toNat) / 2 = x - offset k d x by omega,
    Nat.shiftRight_eq_div_pow, offset, Nat.shiftRight_eq_div_pow]
  split
  · rw [Nat.mul_comm, Nat.sub_mul_div]
  · rfl

/-! ## A level of the network -/

/-- A position, or a value, within its half. -/
def low (k x : Nat) : Nat := x - if x ≥ k then k else 0

theorem low_lt {k x : Nat} (hx : x < 2 * k) : low k x < k := by
  unfold low
  split <;> omega

/-- Values with one place in the halves are associates. -/
theorem low_inj {k x y : Nat} (heq : low k x = low k y) :
    x = y ∨ y = associate k x := by
  unfold low at heq
  unfold associate
  split at heq <;> split at heq <;> split <;> omega

/-- Where the input layer brings `x`. -/
def entry (k : Nat) (tops : List Nat) (x : Nat) : Nat :=
  if x ∈ tops then low k x else k + low k x

/-- Where the two networks of half the size bring it from there. -/
def exit (k : Nat) (pi : Nat → Nat) (tops : List Nat) (x : Nat) : Nat :=
  if x ∈ tops then low k (pi x) else k + low k (pi x)

section Level

variable {n k : Nat} {pi : Nat → Nat} {tops : List Nat} (hk : divRoundUp n 2 = k) (hn : 2 ≤ n)
  (hV : Values (2 * k) pi) (hS : Split k pi tops) (hodd : n < 2 * k → pi n = n)

include hk hn

theorem level_bounds : 1 ≤ k ∧ k < n ∧ n ≤ 2 * k ∧ 2 * k ≤ n + 1 := by
  have := half_bounds hn
  omega

include hS

/-- The virtual position goes to the bottom. -/
theorem lt_of_mem_tops {x : Nat} (hx : x < 2 * k) (hmem : x ∈ tops) : x < n := by
  have hb := level_bounds hk hn
  by_contra hnot
  have hfirst := (hS.input _ (show k - 1 < 2 * k by omega)).1 hS.first
  rw [associate, if_pos (by omega)] at hfirst
  exact hfirst ((show k - 1 + k = x by omega) ▸ hmem)

/-- **The input layer.** -/
theorem layerPos_input {x : Nat} (hx : x < 2 * k) :
    layerPos (fun p => decide (p + k ∈ tops)) k (k - 1) x = entry k tops x := by
  have hb := level_bounds hk hn
  have hin := hS.input x hx
  have hfirst := hS.first
  have hlast := (hS.input _ (show k - 1 < 2 * k by omega)).1 hS.first
  unfold associate at hin hlast
  rw [if_pos (by omega)] at hlast
  unfold layerPos entry low
  by_cases h1 : x < k - 1
  · rw [if_pos h1]
    rw [if_pos (by omega)] at hin
    by_cases hmem : x ∈ tops
    · simp [hmem, hin.1 hmem, show ¬ x ≥ k by omega]
    · have : x + k ∈ tops := by
        by_contra hnot
        exact hmem (hin.2 hnot)
      simp [hmem, this, show ¬ x ≥ k by omega]
  · rw [if_neg h1]
    by_cases h2 : x = k - 1
    · subst h2
      rw [if_neg (by omega), if_pos hfirst, if_neg (by omega)]
      omega
    · have hge : x ≥ k := by omega
      by_cases h3 : x < k + (k - 1)
      · rw [if_pos ⟨hge, h3⟩, if_pos hge]
        by_cases hmem : x ∈ tops
        · simp [hmem, Nat.sub_add_cancel hge]
        · simp [hmem, Nat.sub_add_cancel hge, Nat.add_sub_cancel' hge]
      · obtain rfl : x = k - 1 + k := by omega
        rw [if_neg (by omega), if_neg hlast, if_pos hge]
        omega

include hV hodd

/-- The value of a position of the bottom has a switch. -/
theorem low_lt_bottom {x : Nat} (hx : x < n) (hmem : x ∉ tops) : low k (pi x) < n - k := by
  have hb := level_bounds hk hn
  have hlt := hV.lt (show x < 2 * k by omega)
  have hlow := low_lt hlt
  by_contra hnot
  -- then the number of values is odd and the value is the partner of the virtual one
  have hpn := hodd (by omega)
  have hlow' : low k (pi x) = low k n := by
    have : low k n = n - k := by rw [low, if_pos (by omega)]
    omega
  rcases low_inj hlow' with h | h
  · have := hV.inj (show x < 2 * k by omega) (show n < 2 * k by omega) (h.trans hpn.symm)
    omega
  · have hout := hS.output x (by omega) n (by omega) (hpn.trans h)
    have hn : n ∈ tops := by
      by_contra hnmem
      exact hmem (hout.2 hnmem)
    have := lt_of_mem_tops hk ‹_› hS (show n < 2 * k by omega) hn
    omega

/-- **The output layer**, when its control bits tell which values of the top belong to the
bottom. -/
theorem layerPos_output {b : Nat → Bool}
    (hbits : ∀ x ∈ tops, x < n → b (low k (pi x)) = decide (pi x ≥ k)) {x : Nat} (hx : x < n)
    (htop : ∀ r < k, ∃ y ∈ tops, y < n ∧ low k (pi y) = r) (hpi : pi x < n) :
    layerPos b k (n - k) (exit k pi tops x) = pi x := by
  have hb := level_bounds hk hn
  have hlow := low_lt (show pi x < 2 * k by omega)
  unfold exit layerPos
  by_cases hmem : x ∈ tops
  · rw [if_pos hmem]
    have hbit := hbits x hmem hx
    by_cases hge : pi x ≥ k
    · have hval : low k (pi x) = pi x - k := by rw [low, if_pos hge]
      rw [if_pos (by omega), hbit, decide_eq_true hge, if_pos rfl]
      omega
    · have hval : low k (pi x) = pi x := by rw [low, if_neg hge, Nat.sub_zero]
      rw [hbit, decide_eq_false hge, hval]
      simp
      omega
  · have hsw := low_lt_bottom hk hn hV hS hodd hx hmem
    rw [if_neg hmem, if_neg (by omega), if_pos ⟨by omega, by omega⟩, Nat.add_sub_cancel_left]
    -- the position of the top with the same switch has the associate of the value
    obtain ⟨y, hy, hyn, hylow⟩ := htop (low k (pi x)) hlow
    have hylt := hV.lt (show y < 2 * k by omega)
    have hassoc : pi y = associate k (pi x) := by
      rcases low_inj hylow.symm with h | h
      · have := hV.inj (show x < 2 * k by omega) (show y < 2 * k by omega) h
        exact absurd (this ▸ hy) hmem
      · exact h
    rw [← hylow, hbits y hy hyn, hylow, hassoc]
    unfold associate low
    by_cases hge : pi x ≥ k
    · have hback : k + (pi x - k) = pi x := Nat.add_sub_cancel' hge
      simp [show ¬ pi x < k by omega, hge, show ¬ pi x - k ≥ k by omega, hback]
    · simp [show pi x < k by omega, hge]

end Level

/-- The values that a list encodes; the virtual one after them. -/
def valueOf (P : List Nat) (d i : Nat) : Nat := (P.map (· >>> d)).getD i P.length

/-- A list of `n` numbers that encodes a permutation at the depth `d`. -/
structure Encodes (n d : Nat) (P : List Nat) : Prop where
  length : P.length = n
  lt : ∀ i < n, valueOf P d i < n
  inj : ∀ i < n, ∀ j < n, valueOf P d i = valueOf P d j → i = j

theorem valueOf_eq {P : List Nat} {d i x : Nat} (h : P[i]? = some x) : valueOf P d i = x >>> d := by
  simp [valueOf, List.getD_eq_getElem?_getD, h]

theorem valueOf_virtual {P : List Nat} {d i : Nat} (h : P.length ≤ i) :
    valueOf P d i = P.length := by
  simp [valueOf, List.getD_eq_getElem?_getD, h]

/-- An injective function below `m` permutes the numbers below `m`. -/
theorem Values.of_inj {m : Nat} {pi : Nat → Nat} (hlt : ∀ x < m, pi x < m)
    (hinj : ∀ x < m, ∀ y < m, pi x = pi y → x = y) : Values m pi := by
  constructor
  have hnodup : ((List.range m).map pi).Nodup := List.Nodup.map_on (fun x hx y hy heq =>
    hinj x (List.mem_range.1 hx) y (List.mem_range.1 hy) heq) List.nodup_range
  refine (List.subperm_of_subset hnodup fun y hy => ?_).perm_of_length_le (by simp)
  obtain ⟨x, hx, rfl⟩ := List.mem_map.1 hy
  exact List.mem_range.2 (hlt x (List.mem_range.1 hx))

/-- With the virtual one, the values are a permutation of an even number of values. -/
theorem Encodes.values {n d : Nat} {P : List Nat} (h : Encodes n d P) (hn : 2 ≤ n) :
    Values (2 * divRoundUp n 2) (valueOf P d) := by
  have hb := level_bounds rfl hn
  have hvirtual : ∀ x, n ≤ x → valueOf P d x = n := fun x hx => by
    rw [valueOf_virtual (h.length.trans_le hx), h.length]
  refine .of_inj (fun x hx => ?_) fun x hx y hy heq => ?_
  · by_cases hxn : x < n
    · have := h.lt x hxn
      omega
    · rw [hvirtual x (by omega)]
      omega
  · by_cases hxn : x < n <;> by_cases hyn : y < n
    · exact h.inj x hxn y hyn heq
    · have := h.lt x hxn
      rw [hvirtual y (by omega)] at heq
      omega
    · have := h.lt y hyn
      rw [hvirtual x (by omega)] at heq
      omega
    · omega

/-- No number is near the end of its range. -/
theorem Encodes.bound {n d i x : Nat} {P : List Nat} (h : Encodes n d P) (hn : 2 ≤ n)
    (hsize : (n - 1) * 2 ^ d < 2 ^ 31) (hx : P[i]? = some x) : x < 2 ^ 62 := by
  have hi : i < n := h.length ▸ (List.getElem?_eq_some_iff.1 hx).1
  have hlt := h.lt i hi
  rw [valueOf_eq hx, Nat.shiftRight_eq_div_pow, Nat.div_lt_iff_lt_mul (Nat.two_pow_pos d)] at hlt
  have hle : n * 2 ^ d ≤ 2 * ((n - 1) * 2 ^ d) := by
    rw [← Nat.mul_assoc]
    exact Nat.mul_le_mul_right _ (by omega)
  omega

/-- **One half** encodes a permutation again. `S` are the positions that go to it. -/
theorem Encodes.half {n d k m : Nat} {P Q : List Nat} {S : Nat → Prop} (h : Encodes n d P)
    (hn : 2 ≤ n) (hsize : (n - 1) * 2 ^ d < 2 ^ 31) (hlen : Q.length = m)
    (hQ : ∀ x < n, S x → Q[low k x]? = P[x]?.map (reduce k d))
    (hcover : ∀ j < m, ∃ x < n, S x ∧ low k x = j)
    (hlt : ∀ x < n, S x → low k (valueOf P d x) < m)
    (hpair : ∀ x < n, ∀ y < n, S x → S y → valueOf P d y ≠ associate k (valueOf P d x)) :
    Encodes m (d + 1) Q ∧
      ∀ x < n, S x → valueOf Q (d + 1) (low k x) = low k (valueOf P d x) := by
  have hval : ∀ x < n, S x → valueOf Q (d + 1) (low k x) = low k (valueOf P d x) :=
    fun x hx hS => by
    have hPx := List.getElem?_eq_getElem (show x < P.length by rw [h.length]; exact hx)
    have hQx := hQ x hx hS
    rw [hPx, Option.map_some] at hQx
    rw [valueOf_eq hQx, valueOf_eq hPx, reduce_value (h.bound hn hsize hPx), low]
  refine ⟨⟨hlen, fun j hj => ?_, fun i hi j hj heq => ?_⟩, hval⟩
  · obtain ⟨x, hx, hS, rfl⟩ := hcover j hj
    rw [hval x hx hS]
    exact hlt x hx hS
  · obtain ⟨x, hx, hSx, rfl⟩ := hcover i hi
    obtain ⟨y, hy, hSy, rfl⟩ := hcover j hj
    rw [hval x hx hSx, hval y hy hSy] at heq
    rcases low_inj heq with heq | heq
    · rw [h.inj x hx y hy heq]
    · exact absurd heq (hpair x hx y hy hSx hSy)

/-- The circuit brings the element at `i` to `v i`, whatever the elements are. -/
def Controls (n : Nat) (v : Nat → Nat) (C : ControlCircuit) : Prop :=
  ∀ (α : Type) (D : List α), D.length = n → ∃ D', waksShuffleOnline C D = some D' ∧ Routes n v D D'

theorem Routes.map {β : Type} {n : Nat} {v : Nat → Nat} {xs ys : List α} (f : α → β)
    (h : Routes n v xs ys) : Routes n v (xs.map f) (ys.map f) where
  length := by rw [List.length_map, h.length]
  moved i hi := by rw [List.getElem?_map, List.getElem?_map, h.moved i hi]

/-- The two halves side by side. -/
theorem routes_halves {n k : Nat} {pi v v' : Nat → Nat} {tops : List Nat}
    {xs ys left right : List α}
    (hkn : k ≤ n) (hlow : ∀ x < n, low k x < k) (hbot : ∀ x < n, x ∉ tops → low k x < n - k)
    (hpi : ∀ x ∈ tops, x < n → low k (pi x) < k)
    (hys : Routes n (entry k tops) xs ys) (hleft : Routes k v (ys.take k) left)
    (hright : Routes (n - k) v' (ys.drop k) right)
    (hv : ∀ x ∈ tops, x < n → v (low k x) = low k (pi x))
    (hv' : ∀ x < n, x ∉ tops → v' (low k x) = low k (pi x)) :
    Routes n (exit k pi tops) xs (left ++ right) := by
  refine ⟨by rw [List.length_append, hleft.length, hright.length]; omega, fun x hx => ?_⟩
  have hmoved := hys.moved x hx
  unfold entry at hmoved
  unfold exit
  by_cases hmem : x ∈ tops
  · rw [if_pos hmem] at hmoved ⊢
    have hlt := hlow x hx
    rw [List.getElem?_append_left (by rw [hleft.length]; exact hpi x hmem hx), ← hv x hmem hx,
      hleft.moved _ hlt, List.getElem?_take_of_lt hlt, hmoved]
  · rw [if_neg hmem] at hmoved ⊢
    rw [List.getElem?_append_right (by rw [hleft.length]; omega), hleft.length,
      Nat.add_sub_cancel_left, ← hv' x hx hmem, hright.moved _ (hbot x hx hmem), List.getElem?_drop,
      hmoved]

/-- The two networks of half the size of a circuit, when there are any. -/
def subnetworks (n k : Nat) (top bot : ControlCircuit) (ys : List α) : Option (List α) :=
  if n > 2 then
    (waksShuffleOnline top (ys.take k)).bind fun left =>
    (waksShuffleOnline bot (ys.drop k)).bind fun right => some (left ++ right)
  else some ys

/-- A run of a node of the circuit. -/
theorem waksShuffleOnline_node {inputs outputs : List Bool} {top bot : ControlCircuit} {k : Nat}
    {D ys zs ws : List α} (hk : divRoundUp D.length 2 = k)
    (hin : switchLayer inputs k (k - 1) D = some ys)
    (hmid : subnetworks D.length k top bot ys = some zs)
    (hout : switchLayer outputs k (D.length - k) zs = some ws) :
    waksShuffleOnline (.node inputs outputs top bot) D = some ws := by
  unfold subnetworks at hmid
  rw [waksShuffleOnline]
  simp only [hk, hin, hmid, hout, Option.bind_some]

/-- **A level** of the network, with what its two halves do given. -/
structure Level (n d k : Nat) (P : List Nat) (tops : List Nat) (inputs : List Bool) : Prop where
  half : divRoundUp n 2 = k
  two_le : 2 ≤ n
  encodes : Encodes n d P
  size : (n - 1) * 2 ^ d < 2 ^ 31
  split : Split k (valueOf P d) tops
  inputs : ∀ p < k - 1, inputs[p]? = some (decide (p + k ∈ tops))

section Level

variable {n d k : Nat} {P tops : List Nat} {inputs : List Bool} (h : Level n d k P tops inputs)

include h

theorem Level.bounds : 1 ≤ k ∧ k < n ∧ n ≤ 2 * k ∧ 2 * k ≤ n + 1 := level_bounds h.half h.two_le

theorem Level.values : Values (2 * k) (valueOf P d) := h.half ▸ h.encodes.values h.two_le

theorem Level.odd (_ : n < 2 * k) : valueOf P d n = n := by
  rw [valueOf_virtual h.encodes.length.le, h.encodes.length]

/-- The input layer. -/
theorem Level.input (D : List α) (hD : D.length = n) :
    ∃ ys, switchLayer inputs k (k - 1) D = some ys ∧ Routes n (entry k tops) D ys := by
  have hb := h.bounds
  obtain ⟨ys, hrun, hlen, hmoved⟩ := switchLayer_routes D (show k - 1 ≤ k by omega)
    (by omega) h.inputs
  refine ⟨ys, hrun, hlen.trans hD, fun x hx => ?_⟩
  rw [← layerPos_input h.half h.two_le h.split (by omega)]
  exact hmoved x

/-- Every place of the top is taken. -/
theorem Level.cover_top : ∀ j < k, ∃ x < n, x ∈ tops ∧ low k x = j := by
  intro j hj
  have hb := h.bounds
  have hin := h.split.input j (by omega)
  rw [associate, if_pos hj] at hin
  by_cases hmem : j ∈ tops
  · refine ⟨j, by omega, hmem, ?_⟩
    rw [low, if_neg (by omega), Nat.sub_zero]
  · have hmem' : j + k ∈ tops := by
      by_contra hnot
      exact hmem (hin.2 hnot)
    refine ⟨j + k, lt_of_mem_tops h.half h.two_le h.split (by omega) hmem', hmem', ?_⟩
    rw [low, if_pos (by omega), Nat.add_sub_cancel]

/-- Every place of the bottom is taken. -/
theorem Level.cover_bottom : ∀ j < n - k, ∃ x < n, x ∉ tops ∧ low k x = j := by
  intro j hj
  have hb := h.bounds
  have hin := h.split.input j (by omega)
  rw [associate, if_pos (by omega)] at hin
  by_cases hmem : j ∈ tops
  · refine ⟨j + k, by omega, hin.1 hmem, ?_⟩
    rw [low, if_pos (by omega), Nat.add_sub_cancel]
  · refine ⟨j, by omega, hmem, ?_⟩
    rw [low, if_neg (by omega), Nat.sub_zero]

/-- A position of the bottom has its place there. -/
theorem Level.low_bottom : ∀ x < n, x ∉ tops → low k x < n - k := by
  intro x hx hmem
  have hb := h.bounds
  have hfirst := h.split.first
  have hne : x ≠ k - 1 := fun heq => hmem (heq ▸ hfirst)
  unfold low
  split <;> omega

/-- The two halves of the reduced values. -/
theorem Level.halves {ys : List Nat} (hys : Routes n (entry k tops) P ys) :
    (Encodes k (d + 1) ((ys.map (reduce k d)).take k) ∧
      ∀ x < n, x ∈ tops → valueOf ((ys.map (reduce k d)).take k) (d + 1) (low k x) =
        low k (valueOf P d x)) ∧
    Encodes (n - k) (d + 1) ((ys.map (reduce k d)).drop k) ∧
      ∀ x < n, x ∉ tops → valueOf ((ys.map (reduce k d)).drop k) (d + 1) (low k x) =
        low k (valueOf P d x) := by
  have hb := h.bounds
  have hV := h.values
  have hlow : ∀ x < n, low k x < k := fun x hx => low_lt (by omega)
  have hout := fun x (hx : x < n) y (hy : y < n) => h.split.output x (by omega) y (by omega)
  have hmoved := (hys.map (reduce k d)).moved
  unfold entry at hmoved
  refine ⟨h.encodes.half (S := (· ∈ tops)) h.two_le h.size ?_ (fun x hx hS => ?_) h.cover_top
    (fun x hx _ => low_lt (hV.lt (by omega))) fun x hx y hy hSx hSy heq =>
      (hout x hx y hy heq).1 hSx hSy,
    h.encodes.half (S := (· ∉ tops)) h.two_le h.size ?_ (fun x hx hS => ?_) h.cover_bottom
    (fun x hx hS => low_lt_bottom h.half h.two_le hV h.split h.odd hx hS)
    fun x hx y hy hSx hSy heq => hSx ((hout x hx y hy heq).2 hSy)⟩
  · rw [List.length_take, List.length_map, hys.length]
    omega
  · have := hmoved x hx
    rw [if_pos hS] at this
    rw [List.getElem?_take_of_lt (hlow x hx), this, List.getElem?_map]
  · rw [List.length_drop, List.length_map, hys.length]
  · have := hmoved x hx
    rw [if_neg hS] at this
    rw [List.getElem?_drop, this, List.getElem?_map]

/-- The two networks of half the size, side by side. -/
theorem Level.middle {P' left right ys : List α} {Q : List Nat}
    (hQ : Routes n (entry k tops) P Q) (hys : Routes n (entry k tops) P' ys)
    (hleft : Routes k (valueOf ((Q.map (reduce k d)).take k) (d + 1)) (ys.take k) left)
    (hright : Routes (n - k) (valueOf ((Q.map (reduce k d)).drop k) (d + 1)) (ys.drop k) right) :
    Routes n (exit k (valueOf P d) tops) P' (left ++ right) := by
  have hb := h.bounds
  obtain ⟨⟨-, htop⟩, -, hbot⟩ := h.halves hQ
  exact routes_halves hb.2.1.le (fun x hx => low_lt (by omega)) h.low_bottom
    (fun x _ hx => low_lt (h.values.lt (by omega))) hys hleft hright
      (fun x hmem hx => htop x hx hmem)
    hbot

/-- Every switch of the output layer has a value of the top. -/
theorem Level.cover_values : ∀ r < k, ∃ y ∈ tops, y < n ∧ low k (valueOf P d y) = r := by
  intro r hr
  have hV := h.values
  obtain ⟨x, hx, hpx⟩ := hV.exists (show r < 2 * k by omega)
  by_cases hmem : x ∈ tops
  · refine ⟨x, hmem, lt_of_mem_tops h.half h.two_le h.split hx hmem, ?_⟩
    rw [hpx, low, if_neg (by omega), Nat.sub_zero]
  · obtain ⟨y, hy, hpy⟩ := hV.exists (show r + k < 2 * k by omega)
    have hout := h.split.output x hx y hy (by rw [hpy, hpx, associate, if_pos hr])
    have hmem' : y ∈ tops := by
      by_contra hnot
      exact hmem (hout.2 hnot)
    refine ⟨y, hmem', lt_of_mem_tops h.half h.two_le h.split hy hmem', ?_⟩
    rw [hpy, low, if_pos (by omega), Nat.add_sub_cancel]

/-- The output layer, with the control bits that the reduced values at the top give. -/
theorem Level.output {outputs : List Bool} {zs : List Nat} {D mid : List α}
    (hzs : Routes n (exit k (valueOf P d) tops) (P.map (reduce k d)) zs)
    (hbits : ∀ i < n - k, outputs[i]? = zs[i]?.map fun x => x &&& 1 == 1)
    (hmid : Routes n (exit k (valueOf P d) tops) D mid) :
    ∃ ws, switchLayer outputs k (n - k) mid = some ws ∧ Routes n (valueOf P d) D ws := by
  have hb := h.bounds
  obtain ⟨ws, hrun, hlen, hmoved⟩ := switchLayer_routes (b := fun i => zs[i]?.getD 0 &&& 1 == 1)
    mid (show n - k ≤ k by omega) (by rw [hmid.length]; omega) fun i hi => by
      rw [hbits i hi, List.getElem?_eq_getElem (show i < zs.length by rw [hzs.length]; omega)]
      rfl
  refine ⟨ws, hrun, hlen.trans hmid.length, fun x hx => ?_⟩
  rw [← hmid.moved x hx, ← hmoved]
  rw [layerPos_output h.half h.two_le h.values h.split h.odd (fun y hy hyn => ?_) hx h.cover_values
    (h.encodes.lt x hx)]
  have hPy := List.getElem?_eq_getElem (show y < P.length by rw [h.encodes.length]; exact hyn)
  have hzy := hzs.moved y hyn
  rw [exit, if_pos hy, List.getElem?_map, hPy, Option.map_some] at hzy
  rw [hzy, Option.getD_some, reduce_bit (h.encodes.bound h.two_le h.size hPy), valueOf_eq hPy]

end Level

/-! ## The network -/

/-- The control bits of the input layer are those of a level. -/
theorem inBits_level {R : Random} {n d : Nat} {P : List Nat} (drawn : Drawn) (hn : 2 ≤ n)
    (h : Encodes n d P) (hsize : (n - 1) * 2 ^ d < 2 ^ 31) (hR : R.Ideal (2 * divRoundUp n 2)) :
    ∃ inputs drawn' tops, inBits R drawn P d = some (inputs, drawn') ∧
      Level n d (divRoundUp n 2) P tops inputs := by
  by_cases hn2 : n = 2
  · subst hn2
    have hV : Values (2 * 1) (valueOf P d) := h.values hn
    refine ⟨[], drawn, [0], ?_, rfl, hn, h, hsize, ⟨List.mem_singleton_self 0, fun x hx => ?_,
      fun x hx y hy hxy => ?_⟩, fun p hp => absurd hp (Nat.not_lt_zero p)⟩
    · rw [inBits, h.length]
      rfl
    · change x < 2 at hx
      change x ∈ [0] ↔ associate 1 x ∉ [0]
      unfold associate
      simp only [List.mem_singleton]
      split <;> omega
    · have hne : y ≠ x := fun heq => (associate_pairs 1).ne _ (hV.lt hx) (heq ▸ hxy).symm
      change x < 2 at hx
      change y < 2 at hy
      simp only [List.mem_singleton]
      omega
  · have hn31 : n ≤ 2 ^ 31 := by
      have := Nat.le_mul_of_pos_right (n - 1) (Nat.two_pow_pos d)
      omega
    have hlen := h.length
    subst hlen
    obtain ⟨inputs, drawn', tops, hrun, -, hsplit, hbits⟩ := inBits_spec drawn
      (show 2 < P.length by omega) (by omega) (fun _ => rfl) (h.values hn) hR
    exact ⟨inputs, drawn', tops, hrun, rfl, hn, h, hsize, hsplit, hbits⟩

theorem InjBelow.mono {β : Type} {m m' : Nat} {g : Nat → β} (h : InjBelow m g) (hm : m' ≤ m) :
    InjBelow m' g :=
  fun x hx y hy heq => h x (by omega) y (by omega) heq

theorem Random.Ideal.mono {R : Random} {m m' : Nat} (h : R.Ideal m) (hm : m' ≤ m) : R.Ideal m' where
  forward call := (h.forward call).mono hm
  backward call := (h.backward call).mono hm
  draw := h.draw

/-- The specification of `ControlBits` for `m` values. -/
def ControlBitsSpec (R : Random) (m : Nat) : Prop :=
  ∀ (d : Nat) (P : List Nat) (drawn : Drawn), 1 ≤ m → Encodes m d P → (m - 1) * 2 ^ d < 2 ^ 31 →
    R.Ideal (2 * divRoundUp m 2) → ∃ C P' drawn', controlBits R m P d drawn = some (C, P', drawn') ∧
      Routes m (valueOf P d) P P' ∧ Controls m (valueOf P d) C

/-- The control bits of the halves, by those of smaller networks. -/
theorem Level.controlBits_halves {R : Random} {n d k : Nat} {P tops Q : List Nat}
    {inputs : List Bool} (h : Level n d k P tops inputs) (hR : R.Ideal (2 * k)) (drawn : Drawn)
    (hQ : Routes n (entry k tops) P Q) (ih : ∀ m < n, ControlBitsSpec R m) :
    ∃ top bot zs drawn', (if n > 2 then
        (controlBits R k ((Q.map (reduce k d)).take k) (d + 1) drawn).bind fun (top, left, drawn) =>
        (controlBits R (n - k) ((Q.map (reduce k d)).drop k) (d + 1) drawn).bind
          fun (bot, right, drawn) => some (top, bot, left ++ right, drawn)
      else some (.null, .null, Q.map (reduce k d), drawn)) = some (top, bot, zs, drawn') ∧
      Routes n (exit k (valueOf P d) tops) (P.map (reduce k d)) zs ∧
      ∀ (α : Type) (D ys : List α), Routes n (entry k tops) D ys →
        ∃ mid, subnetworks n k top bot ys = some mid ∧ Routes n
          (exit k (valueOf P d) tops) D mid := by
  have hb := h.bounds
  obtain ⟨⟨htop, -⟩, hbot, -⟩ := h.halves hQ
  by_cases hn : n > 2
  · have hsize : (k - 1) * 2 ^ (d + 1) < 2 ^ 31 := by
      refine Nat.lt_of_le_of_lt ?_ h.size
      rw [Nat.pow_succ', ← Nat.mul_assoc]
      exact Nat.mul_le_mul_right _ (by omega)
    have hsize' : (n - k - 1) * 2 ^ (d + 1) < 2 ^ 31 :=
      Nat.lt_of_le_of_lt (Nat.mul_le_mul_right _ (by omega)) hsize
    have hRk : R.Ideal (2 * divRoundUp k 2) := hR.mono (by unfold divRoundUp; omega)
    have hRk' : R.Ideal (2 * divRoundUp (n - k) 2) := hR.mono (by unfold divRoundUp; omega)
    obtain ⟨top, left, drawn₁, htoprun, hleft, htopC⟩ :=
      ih k hb.2.1 (d + 1) _ drawn hb.1 htop hsize hRk
    obtain ⟨bot, right, drawn₂, hbotrun, hright, hbotC⟩ :=
      ih (n - k) (by omega) (d + 1) _ drawn₁ (by omega) hbot hsize' hRk'
    refine ⟨top, bot, left ++ right, drawn₂, ?_, h.middle hQ (hQ.map _) hleft hright,
      fun α D ys hys => ?_⟩
    · simp only [if_pos hn, htoprun, Option.bind_some, hbotrun]
    · obtain ⟨left', hleftrun, hleft'⟩ := htopC α (ys.take k) (by
        rw [List.length_take, hys.length]
        omega)
      obtain ⟨right', hrightrun, hright'⟩ :=
        hbotC α (ys.drop k) (by rw [List.length_drop, hys.length])
      refine ⟨left' ++ right', ?_, h.middle hQ hys hleft' hright'⟩
      rw [subnetworks, if_pos hn, hleftrun, Option.bind_some, hrightrun, Option.bind_some]
  · -- two values: each half has one position
    have hone : ∀ {P' : List Nat} {d : Nat}, Encodes 1 d P' → valueOf P' d 0 = 0 := fun h => by
      have := h.lt 0 (by omega)
      omega
    obtain rfl : k = 1 := by omega
    obtain rfl : n = 2 := by omega
    have hsingle : ∀ {α : Type} {v : Nat → Nat} {xs : List α}, v 0 = 0 → xs.length = 1 →
        Routes 1 v xs xs := fun hv hxs => ⟨hxs, fun i hi => by
      obtain rfl : i = 0 := by omega
      rw [hv]⟩
    have hmid : ∀ (α : Type) (D ys : List α), Routes 2 (entry 1 tops) D ys →
        Routes 2 (exit 1 (valueOf P d) tops) D ys := fun α D ys hys => by
      have := h.middle hQ hys (hsingle (hone htop) (by rw [List.length_take, hys.length]; rfl))
        (hsingle (hone hbot) (by rw [List.length_drop, hys.length]))
      rwa [List.take_append_drop] at this
    exact ⟨.null, .null, _, drawn, if_neg hn, hmid _ _ _ (hQ.map _), fun α D ys hys =>
      ⟨ys, if_neg hn, hmid α D ys hys⟩⟩

/-- **The control bits** of a permutation route it, and bring the values themselves there. -/
theorem controlBits_spec (R : Random) (n : Nat) : ControlBitsSpec R n := by
  induction n using Nat.strongRecOn with
  | ind n ih =>
    intro d P drawn hn h hsize hR
    by_cases hn2 : n < 2
    · obtain rfl : n = 1 := by omega
      have hzero : valueOf P d 0 = 0 := by
        have := h.lt 0 (by omega)
        omega
      have hroute : ∀ {α : Type} (xs : List α), xs.length = 1 → Routes 1 (valueOf P d) xs xs :=
        fun xs hxs => ⟨hxs, fun i hi => by
          obtain rfl : i = 0 := by omega
          rw [hzero]⟩
      refine ⟨.null, P, drawn, ?_, hroute P h.length, fun α D hD => ⟨D, ?_, hroute D hD⟩⟩
      · rw [controlBits, if_pos (by omega)]
      · rw [waksShuffleOnline, if_pos hD]
    · obtain ⟨inputs, drawn₁, tops, hin, hL⟩ := inBits_level drawn (show 2 ≤ n by omega) h hsize hR
      have hb := hL.bounds
      obtain ⟨Q, hQrun, hQ⟩ := hL.input P h.length
      obtain ⟨top, bot, zs, drawn₂, hhalves, hzs, hmid⟩ := hL.controlBits_halves hR drawn₁ hQ ih
      obtain ⟨outputs, ws, hout, -, hbits, hswitch⟩ := outBits_eq
        (show n - divRoundUp n 2 ≤ divRoundUp n 2 by omega)
        (show divRoundUp n 2 + (n - divRoundUp n 2) ≤ zs.length by rw [hzs.length]; omega)
      obtain ⟨ws', hswitch', hws⟩ := hL.output hzs hbits hzs
      rw [hswitch] at hswitch'
      cases hswitch'
      refine ⟨.node inputs outputs top bot, ws.map (undo (divRoundUp n 2) d), drawn₂, ?_, ?_,
        fun α D hD => ?_⟩
      · have hQrun' : (if n > 2 then switchLayer inputs (divRoundUp n 2) (divRoundUp n 2 - 1) P
            else some P) = some Q := by
          split
          · exact hQrun
          · obtain rfl : n = 2 := by omega
            exact hQrun
        rw [controlBits, if_neg hn2]
        simp only [hin, hQrun', hhalves, hout, Option.bind_some, dite_eq_ite]
      · refine ⟨by rw [List.length_map, hws.length], fun i hi => ?_⟩
        have hPi := List.getElem?_eq_getElem (show i < P.length by rw [h.length]; exact hi)
        rw [List.getElem?_map, hws.moved i hi, List.getElem?_map, hPi, Option.map_some,
          Option.map_some, undo_reduce (h.bound hL.two_le hsize hPi)]
      · obtain ⟨ys, hysrun, hys⟩ := hL.input D hD
        obtain ⟨mid, hmidrun, hmid⟩ := hmid α D ys hys
        obtain ⟨vs, hvs, hroutes⟩ := hL.output hzs hbits hmid
        subst hD
        exact ⟨vs, waksShuffleOnline_node rfl hysrun hmidrun hvs, hroutes⟩

/-! ## Offline and online -/

/-- A permutation of `0, …, n - 1` encodes itself. -/
theorem encodes_perm {n : Nat} {P : List Nat} (hP : List.Perm P (List.range n)) :
    Encodes n 0 P := by
  have hlen : P.length = n := by rw [hP.length_eq, List.length_range]
  have hval : ∀ i (hi : i < P.length), valueOf P 0 i = P.get ⟨i, hi⟩ := fun i hi => by
    rw [valueOf_eq (List.getElem?_eq_getElem hi), Nat.shiftRight_zero]
    rfl
  refine ⟨hlen, fun i hi => ?_, fun i hi j hj heq => ?_⟩
  · rw [hval i (by omega)]
    exact List.mem_range.1 (hP.mem_iff.1 (List.get_mem P _))
  · rw [hval i (by omega), hval j (by omega)] at heq
    have hinj := List.nodup_iff_injective_get.1 (hP.nodup_iff.2 List.nodup_range) heq
    exact congrArg Fin.val hinj

/-- **Waksman, offline and online**: `ControlBits` of a permutation ends with a circuit that brings
the element at `i` to `P[i]`, and leaves its working array in order. -/
theorem controlBits_waksShuffleOnline {R : Random} {n : Nat} {P : List Nat} (drawn : Drawn)
    (hn : 1 ≤ n) (hn31 : n < 2 ^ 31) (hP : List.Perm P (List.range n))
    (hR : R.Ideal (2 * divRoundUp n 2)) :
    ∃ C drawn', controlBits R n P 0 drawn = some (C, List.range n, drawn') ∧
      ∀ (α : Type) (D : List α), D.length = n → ∃ D', waksShuffleOnline C D = some D' ∧
        D'.length = n ∧ ∀ i x : Nat, P[i]? = some x → D'[x]? = D[i]? := by
  have h := encodes_perm hP
  obtain ⟨C, P', drawn', hrun, hroutes, hC⟩ := controlBits_spec R n 0 P drawn hn h
    (by rw [Nat.pow_zero]; omega) hR
  have hmoved : ∀ {β : Type} {xs ys : List β}, Routes n (valueOf P 0) xs ys → ∀ i x : Nat,
      P[i]? = some x → ys[x]? = xs[i]? := fun hr i x hx => by
    have := hr.moved i (h.length ▸ (List.getElem?_eq_some_iff.1 hx).1)
    rwa [valueOf_eq hx, Nat.shiftRight_zero] at this
  have hsorted : P' = List.range n := by
    refine List.ext_getElem? fun x => ?_
    by_cases hx : x < n
    · obtain ⟨i, hi⟩ := List.getElem?_of_mem (hP.mem_iff.2 (List.mem_range.2 hx))
      rw [hmoved hroutes i x hi, hi, List.getElem?_range hx]
    · rw [List.getElem?_eq_none (by rw [hroutes.length]; omega),
        List.getElem?_eq_none (by rw [List.length_range]; omega)]
  subst hsorted
  refine ⟨C, drawn', hrun, fun α D hD => ?_⟩
  obtain ⟨D', hD', hroutes'⟩ := hC α D hD
  exact ⟨D', hD', hroutes'.length, hmoved hroutes'⟩

/-- Three elements, with PRPs that multiply by an odd number and draws of the last one. -/
theorem controlBits_waksShuffleOnline_three :
    ∃ C drawn', controlBits ⟨fun _ x => BitVec.ofNat 64 (5 * x), fun _ x => BitVec.ofNat 64 (3 * x),
        fun _ u => u - 1⟩ 3 [2, 0, 1] 0 ⟨0, 0⟩ = some (C, List.range 3, drawn') ∧
      ∀ (α : Type) (D : List α), D.length = 3 → ∃ D', waksShuffleOnline C D = some D' ∧
        D'.length = 3 ∧ ∀ i x : Nat, [2, 0, 1][i]? = some x → D'[x]? = D[i]? :=
  controlBits_waksShuffleOnline ⟨0, 0⟩ (by decide) (by decide) (by decide)
    ⟨fun _ =>
      show ∀ x < 4, ∀ y < 4, BitVec.ofNat 64 (5 * x) = BitVec.ofNat 64 (5 * y) → x = y by decide,
      fun _ => show ∀ x < 4, ∀ y < 4, BitVec.ofNat 64 (3 * x) = BitVec.ofNat 64 (3 * y) →
      x = y by decide, fun _ u hu => Nat.sub_lt hu Nat.one_pos⟩

end EM.Algorithm.WaksOnOff
