import Mathlib.Data.Nat.Notation

/-!
# Words as lanes

A word of `w * n` bits is `n` lanes of `w` bits, the lane 0 lowest: `ofLanes` puts them together,
`lane` takes one out. With lanes of eight bits this is the little-endian word of `n` bytes.
-/

namespace Lanes

variable {w n : Nat}

/-- The word with the lanes `f 0`, …, `f (n - 1)`. -/
def ofLanes (w : Nat) : (n : Nat) → (Nat → BitVec w) → BitVec (w * n)
  | 0, _ => 0#0
  | n + 1, f => (f n ++ ofLanes w n f).cast (by rw [Nat.mul_succ, Nat.add_comm])

/-- The lane `i` of a word. -/
def lane (w : Nat) {m : Nat} (x : BitVec m) (i : Nat) : BitVec w := x.extractLsb' (w * i) w

theorem getLsbD_ofLanes (f : Nat → BitVec w) {i j : Nat} (hi : i < n) (hj : j < w) :
    (ofLanes w n f).getLsbD (w * i + j) = (f i).getLsbD j := by
  induction n with
  | zero => exact absurd hi (Nat.not_lt_zero i)
  | succ n ih =>
    rw [ofLanes, BitVec.getLsbD_cast, BitVec.getLsbD_append]
    rcases Nat.lt_or_eq_of_le (Nat.le_of_lt_succ hi) with h | rfl
    · have hlow : w * i + j < w * n := by
        have := Nat.mul_le_mul_left w (show i + 1 ≤ n from h)
        rw [Nat.mul_succ] at this
        omega
      rw [if_pos hlow, ih h]
    · rw [if_neg (by omega), Nat.add_sub_cancel_left]

theorem lane_ofLanes (f : Nat → BitVec w) {i : Nat} (hi : i < n) :
    lane w (ofLanes w n f) i = f i := by
  apply BitVec.eq_of_getLsbD_eq
  intro j hj
  rw [lane, BitVec.getLsbD_extractLsb', getLsbD_ofLanes f hi hj, decide_eq_true hj, Bool.true_and]

/-- Words are equal when all of their lanes are. -/
theorem eq_of_lane {x y : BitVec (w * n)} (h : ∀ i < n, lane w x i = lane w y i) : x = y := by
  apply BitVec.eq_of_getLsbD_eq
  intro j hj
  have hw : 0 < w := Nat.pos_of_mul_pos_right (Nat.lt_of_le_of_lt (Nat.zero_le j) hj)
  have hmod : j % w < w := Nat.mod_lt j hw
  have hlane := congrArg (·.getLsbD (j % w)) (h (j / w) (Nat.div_lt_of_lt_mul hj))
  simpa only [lane, BitVec.getLsbD_extractLsb', decide_eq_true hmod, Bool.true_and,
    Nat.div_add_mod] using hlane

theorem ofLanes_lane (x : BitVec (w * n)) : ofLanes w n (lane w x) = x :=
  eq_of_lane fun _ hi => lane_ofLanes _ hi

theorem ofLanes_congr {f g : Nat → BitVec w} (h : ∀ i < n, f i = g i) :
    ofLanes w n f = ofLanes w n g :=
  eq_of_lane fun i hi => by rw [lane_ofLanes f hi, lane_ofLanes g hi, h i hi]

theorem ofLanes_inj {f g : Nat → BitVec w} : ofLanes w n f = ofLanes w n g ↔
    ∀ i < n, f i = g i := by
  refine ⟨fun h i hi => ?_, ofLanes_congr⟩
  rw [← lane_ofLanes f hi, h, lane_ofLanes g hi]

theorem ofLanes_zero : ofLanes w n (fun _ => 0#w) = 0#(w * n) :=
  eq_of_lane fun i hi => by
    rw [lane_ofLanes _ hi, lane, BitVec.extractLsb'_zero]

theorem ofLanes_allOnes : ofLanes w n (fun _ => BitVec.allOnes w) = BitVec.allOnes (w * n) := by
  apply eq_of_lane
  intro i hi
  apply BitVec.eq_of_getLsbD_eq
  intro j hj
  have hlt : w * i + j < w * n := by
    have := Nat.mul_le_mul_left w (show i + 1 ≤ n from hi)
    rw [Nat.mul_succ] at this
    omega
  rw [lane_ofLanes _ hi, lane, BitVec.getLsbD_extractLsb', BitVec.getLsbD_allOnes,
    BitVec.getLsbD_allOnes, decide_eq_true hj, decide_eq_true hlt, Bool.true_and]

end Lanes
