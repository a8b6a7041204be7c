import Mathlib.Algebra.GroupWithZero.Nat
import Mathlib.Data.List.Basic
import Mathlib.Logic.Function.Basic

/-!
# Pages

A page holds `n` elements. Position `i` of a sequence kept in pages is at offset `i % n` of page
`i / n`. `fill` writes a list to a page from an offset on, `slice` reads a stretch of one.
`Agrees data p page a b` says that a page has what the page `p` of `data` has between two offsets.
-/

namespace Paged

variable {n : Nat} {α : Type}

abbrev Page (n : Nat) (α : Type) := Fin n → α

/-- The page and the offset of a position. -/
theorem div_mod_of_lt {p r : Nat} (hr : r < n) : (p * n + r) / n = p ∧ (p * n + r) % n = r := by
  rw [Nat.mul_comm, Nat.mul_add_div (by omega), Nat.mul_add_mod, Nat.mod_eq_of_lt hr,
    Nat.div_eq_of_lt hr]
  exact ⟨rfl, rfl⟩

/-- The page with the first `n` elements of a list, if there are as many. -/
def ofList (n : Nat) (xs : List α) : Option (Page n α) :=
  if h : n ≤ xs.length then some fun o => xs.get ⟨o, by omega⟩ else none

variable [NeZero n]

/-- A list written to a page, from `offset` on. -/
def fill : (offset : Nat) → List α → Page n α → Page n α
  | _, [], page => page
  | offset, x :: xs, page => fill (offset + 1) xs (Function.update page (Fin.ofNat n offset) x)

/-- The elements from the offset `a` up to `b`. -/
def slice (a b : Nat) (page : Page n α) : List α :=
  (List.range (b - a)).map fun i => page (Fin.ofNat n (a + i))

/-- What `fill` leaves at an offset. -/
theorem fill_apply {offset : Nat} {xs : List α} {page : Page n α} (h : offset + xs.length ≤ n)
    (o : Fin n) :
    some (fill offset xs page o) =
      if offset ≤ o ∧ o < offset + xs.length then xs[o.val - offset]? else some (page o) := by
  induction xs generalizing offset page with
  | nil => rw [fill, if_neg (by simp)]
  | cons x xs ih =>
    rw [List.length_cons] at h ⊢
    rw [fill, ih (by omega)]
    have hval : (Fin.ofNat n offset).val = offset := Nat.mod_eq_of_lt (by omega)
    by_cases ho : o.val = offset
    · have : o = Fin.ofNat n offset := Fin.ext (by rw [hval, ho])
      rw [if_neg (by omega), if_pos (by omega), this, Function.update_self, hval, Nat.sub_self]
      rfl
    · have hne : o ≠ Fin.ofNat n offset := fun heq => ho (by rw [heq, hval])
      by_cases hin : offset + 1 ≤ o ∧ o < offset + 1 + xs.length
      · rw [if_pos hin, if_pos (by omega), show o.val - offset = o.val - (offset + 1) + 1 by omega,
          List.getElem?_cons_succ]
      · rw [if_neg hin, if_neg (by omega), Function.update_of_ne hne]

theorem length_slice (a b : Nat) (page : Page n α) : (slice a b page).length = b - a := by
  rw [slice, List.length_map, List.length_range]

theorem getElem?_slice {a b i : Nat} {page : Page n α} (hi : i < b - a) :
    (slice a b page)[i]? = some (page (Fin.ofNat n (a + i))) := by
  rw [slice, List.getElem?_map, List.getElem?_range hi, Option.map_some]

/-! ## Pages of a list -/

/-- The page has the elements of the page `p` of `data` from the offset `a` up to `b`. -/
def Agrees (data : List α) (p : Nat) (page : Page n α) (a b : Nat) : Prop :=
  ∀ o : Fin n, a ≤ o → o < b → data[p * n + o]? = some (page o)

omit [NeZero n] in
theorem Agrees.mono {data : List α} {p a b a' b' : Nat} {page : Page n α}
    (h : Agrees data p page a b) (ha : a ≤ a') (hb : b' ≤ b) : Agrees data p page a' b' :=
  fun o h1 h2 => h o (by omega) (by omega)

/-- Filling in a stretch of `data` next to one that is there. -/
theorem Agrees.fill {data xs : List α} {p a b : Nat} {page : Page n α} (h : Agrees data p page a b)
    (hb : b + xs.length ≤ n) (hxs : ∀ i < xs.length, data[p * n + b + i]? = xs[i]?) :
    Agrees data p (fill b xs page) a (b + xs.length) := by
  intro o ha hlt
  have happly := @fill_apply n α _ b xs page hb o
  by_cases hin : b ≤ o.val
  · rw [if_pos ⟨hin, hlt⟩] at happly
    rw [happly, ← hxs _ (by omega)]
    congr 1
    omega
  · rw [if_neg (by omega)] at happly
    rw [happly]
    exact h o ha (by omega)

/-- A stretch of a page is a stretch of the data. -/
theorem Agrees.slice {data : List α} {p a b : Nat} {page : Page n α} (h : Agrees data p page a b)
    (hb : b ≤ n) : slice a b page = (data.drop (p * n + a)).take (b - a) := by
  refine List.ext_getElem? fun i => ?_
  by_cases hi : i < b - a
  · have hval : (Fin.ofNat n (a + i)).val = a + i := Nat.mod_eq_of_lt (by omega)
    have hget := h (Fin.ofNat n (a + i)) (by omega) (by omega)
    rw [hval, ← Nat.add_assoc] at hget
    rw [getElem?_slice hi, List.getElem?_take_of_lt hi, List.getElem?_drop, hget]
  · rw [List.getElem?_eq_none (by rw [length_slice]; omega),
      List.getElem?_eq_none (by rw [List.length_take]; omega)]

omit [NeZero n] in
theorem agrees_zero {data : List α} {p : Nat} (page : Page n α) : Agrees data p page 0 0 :=
  fun _ _ h => absurd h (Nat.not_lt_zero _)

omit [NeZero n] in
theorem ofList_eq {xs : List α} (h : n ≤ xs.length) :
    ∃ page, ofList n xs = some page ∧ ∀ o : Fin n, xs[o.val]? = some (page o) :=
  ⟨_, dif_pos h, fun _ => List.getElem?_eq_getElem _⟩

/-! ## Splicing -/

/-- `data` with `src` in the place of the elements from `a` on. -/
def splice (data : List α) (a : Nat) (src : List α) : List α :=
  data.take a ++ src ++ data.drop (a + src.length)

omit [NeZero n] in
theorem length_splice {data src : List α} {a : Nat} (h : a + src.length ≤ data.length) :
    (splice data a src).length = data.length := by
  simp only [splice, List.length_append, List.length_take, List.length_drop]
  omega

omit [NeZero n] in
theorem getElem?_splice {data src : List α} {a : Nat} (h : a + src.length ≤ data.length) (i : Nat) :
    (splice data a src)[i]? = if a ≤ i ∧ i < a + src.length then src[i - a]? else data[i]? := by
  have hlen : (data.take a).length = a := by
    rw [List.length_take]
    omega
  unfold splice
  by_cases h1 : i < a
  · rw [if_neg (by omega), List.append_assoc, List.getElem?_append_left (by omega),
      List.getElem?_take_of_lt h1]
  · by_cases h2 : i < a + src.length
    · rw [if_pos (by omega), List.getElem?_append_left (by rw [List.length_append]; omega),
        List.getElem?_append_right (by omega), hlen]
    · rw [if_neg (by omega), List.getElem?_append_right (by rw [List.length_append]; omega),
        List.length_append, hlen, List.getElem?_drop]
      congr 1
      omega

omit [NeZero n] in
/-- Two pieces one after the other. -/
theorem splice_splice {data xs ys : List α} {a : Nat}
    (h : a + xs.length + ys.length ≤ data.length) :
    splice (splice data a xs) (a + xs.length) ys = splice data a (xs ++ ys) := by
  have hxs : a + xs.length ≤ data.length := by omega
  have hys : a + xs.length + ys.length ≤ (splice data a xs).length := by rwa [length_splice hxs]
  have hall : a + (xs ++ ys).length ≤ data.length := by
    rw [List.length_append]
    omega
  refine List.ext_getElem? fun i => ?_
  rw [getElem?_splice hys, getElem?_splice hxs, getElem?_splice hall, List.length_append]
  by_cases h1 : a + xs.length ≤ i ∧ i < a + xs.length + ys.length
  · rw [if_pos h1, if_pos (by omega), List.getElem?_append_right (by omega)]
    congr 1
    omega
  · rw [if_neg h1]
    by_cases h2 : a ≤ i ∧ i < a + xs.length
    · rw [if_pos h2, if_pos (by omega), List.getElem?_append_left (by omega)]
    · rw [if_neg h2, if_neg (by omega)]

/-- Filling a page of `data` in the middle. -/
theorem agrees_splice {data src : List α} {p o m : Nat} {page : Page n α}
    (h : Agrees data p page 0 m) (hfit : o + src.length ≤ n)
    (hle : p * n + o + src.length ≤ data.length) :
    Agrees (splice data (p * n + o) src) p (fill o src page) 0 m := by
  intro j _ hj
  rw [getElem?_splice hle, fill_apply hfit]
  by_cases hin : o ≤ j ∧ j < o + src.length
  · rw [if_pos (by omega), if_pos hin]
    congr 1
    omega
  · rw [if_neg (by omega), if_neg hin, h j (Nat.zero_le _) hj]

end Paged
