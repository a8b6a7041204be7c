import OblSort.Common.Proof.Utils
import OblSort.NonCachedVector
import Mathlib.Order.Bounds.Basic
import Mathlib.Tactic.Ring

/-!
# Copying to and from a vector

`Has v p c page`: page `p` of the vector was last written with the counter `c`, as `page`. A read
with this counter gives the page, a read with another one aborts. `Stores v c data`: all pages of
the vector were last written with the counter `c`, and hold `data`; `copyIn_eq` reads any range of
it back. `powersOfTwo_agree`: the capacity of a page, as the helpers for powers of two give it.
-/

namespace EM.NonCachedVector

open Paged

variable {n : Nat} {α : Type}

/-! ## The capacity of a page -/

/-- **The helpers for powers of two agree**: `GetNextPowerOfTwo`, `CeilLog2` and `GetLogBaseTwo` on
every `n` from 1 to `2 ^ 63`, and the capacity of a page that has room for an element. -/
theorem powersOfTwo_agree :
    (∀ n, 1 ≤ n → n ≤ 2 ^ 63 →
      IsLeast {p | (∃ e, p = 2 ^ e) ∧ n ≤ p} (getNextPowerOfTwo n) ∧
        getNextPowerOfTwo n = 2 ^ ceilLog2 n ∧
        2 ^ getLogBaseTwo n ≤ n ∧ n < 2 ^ (getLogBaseTwo n + 1)) ∧
    ∀ pageSize sizeofT, pageSize < 2 ^ 64 → 1 ≤ pageSize / sizeofT →
      IsGreatest {p | (∃ e, p = 2 ^ e) ∧ p ≤ pageSize / sizeofT}
        (Vector.itemPerPage pageSize sizeofT) := by
  constructor
  · intro n h1 h2
    have hn : n ≠ 0 := by omega
    rw [getNextPowerOfTwo_eq h1 h2, ceilLog2_eq_clog h1 (by omega),
      getLogBaseTwo_eq_log2 (by omega)]
    refine ⟨⟨⟨⟨_, rfl⟩, Nat.le_pow_clog (by decide) n⟩, ?_⟩, rfl, Nat.log2_self_le hn,
      Nat.lt_log2_self⟩
    rintro p ⟨⟨e, rfl⟩, hle⟩
    exact Nat.pow_le_pow_right (by decide) (Nat.clog_le_of_le_pow hle)
  · intro pageSize sizeofT hsize h1
    have hq : pageSize / sizeofT < 2 ^ 64 := Nat.lt_of_le_of_lt (Nat.div_le_self _ _) hsize
    obtain ⟨p, hp, hle, hlt⟩ := getNextPowerOfTwo_capacity h1 hq
    rw [Vector.itemPerPage, hp]
    refine ⟨⟨⟨p, rfl⟩, hle⟩, ?_⟩
    rintro _ ⟨⟨e, rfl⟩, hcap⟩
    have he : e < p + 1 := (Nat.pow_lt_pow_iff_right (by decide)).1 (Nat.lt_of_le_of_lt hcap hlt)
    exact Nat.pow_le_pow_right (by decide) (Nat.le_of_lt_succ he)

/-- At `2 ^ 63`, and for pages of `2 ^ 14 - 32` bytes and elements of 136. -/
theorem powersOfTwo_agree_page :
    getNextPowerOfTwo (2 ^ 63) = 2 ^ ceilLog2 (2 ^ 63) ∧
      IsGreatest {p | (∃ e, p = 2 ^ e) ∧ p ≤ 120} (Vector.itemPerPage (2 ^ 14 - 32) 136) :=
  ⟨(powersOfTwo_agree.1 (2 ^ 63) (by decide) (by decide)).2.1,
    powersOfTwo_agree.2 (2 ^ 14 - 32) 136 (by decide) (by decide)⟩

/-! ## Pages of the server -/

/-- Page `p` was last written with the counter `c`, as `page`. -/
structure Has (v : Vector n α) (p c : Nat) (page : Page n α) : Prop where
  stored : v.server.pages p = some ⟨v.server.nounce.forPage p c, page⟩
  modified : v.lateInit = true → v.server.modified p = true

theorem forPage_counter_inj {nn : Nounce} {p c c' : Nat} (hc : c < 2 ^ 32) (hc' : c' < 2 ^ 32)
    (h : nn.forPage p c = nn.forPage p c') : c = c' := by
  have hmod := (Nounce.forPage_eq_iff.1 h).2
  rwa [Nat.mod_eq_of_lt hc, Nat.mod_eq_of_lt hc'] at hmod

section Has

variable {v : Vector n α} {p c : Nat} {page : Page n α}

theorem Has.read_eq (h : Has v p c page) (c' : Nat) :
    v.read p c' =
      if v.server.nounce.forPage p c = v.server.nounce.forPage p c' then some page else none := by
  have hmod : (v.lateInit && !v.server.modified p) = false := by
    cases hl : v.lateInit with
    | false => rfl
    | true => rw [h.modified hl]; rfl
  rw [Vector.read, Frontend.read, hmod, h.stored]
  rfl

theorem Has.read (h : Has v p c page) : v.read p c = some page := by
  rw [h.read_eq, if_pos rfl]

/-- A read with another counter aborts. -/
theorem Has.read_ne (h : Has v p c page) {c' : Nat} (hc : c < 2 ^ 32) (hc' : c' < 2 ^ 32)
    (hne : c ≠ c') : v.read p c' = none := by
  rw [h.read_eq, if_neg fun heq => hne (forPage_counter_inj hc hc' heq)]

theorem has_write (v : Vector n α) (p c : Nat) (page : Page n α) :
    Has (v.write p page c) p c page where
  stored := by simp [Vector.write, Frontend.write]
  modified hl := by
    have hl : v.lateInit = true := hl
    simp [Vector.write, Frontend.write, hl]

theorem Has.write_ne (h : Has v p c page) {q c' : Nat} (page' : Page n α) (hne : p ≠ q) :
    Has (v.write q page' c') p c page where
  stored := by simpa [Vector.write, Frontend.write, Function.update_of_ne hne] using h.stored
  modified hl := by
    have hmod := h.modified hl
    have hl : v.lateInit = true := hl
    simpa [Vector.write, Frontend.write, hl, Function.update_of_ne hne] using hmod

theorem Has.cache (h : Has v p c page) (cachePage : Page n α) : Has { v with cachePage } p c page :=
  ⟨h.stored, h.modified⟩

theorem Has.readCache (h : Has v p c page) : v.readCache p c =
    some { v with cachePage := page } := by
  rw [Vector.readCache, h.read, Option.map_some]

end Has

/-! ## Reading a range -/

/-- All pages were last written with the counter `c`, and hold `data`. -/
structure Stores (v : Vector n α) (c : Nat) (data : List α) : Prop where
  size : data.length = v.N
  pages : ∀ p, p * n < v.N → ∃ page, Has v p c page ∧ Agrees data p page 0 (v.N - p * n)

variable [NeZero n] {v : Vector n α} {c : Nat} {data : List α}

omit [NeZero n] in
theorem Stores.cache (h : Stores v c data) (cachePage : Page n α) :
    Stores { v with cachePage } c data where
  size := h.size
  pages p hp := by
    obtain ⟨page, hhas, hagrees⟩ := h.pages p hp
    exact ⟨page, hhas.cache cachePage, hagrees⟩

theorem pos_itemPerPage (n : Nat) [NeZero n] : 0 < n := Nat.pos_of_ne_zero (NeZero.ne n)

/-- Whole pages. -/
theorem Stores.copyInPages (h : Stores v c data) {count p : Nat} (hp : (p + count) * n ≤ v.N) :
    copyInPages c count p v = some ((data.drop (p * n)).take (count * n)) := by
  have hn := pos_itemPerPage n
  induction count generalizing p with
  | zero => simp [NonCachedVector.copyInPages]
  | succ count ih =>
    have hmul : (p + (count + 1)) * n = p * n + (n + count * n) := by ring
    obtain ⟨page, hhas, hagrees⟩ := h.pages p (by omega)
    have hslice := (hagrees.mono (Nat.le_refl 0) (show n ≤ v.N - p * n by omega)).slice
      (Nat.le_refl n)
    rw [NonCachedVector.copyInPages, hhas.read, Option.bind_some,
      ih (by rw [show p + 1 + count = p + (count + 1) by omega]; exact hp),
      Option.bind_some, hslice,
      Nat.sub_zero, Nat.add_zero, show (count + 1) * n = n + count * n by ring, List.take_add,
      List.drop_drop, Nat.succ_mul]

/-- A range that begins at a page. -/
theorem Stores.copyInAligned (h : Stores v c data) {b e : Nat} (hb : b * n ≤ e) (he : e ≤ v.N) :
    ∃ cachePage, copyInAligned b e c v =
      some ((data.drop (b * n)).take (e - b * n), { v with cachePage }) := by
  have hn := pos_itemPerPage n
  have hdiv := Nat.div_add_mod e n
  have hbe : b ≤ e / n := (Nat.le_div_iff_mul_le hn).2 hb
  have hmul : e / n * n = b * n + (e / n - b) * n := by
    rw [← Nat.add_mul, Nat.add_sub_cancel' hbe]
  rw [Nat.mul_comm] at hdiv
  rw [NonCachedVector.copyInAligned, h.copyInPages (by rw [Nat.add_sub_cancel' hbe]; omega),
    Option.bind_some]
  by_cases hoff : e % n = 0
  · refine ⟨v.cachePage, ?_⟩
    rw [if_neg (by simpa using hoff), show e - b * n = (e / n - b) * n by omega]
  · obtain ⟨page, hhas, hagrees⟩ := h.pages (e / n) (by omega)
    have hslice := (hagrees.mono (Nat.le_refl 0) (show e % n ≤ v.N - e / n * n by omega)).slice
      (Nat.mod_lt e hn).le
    refine ⟨page, ?_⟩
    rw [if_pos hoff, hhas.readCache, Option.bind_some, hslice,
      show e - b * n = (e / n - b) * n + e % n by omega, List.take_add, List.drop_drop, ← hmul,
      Nat.sub_zero, Nat.add_zero]

/-- **`CopyIn`** gives the range. -/
theorem Stores.copyIn (h : Stores v c data) {b e : Nat} (hb : b ≤ e) (he : e ≤ v.N) :
    ∃ cachePage, copyIn b e c v = some ((data.drop b).take (e - b), { v with cachePage }) := by
  have hn := pos_itemPerPage n
  have hdiv := Nat.div_add_mod b n
  have hdive := Nat.div_add_mod e n
  have hbe := Nat.div_le_div_right (c := n) hb
  have hbn := Nat.mod_lt b hn
  rw [Nat.mul_comm] at hdiv hdive
  rw [NonCachedVector.copyIn]
  by_cases hoff : b % n = 0
  · rw [if_neg (by simpa using hoff)]
    have hb' : b / n * n = b := by omega
    have haligned := h.copyInAligned (show b / n * n ≤ e by omega) he
    rwa [hb'] at haligned
  · obtain ⟨page, hhas, hagrees⟩ := h.pages (b / n) (by omega)
    rw [if_pos hoff, hhas.readCache, Option.bind_some]
    by_cases hpage : b / n = e / n
    · have hmod : e % n ≤ n := (Nat.mod_lt e hn).le
      have hmul : b / n * n = e / n * n := by rw [hpage]
      have hslice := (hagrees.mono (Nat.zero_le (b % n))
        (show e % n ≤ v.N - b / n * n by omega)).slice hmod
      refine ⟨page, ?_⟩
      rw [if_pos hpage, if_pos hpage, hslice, hdiv, show e % n - b % n = e - b by omega]
    · have hlt : b / n + 1 ≤ e / n := by omega
      have hmul : (b / n + 1) * n ≤ e / n * n := Nat.mul_le_mul_right n hlt
      rw [Nat.succ_mul] at hmul
      have hslice := (hagrees.mono (Nat.zero_le (b % n)) (show n ≤ v.N - b / n * n by omega)).slice
        (Nat.le_refl n)
      obtain ⟨cachePage, hrest⟩ := (h.cache page).copyInAligned
        (show (b / n + 1) * n ≤ e by rw [Nat.succ_mul]; omega) he
      refine ⟨cachePage, ?_⟩
      rw [if_neg hpage, if_neg hpage, hrest, Option.bind_some, hslice, hdiv, Nat.succ_mul]
      dsimp only
      rw [show e - b = (n - b % n) + (e - (b / n * n + n)) by omega, List.take_add, List.drop_drop,
        show b + (n - b % n) = b / n * n + n by omega]

/-- The whole vector. -/
theorem Stores.copyIn_all (h : Stores v c data) :
    ∃ cachePage, NonCachedVector.copyIn 0 v.N c v = some (data, { v with cachePage }) := by
  obtain ⟨cachePage, hcopy⟩ := h.copyIn (Nat.zero_le v.N) (Nat.le_refl v.N)
  refine ⟨cachePage, ?_⟩
  rw [hcopy, List.drop_zero, Nat.sub_zero, List.take_of_length_le h.size.le]

/-- A vector of four elements in one page, which the constructor has written with the counter 0. -/
def onePage : Vector 4 Nat := ⟨4, false, fun _ => 0, Frontend.new false ⟨0, 0⟩ 1 fun _ => 0⟩

theorem onePage_has (p : Nat) (hp : p * 4 < 4) : Has onePage p 0 fun _ => 0 := by
  obtain rfl : p = 0 := by omega
  exact ⟨rfl, fun h => absurd h (by decide)⟩

end EM.NonCachedVector
