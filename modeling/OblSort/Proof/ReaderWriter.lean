import OblSort.Proof.CopyOut

/-!
# Reading and writing a vector in order

`Reading`: the cache of a reader has the page that the reader is in. `Writing`: the pages before the
one that a writer is in are stored, the cache has what it has written of that one. Writers one after
the other fill a fresh vector exactly when each of them begins at a page (`runWriters_reads_iff`):
one that ends inside a page before the end of the vector reads that page first, which nothing has
written.
-/

namespace EM.NonCachedVector

open Paged

variable {n : Nat} {α : Type} [NeZero n] {data : List α} {c b : Nat} {v v₀ : Vector n α}

/-! ## Positions -/

/-- The position after one inside a page, and after the last one of a page. -/
theorem next_position (i : Nat) :
    (i % n + 1 < n ∧ (i + 1) / n = i / n ∧ (i + 1) % n = i % n + 1) ∨
      (i % n + 1 = n ∧ (i + 1) / n = i / n + 1 ∧ (i + 1) % n = 0) := by
  have hlt := Nat.mod_lt i (pos_itemPerPage n)
  have hdiv := Nat.div_add_mod i n
  rw [Nat.mul_comm] at hdiv
  rcases Nat.lt_or_ge (i % n + 1) n with h | h
  · obtain ⟨h1, h2⟩ := div_mod_of_lt (p := i / n) h
    rw [show i / n * n + (i % n + 1) = i + 1 by omega] at h1 h2
    exact .inl ⟨h, h1, h2⟩
  · obtain ⟨h1, h2⟩ := div_mod_of_lt (p := i / n + 1) (pos_itemPerPage n)
    rw [Nat.succ_mul, show i / n * n + n + 0 = i + 1 by omega] at h1 h2
    exact .inr ⟨by omega, h1, h2⟩

/-- The element at a position, from a page that has it. -/
theorem agrees_getElem? {i m : Nat} {page : Page n α} (h : Agrees data (i / n) page 0 m)
    (hm : i % n < m) : data[i]? = some (page (Fin.ofNat n (i % n))) := by
  have hdiv := Nat.div_add_mod i n
  rw [Nat.mul_comm] at hdiv
  have hval : (Fin.ofNat n (i % n)).val = i % n := Nat.mod_mod i n
  have hget := h (Fin.ofNat n (i % n)) (Nat.zero_le _) (by omega)
  rwa [hval, hdiv] at hget

/-! ## Readers -/

/-- The reader is at a position of `data`; while it is inside a page its cache has that page. -/
structure Reading (data : List α) (c : Nat) (r : Reader n α) : Prop where
  counter : r.counter = c
  curr : ∀ k, r.curr = some k → k ≤ n ∧ k % n = r.it % n ∧
    (k < n → Agrees data (r.it / n) r.cache 0 (data.length - r.it / n * n))

omit [NeZero n] in
theorem reading_new (cache : Page n α) (beginPtr endPtr : Nat) :
    Reading data c (Reader.new cache beginPtr endPtr c) :=
  ⟨rfl, fun _ hk => by cases hk⟩

/-- `get` makes sure that the page of the position is in the cache. -/
theorem Reading.get {r : Reader n α} (h : Reading data c r) (hv : Stores v c data)
    (hit : r.it < v.N) :
    ∃ cache, r.get v = some { r with cache, curr := some (r.it % n) } ∧
      Agrees data (r.it / n) cache 0 (data.length - r.it / n * n) := by
  have hmod := Nat.mod_lt r.it (pos_itemPerPage n)
  rw [Reader.get]
  cases hout : r.outOfPage with
  | true =>
    have hmul := Nat.div_mul_le_self r.it n
    obtain ⟨page, hhas, hagrees⟩ := hv.pages (r.it / n) (by omega)
    rw [← hv.size] at hagrees
    refine ⟨page, ?_, hagrees⟩
    have hoff : (if r.curr ≠ some n then r.it % n else 0) = r.it % n := by
      split
      · rfl
      · next hcurr =>
        have hzero := (h.curr n (not_not.1 hcurr)).2.1
        rwa [Nat.mod_self] at hzero
    rw [if_pos rfl, h.counter, hhas.read, Option.map_some, Reader.refill, hoff, ← h.counter]
  | false =>
    rw [if_neg Bool.false_ne_true]
    obtain ⟨cache, it, endPtr, curr, counter⟩ := r
    cases curr with
    | none => cases hout
    | some k =>
      have hk : k < n := by simpa [Reader.outOfPage] using hout
      obtain ⟨-, hkit, hagrees⟩ := h.curr k rfl
      rw [Nat.mod_eq_of_lt hk] at hkit
      exact ⟨cache, by rw [← hkit], hagrees hk⟩

/-- `read` gives the element at the position. -/
theorem Reading.read {r : Reader n α} (h : Reading data c r) (hv : Stores v c data)
    (hit : r.it < v.N) :
    ∃ x r', r.read v = some (x, r') ∧ data[r.it]? = some x ∧ r'.it = r.it + 1 ∧
    r'.endPtr = r.endPtr ∧
      Reading data c r' := by
  have hdiv := Nat.div_add_mod r.it n
  rw [Nat.mul_comm] at hdiv
  obtain ⟨cache, hget, hagrees⟩ := h.get hv hit
  have hread : r.read v = some (cache (Fin.ofNat n (r.it % n)),
      { r with cache, it := r.it + 1, curr := some (r.it % n + 1) }) := by
    rw [Reader.read, hget]
    rfl
  refine ⟨_, _, hread, ?_, rfl, rfl, h.counter, ?_⟩
  · exact agrees_getElem? hagrees (by rw [hv.size]; omega)
  · rintro k hk
    obtain rfl : r.it % n + 1 = k := Option.some.inj hk
    rcases next_position (n := n) r.it with ⟨hlt, hd, hm⟩ | ⟨heq, hd, hm⟩
    · refine ⟨hlt.le, ?_, fun _ => ?_⟩
      · rw [Nat.mod_eq_of_lt hlt, hm]
      · rw [hd]
        exact hagrees
    · refine ⟨heq.le, ?_, fun hlt => absurd heq hlt.ne⟩
      rw [heq, Nat.mod_self, hm]

/-- **Reading in order** gives what is stored. -/
theorem Reading.readMany {r : Reader n α} (h : Reading data c r) (hv : Stores v c data)
    {count : Nat} (hcount : r.it + count ≤ v.N) :
    ∃ r', r.readMany v count = some ((data.drop r.it).take count, r') ∧ r'.it = r.it + count := by
  induction count generalizing r with
  | zero => exact ⟨r, by rw [Reader.readMany, List.take_zero], rfl⟩
  | succ count ih =>
    obtain ⟨x, r₁, hread, hx, hit, -, h₁⟩ := h.read hv (by omega)
    obtain ⟨r₂, hrest, hit₂⟩ := ih h₁ (by omega)
    refine ⟨r₂, ?_, by omega⟩
    obtain ⟨hlt, hget⟩ := List.getElem?_eq_some_iff.1 hx
    rw [Reader.readMany, hread, Option.bind_some]
    dsimp only
    rw [hrest, Option.bind_some, List.drop_eq_getElem_cons hlt, List.take_succ_cons, hget, hit]

/-- A reader of the whole vector. -/
theorem Stores.readMany_all (h : Stores v c data) (cache : Page n α) :
    ∃ r, (Reader.new cache 0 v.N c).readMany v v.N = some (data, r) := by
  obtain ⟨r, hread, -⟩ := (reading_new cache 0 v.N).readMany h (Nat.zero_add v.N).le
  refine ⟨r, hread.trans ?_⟩
  rw [show (Reader.new cache 0 v.N c).it = 0 from rfl, List.drop_zero,
    List.take_of_length_le h.size.le]

/-! ## Writers -/

/-- The elements of `data` before `b` are stored with the counter `c`, the pages from `b` on are as
in `v₀`. -/
structure Written (data : List α) (c : Nat) (v₀ : Vector n α) (b : Nat)
    (v : Vector n α) : Prop where
  size : v.N = v₀.N
  lateInit : v.lateInit = v₀.lateInit
  pages : ∀ p, p * n < b → ∃ page, Has v p c page ∧ Agrees data p page 0 (b - p * n)
  rest : ∀ p, b ≤ p * n → v.server.pages p = v₀.server.pages p

omit [NeZero n] in
theorem Written.stores (h : Written data c v₀ b v) (hb : b = v₀.N) (hdata : data.length = b) :
    Stores v c data := by
  subst hb
  refine ⟨hdata.trans h.size.symm, fun p hp => ?_⟩
  rw [h.size] at hp ⊢
  exact h.pages p hp

/-- The next page written, as far as `m`. -/
theorem Written.write {p m : Nat} {page : Page n α} (h : Written data c v₀ (p * n) v)
    (hpage : Agrees data p page 0 m) (hpos : 0 < m) (hm : m ≤ n) :
    Written data c v₀ (p * n + m) (v.write p page c) where
  size := h.size
  lateInit := h.lateInit
  pages q hq := by
    by_cases hqp : q = p
    · subst hqp
      exact ⟨page, has_write v q c page, by rwa [Nat.add_sub_cancel_left]⟩
    · have hlt : q * n < (p + 1) * n := by rw [Nat.succ_mul]; omega
      have hqp' : q + 1 ≤ p := by
        have := Nat.lt_of_mul_lt_mul_right hlt
        omega
      have hmul := Nat.mul_le_mul_right n hqp'
      rw [Nat.succ_mul] at hmul
      obtain ⟨page', hhas, hagrees⟩ := h.pages q (by have := pos_itemPerPage n; omega)
      exact ⟨page', hhas.write_ne page hqp, fun o ho _ => hagrees o ho (by omega)⟩
  rest q hq := by
    have hne : q ≠ p := by
      rintro rfl
      omega
    rw [← h.rest q (by omega)]
    exact Function.update_of_ne hne _ _

/-- A writer that began at a page: the pages before its own are stored, its cache has the rest. -/
structure Writing (data : List α) (c : Nat) (v₀ : Vector n α) (w : Writer n α) (v : Vector n α) :
    Prop where
  counter : w.counter = c
  curr : w.curr = w.it % n
  written : Written data c v₀ (w.it / n * n) v
  cache : Agrees data (w.it / n) w.cache 0 (w.it % n)

omit [NeZero n] in
/-- A writer at the begin of a page. -/
theorem Written.init (h : Written data c v₀ b v) (hb : b % n = 0) (cache : Page n α)
    (endPtr : Nat) :
    Writer.init cache b endPtr c v = some ⟨cache, b, endPtr, b % n, c⟩ ∧
      Writing data c v₀ ⟨cache, b, endPtr, b % n, c⟩ v := by
  refine ⟨by rw [Writer.init, if_neg (by simp [hb]), Option.map_some], rfl, rfl, ?_, ?_⟩
  · rwa [Nat.div_mul_cancel (Nat.dvd_of_mod_eq_zero hb)]
  · rw [hb]
    exact agrees_zero cache

theorem Writing.write {w : Writer n α} (h : Writing data c v₀ w v) {x : α}
    (hx : data[w.it]? = some x) :
    (w.write x v).1.it = w.it + 1 ∧ Writing data c v₀ (w.write x v).1 (w.write x v).2 := by
  have hdiv := Nat.div_add_mod w.it n
  rw [Nat.mul_comm] at hdiv
  have hmod := Nat.mod_lt w.it (pos_itemPerPage n)
  have hcache : Agrees data (w.it / n) (Function.update w.cache (Fin.ofNat n w.curr) x) 0
      (w.it % n + 1) := by
    have hat : ∀ i < [x].length, data[w.it / n * n + w.it % n + i]? = [x][i]? := by
      intro i hi
      rw [List.length_singleton] at hi
      rw [Nat.lt_one_iff.1 hi, hdiv]
      exact hx
    have hfill := h.cache.fill (by rw [List.length_singleton]; omega) hat
    rw [h.curr]
    exact hfill
  rw [Writer.write, h.curr]
  rw [h.curr] at hcache
  rcases next_position (n := n) w.it with ⟨hlt, hd, hm⟩ | ⟨heq, hd, hm⟩
  · rw [if_neg hlt.ne]
    refine ⟨rfl, h.counter, hm.symm, ?_, ?_⟩
    · dsimp only
      rw [hd]
      exact h.written
    · dsimp only
      rw [hd, hm]
      exact hcache
  · rw [if_pos heq]
    refine ⟨rfl, h.counter, hm.symm, ?_, ?_⟩
    · have hwritten := h.written.write (hcache.mono (Nat.le_refl 0) heq.ge) (pos_itemPerPage n)
        (Nat.le_refl n)
      dsimp only
      rw [hd, Nat.add_sub_cancel, h.counter, Nat.succ_mul]
      exact hwritten
    · dsimp only
      rw [hm]
      exact agrees_zero _

/-- **Writing in order.** -/
theorem Writing.writeMany {xs : List α} {w : Writer n α} (h : Writing data c v₀ w v)
    (hxs : From data w.it xs) :
    (Writer.writeMany xs w v).1.it = w.it + xs.length ∧
      Writing data c v₀ (Writer.writeMany xs w v).1 (Writer.writeMany xs w v).2 := by
  induction xs generalizing w v with
  | nil => exact ⟨rfl, h⟩
  | cons x xs ih =>
    obtain ⟨hit, h₁⟩ := h.write (hxs 0 (Nat.succ_pos _))
    rw [Writer.writeMany]
    obtain ⟨hit₂, h₂⟩ := ih h₁ (by rw [hit]; exact hxs.drop 1)
    refine ⟨?_, h₂⟩
    rw [hit₂, hit, List.length_cons]
    omega

/-- `flush` at the end of a page or of the vector, or where it does not read. -/
theorem Writing.flush {w : Writer n α} (h : Writing data c v₀ w v)
    (hend : w.it % n = 0 ∨ w.it = v₀.N ∨ c ≠ 0) (originalPage : Page n α) :
    ∃ v', w.flush originalPage v = some v' ∧ Written data c v₀ w.it v' := by
  have hdiv := Nat.div_add_mod w.it n
  rw [Nat.mul_comm] at hdiv
  have hmod := Nat.mod_lt w.it (pos_itemPerPage n)
  rw [Writer.flush]
  by_cases hoff : w.it % n = 0
  · refine ⟨v, if_neg (by simpa using hoff), ?_⟩
    have hwritten := h.written
    rwa [show w.it / n * n = w.it by omega] at hwritten
  · have hslice := h.cache.slice hmod.le
    have hlen : (slice 0 (w.it % n) w.cache).length = w.it % n := by rw [length_slice, Nat.sub_zero]
    have hzero : Agrees data (w.it / n) originalPage 0 0 := agrees_zero originalPage
    have hat : ∀ i < (slice 0 (w.it % n) w.cache).length,
        data[w.it / n * n + 0 + i]? = (slice 0 (w.it % n) w.cache)[i]? := by
      intro i hi
      rw [hslice, List.getElem?_take_of_lt (by omega), List.getElem?_drop]
    have hpage := hzero.fill (by omega) hat
    rw [Nat.zero_add, hlen] at hpage
    refine ⟨v.write (w.it / n) (fill 0 (slice 0 (w.it % n) w.cache) originalPage) w.counter, ?_, ?_⟩
    · rw [if_pos hoff, if_neg, Option.map_some]
      rw [h.counter, h.written.size]
      tauto
    · have hwritten := h.written.write hpage (Nat.pos_of_ne_zero hoff) hmod.le
      rw [hdiv] at hwritten
      rwa [h.counter]

omit [NeZero n] in
/-- A writer at the begin of a page has nothing to flush. -/
theorem Writing.stores {w : Writer n α} (h : Writing data c v₀ w v) (hend : w.it % n = 0)
    (hN : w.it = v₀.N) (hdata : data.length = v₀.N) : Stores v c data := by
  have hwritten := h.written
  rw [Nat.div_mul_cancel (Nat.dvd_of_mod_eq_zero hend), hN] at hwritten
  exact hwritten.stores rfl hdata

omit [NeZero n] in
/-- A page that is not full is not written before `flush`. -/
theorem Writing.not_stores {w : Writer n α} (h : Writing data c v₀ w v) (hend : w.it % n ≠ 0)
    (hN : w.it = v₀.N) {data₀ out : List α} {c₀ : Nat} (h₀ : Stores v₀ c₀ data₀)
    (hnounce : v.server.nounce = v₀.server.nounce) (hc : c < 2 ^ 32) (hc₀ : c₀ < 2 ^ 32)
    (hne : c ≠ c₀) : ¬ Stores v c out := by
  intro hstores
  have hdiv := Nat.div_add_mod w.it n
  rw [Nat.mul_comm] at hdiv
  have hlt : w.it / n * n < v₀.N := by omega
  obtain ⟨page, hhas, -⟩ := hstores.pages (w.it / n) (by rwa [h.written.size])
  obtain ⟨page₀, hhas₀, -⟩ := h₀.pages (w.it / n) hlt
  have hpages := hhas.stored
  rw [h.written.rest _ (Nat.le_refl _), hhas₀.stored, hnounce] at hpages
  have hnonce := congrArg FreshEncrypted.nounce (Option.some.inj hpages)
  exact hne (forPage_counter_inj hc hc₀ hnonce.symm)

theorem write_nounce (x : α) (w : Writer n α) (v : Vector n α) :
    (w.write x v).2.server.nounce = v.server.nounce := by
  rw [Writer.write]
  split <;> rfl

theorem writeMany_nounce (xs : List α) (w : Writer n α) (v : Vector n α) :
    (Writer.writeMany xs w v).2.server.nounce = v.server.nounce := by
  induction xs generalizing w v with
  | nil => rfl
  | cons x xs ih => exact (ih _ _).trans (write_nounce x w v)

/-- `flush` inside a page that was never written. -/
theorem Writing.flush_bad {w : Writer n α} (h : Writing data 0 v₀ w v) (hoff : w.it % n ≠ 0)
    (hend : w.it ≠ v₀.N) (hlate : v₀.lateInit = false) (hfresh : v₀.server.pages (w.it / n) = none)
    (originalPage : Page n α) : w.flush originalPage v = none := by
  have hnone : v.read (w.it / n) w.counter = none := by
    rw [Vector.read, Frontend.read, h.written.lateInit, hlate, h.written.rest _ (Nat.le_refl _),
      hfresh]
    rfl
  rw [Writer.flush, if_pos hoff, if_pos ⟨by rwa [h.written.size], h.counter⟩, hnone,
    Option.map_none]

/-! ## Copying a whole vector -/

/-- Whole pages, whatever was written before. -/
theorem copyOutPages_written {src : List α} {count p : Nat} (h : Written data c v₀ (p * n) v)
    (hsrc : From data (p * n) src) (hlen : count * n ≤ src.length) :
    ∃ v', copyOutPages c count p src v = some v' ∧ Written data c v₀ ((p + count) * n) v' := by
  have hn := pos_itemPerPage n
  induction count generalizing p src v with
  | zero => exact ⟨v, rfl, h⟩
  | succ count ih =>
    rw [Nat.succ_mul] at hlen
    obtain ⟨page, hpage, hget⟩ := ofList_eq (show n ≤ src.length by omega)
    have hagrees : Agrees data p page 0 n := fun o _ _ => by
      rw [hsrc o (by omega), hget]
    have hwritten := h.write hagrees hn (Nat.le_refl n)
    have hdrop := hsrc.drop n
    rw [← Nat.succ_mul] at hwritten hdrop
    obtain ⟨v', hrun, hv'⟩ := ih hwritten hdrop (by rw [List.length_drop]; omega)
    refine ⟨v', ?_, by rwa [show p + 1 + count = p + (count + 1) by omega] at hv'⟩
    rw [copyOutPages, hpage, Option.bind_some, hrun]

/-- The page that the vector ends in. -/
theorem Written.lastPage (h : Written data c v₀ (data.length / n * n) v)
    (hlen : data.length = v₀.N) (hoff : data.length % n ≠ 0) :
    Stores (v.writeCache (data.length / n) 0 (data.drop (data.length / n * n)) c) c data := by
  have hdiv := Nat.div_add_mod data.length n
  have hmod := Nat.mod_lt data.length (pos_itemPerPage n)
  rw [Nat.mul_comm] at hdiv
  have hrest : (data.drop (data.length / n * n)).length = data.length % n := by
    rw [List.length_drop]
    omega
  have hzero : Agrees data (data.length / n) v.cachePage 0 0 := agrees_zero v.cachePage
  have hfill := hzero.fill (show 0 + (data.drop (data.length / n * n)).length ≤ n by omega)
    fun i _ => by rw [List.getElem?_drop, Nat.add_zero]
  rw [hrest, Nat.zero_add] at hfill
  have hcache : Written data c v₀ (data.length / n * n)
      { v with cachePage := Paged.fill 0 (data.drop (data.length / n * n)) v.cachePage } :=
    ⟨h.size, h.lateInit, fun p hp => by
      obtain ⟨page, hhas, hagrees⟩ := h.pages p hp
      exact ⟨page, hhas.cache _, hagrees⟩, h.rest⟩
  have hwritten := hcache.write hfill (Nat.pos_of_ne_zero hoff) hmod.le
  rw [hdiv] at hwritten
  exact hwritten.stores hlen rfl

/-- **`CopyOut`** to a whole vector reads nothing. -/
theorem copyOut_all (hlen : data.length = v.N) (c : Nat) :
    ∃ v', copyOut data 0 c v = some v' ∧ Stores v' c data := by
  have hstart : Written data c v (0 * n) v :=
    ⟨rfl, rfl, fun p hp => absurd hp (by rw [Nat.zero_mul]; exact Nat.not_lt_zero _),
      fun _ _ => rfl⟩
  have hsrc : From data (0 * n) data := fun i _ => by rw [Nat.zero_mul, Nat.zero_add]
  obtain ⟨v₁, hpages, h₁⟩ := copyOutPages_written hstart hsrc (Nat.div_mul_le_self data.length n)
  have hdiv := Nat.div_add_mod data.length n
  rw [Nat.mul_comm] at hdiv
  rw [Nat.zero_add] at h₁
  rw [copyOut]
  dsimp only
  rw [Nat.zero_mod, Nat.zero_div, Nat.zero_add]
  by_cases hzero : 0 = data.length / n
  · rw [if_pos hzero]
    rw [← hzero, Nat.zero_mul] at hdiv
    by_cases hnil : data.length = 0
    · refine ⟨v, if_neg (not_not.2 hnil), hlen, fun p hp => ?_⟩
      rw [← hlen, hnil] at hp
      exact absurd hp (Nat.not_lt_zero _)
    · rw [hzero] at hstart
      have hend := hstart.lastPage hlen (by omega)
      rw [← hzero, Nat.zero_mul, List.drop_zero] at hend
      refine ⟨_, ?_, hend⟩
      rw [if_pos hnil, copyOutWithin, if_neg (by rw [hlen, Nat.zero_add]; simp),
        Nat.zero_div, Nat.zero_mod]
      rfl
  · rw [if_neg hzero, if_neg (by simp), if_neg (by simp), if_neg (by simp), Option.bind_some,
      List.drop_zero, Nat.sub_zero, hpages, Option.bind_some]
    by_cases hoff : data.length % n = 0
    · rw [if_neg (by simpa using hoff)]
      exact ⟨v₁, rfl, h₁.stores (by omega) (by omega)⟩
    · rw [if_pos hoff, copyOutEnd, if_neg (by rw [h₁.size, hlen]; simp)]
      exact ⟨_, rfl, h₁.lastPage hlen hoff⟩

/-! ## Writers one after the other -/

/-- A writer with the counter 0 on each of the intervals in turn: it is opened, it writes the
elements of the interval and is flushed. The pages `caches` and `originals` are those that the
writer of an interval declares without a value. -/
def runWriters (caches originals : Nat → Page n α) : (chunks : List (List α)) → (b : Nat) →
    Vector n α → Option (Vector n α)
  | [], _, v => some v
  | xs :: chunks, b, v =>
    (Writer.init (caches b) b (b + xs.length) 0 v).bind fun w =>
    let (w, v) := Writer.writeMany xs w v
    (w.flush (originals b) v).bind fun v =>
    runWriters caches originals chunks (b + xs.length) v

/-- Every interval begins at a page. -/
def BeginAtPages (n : Nat) : (chunks : List (List α)) → (b : Nat) → Prop
  | [], _ => True
  | xs :: chunks, b => b % n = 0 ∧ BeginAtPages n chunks (b + xs.length)

variable (caches originals : Nat → Page n α) {chunks : List (List α)}

/-- The first interval, when it begins at a page. -/
theorem Written.runWriters_cons {xs : List α} (h : Written data 0 v₀ b v) (hb : b % n = 0)
    (hdata : data.drop b = (xs :: chunks).flatten) :
    ∃ w v', w.it = b + xs.length ∧ Writing data 0 v₀ w v' ∧
      runWriters caches originals (xs :: chunks) b v =
        (w.flush (originals b) v').bind (runWriters caches originals chunks (b + xs.length)) := by
  obtain ⟨hinit, hw⟩ := h.init hb (caches b) (b + xs.length)
  obtain ⟨hit, hwriting⟩ := hw.writeMany (from_of_drop hdata)
  exact ⟨_, _, hit, hwriting, by rw [runWriters, hinit, Option.bind_some]⟩

/-- **All intervals**, when each begins at a page. -/
theorem Written.runWriters (h : Written data 0 v₀ b v) (hN : data.length = v₀.N)
    (hle : b ≤ data.length) (hdata : data.drop b = chunks.flatten) (hok : BeginAtPages n chunks b) :
    ∃ v', runWriters caches originals chunks b v = some v' ∧ Written data 0 v₀ v₀.N v' := by
  induction chunks generalizing b v with
  | nil =>
    have hlen := congrArg List.length hdata
    rw [List.length_drop, List.flatten_nil, List.length_nil] at hlen
    obtain rfl : b = v₀.N := by omega
    exact ⟨v, rfl, h⟩
  | cons xs chunks ih =>
    obtain ⟨hb, hrest⟩ := hok
    have hnext := end_of_drop hdata hle
    have hdrop := drop_of_drop hdata
    obtain ⟨w, v₁, hit, hw, hrun⟩ := h.runWriters_cons caches originals hb hdata
    -- the interval ends at a page, where the next one begins, or it is the last one
    have hend : w.it % n = 0 ∨ w.it = v₀.N ∨ 0 ≠ 0 := by
      rw [hit]
      cases chunks with
      | nil =>
        have hlen := congrArg List.length hdrop
        rw [List.length_drop, List.flatten_nil, List.length_nil] at hlen
        exact .inr (.inl (by omega))
      | cons ys chunks => exact .inl hrest.1
    obtain ⟨v₂, hflush, h₂⟩ := hw.flush hend (originals b)
    rw [hit] at h₂
    rw [hrun, hflush, Option.bind_some]
    exact ih h₂ hnext hdrop hrest

/-- The first interval that ends inside a page aborts, when another one follows. -/
theorem Written.runWriters_bad (h : Written data 0 v₀ b v) (hN : data.length = v₀.N)
    (hle : b ≤ data.length) (hdata : data.drop b = chunks.flatten) (hne : ∀ xs ∈ chunks, xs ≠ [])
    (hlate : v₀.lateInit = false) (hfresh : ∀ p, v₀.server.pages p = none) (hb : b % n = 0)
    (hbad : ¬ BeginAtPages n chunks b) :
    NonCachedVector.runWriters caches originals chunks b v = none := by
  induction chunks generalizing b v with
  | nil => exact absurd trivial hbad
  | cons xs chunks ih =>
    have hnext := end_of_drop hdata hle
    have hdrop := drop_of_drop hdata
    obtain ⟨w, v₁, hit, hw, hrun⟩ := h.runWriters_cons caches originals hb hdata
    rw [hrun]
    by_cases hoff : w.it % n = 0
    · obtain ⟨v₂, hflush, h₂⟩ := hw.flush (.inl hoff) (originals b)
      rw [hit] at h₂ hoff
      rw [hflush, Option.bind_some]
      exact ih h₂ hnext hdrop (fun ys hys => hne ys (List.mem_cons_of_mem xs hys)) hoff
        fun hok => hbad ⟨hb, hok⟩
    · have hend : w.it ≠ v₀.N := by
        intro heq
        cases chunks with
        | nil => exact hbad ⟨hb, trivial⟩
        | cons ys chunks =>
          have hpos := List.length_pos_iff.2 (hne ys (List.mem_cons_of_mem xs List.mem_cons_self))
          have hlen := congrArg List.length hdrop
          rw [List.length_drop, List.flatten_cons, List.length_append] at hlen
          omega
      rw [hw.flush_bad hoff hend hlate (hfresh _), Option.bind_none]

/-- **Writers on a fresh vector**, one for each interval: no page is read before it is written, and
a reader gives the elements of all intervals, exactly when every interval begins at a page. -/
theorem runWriters_reads_iff (hlate : v.lateInit = false) (hfresh : ∀ p, v.server.pages p = none)
    (hN : chunks.flatten.length = v.N) (hne : ∀ xs ∈ chunks, xs ≠ []) (cache : Page n α) :
    (∃ v' r, runWriters caches originals chunks 0 v = some v' ∧
      (Reader.new cache 0 v.N 0).readMany v' v.N = some (chunks.flatten, r)) ↔
        BeginAtPages n chunks 0 := by
  have hstart : Written chunks.flatten 0 v 0 v :=
    ⟨rfl, rfl, fun p hp => absurd hp (Nat.not_lt_zero _), fun _ _ => rfl⟩
  constructor
  · rintro ⟨v', r, hrun, -⟩
    by_contra hbad
    rw [hstart.runWriters_bad caches originals hN (Nat.zero_le _) rfl hne hlate hfresh
      (Nat.zero_mod n) hbad] at hrun
    cases hrun
  · intro hok
    obtain ⟨v', hrun, h'⟩ := hstart.runWriters caches originals hN (Nat.zero_le _) rfl hok
    obtain ⟨r, hread⟩ := (h'.stores rfl hN).readMany_all cache
    rw [h'.size] at hread
    exact ⟨v', r, hrun, hread⟩

/-- A vector of three elements in pages of two that nothing has been written to. -/
def freshThree : Vector 2 Nat :=
  ⟨3, false, fun _ => 0, ⟨⟨0, 0⟩, fun _ => 0, fun _ => false, fun _ => none, []⟩⟩

/-- The second interval begins at a page. -/
theorem runWriters_reads_two :
    ∃ v' r, runWriters (fun _ _ => 0) (fun _ _ => 0) [[5, 6], [7]] 0 freshThree = some v' ∧
      (Reader.new (fun _ => 0) 0 3 0).readMany v' 3 = some ([5, 6, 7], r) :=
  (runWriters_reads_iff _ _ (v := freshThree) rfl (fun _ => rfl) rfl (by decide) _).2
    ⟨rfl, rfl, trivial⟩

/-- The first interval ends inside a page: its `flush` reads that page, which was never written. -/
theorem runWriters_unwritten_page :
    ¬ ∃ v' r, runWriters (fun _ _ => 0) (fun _ _ => 0) [[5], [6, 7]] 0 freshThree = some v' ∧
      (Reader.new (fun _ => 0) 0 3 0).readMany v' 3 = some ([5, 6, 7], r) := by
  rintro ⟨v', r, hrun, -⟩
  have hnone : (runWriters (fun _ _ => 0) (fun _ _ => 0) [[5], [6, 7]] 0
      freshThree).isNone = true := by decide
  rw [hrun] at hnone
  cases hnone

end EM.NonCachedVector
