import Mathlib.Logic.Nontrivial.Basic
import Mathlib.Tactic.Ring
import OblSort.DynamicVector
import OblSort.Lib.Store

/-!
# Copies of dynamic page vectors

What `CopyOut` writes, `CopyIn` with the same counter reads page by page
(`copyInPages_copyOutPages`), and puts the pages `static` elements apart. So the list comes back
exactly when there is at most one page or the page size is that of the first `CopyIn` of the process
(`copyIn_copyOut_iff`).
-/

namespace EM.DynamicPageVector

variable {T : Type}

/-! ## Pages -/

/-- Page `i` of a list. -/
def pageOf (q i : Nat) (xs : List T) : List T := (xs.drop (i * q)).take q

theorem pageOf_zero (q : Nat) (xs : List T) : pageOf q 0 xs = xs.take q := by
  simp [pageOf]

theorem pageOf_drop (q i : Nat) (xs : List T) : pageOf q i (xs.drop q) = pageOf q (i + 1) xs := by
  rw [pageOf, pageOf, List.drop_drop, Nat.succ_mul, Nat.add_comm q]

/-- The pages that `CopyOut` has written. -/
theorem copyOutPages_pages (q counter : Nat) (count pageIdx : Nat) (xs : List T)
    (s : Server (List T)) :
    (copyOutPages (Vector.authenticated (List T)) q counter count pageIdx xs s).nounce = s.nounce ∧
      (∀ i < count, (copyOutPages (Vector.authenticated (List T)) q counter count
        pageIdx xs s).pages
        (pageIdx + i) = some ⟨s.nounce.forPage (pageIdx + i) counter, pageOf q i xs⟩) ∧
      ∀ j < pageIdx, (copyOutPages (Vector.authenticated (List T)) q counter count pageIdx
        xs s).pages j =
        s.pages j := by
  induction count generalizing pageIdx xs s with
  | zero => exact ⟨rfl, fun i hi => absurd hi (Nat.not_lt_zero i), fun _ _ => rfl⟩
  | succ count ih =>
    obtain ⟨h1, h2, h3⟩ := ih (pageIdx + 1) (xs.drop q)
      ((Vector.authenticated (List T)).write pageIdx (xs.take q) counter s)
    refine ⟨h1, fun i hi => ?_, fun j hj => ?_⟩
    · cases i with
      | zero =>
        simp only [Nat.add_zero]
        rw [copyOutPages, h3 pageIdx (Nat.lt_succ_self _), pageOf_zero]
        simp [Vector.authenticated]
      | succ i =>
        have := h2 i (by omega)
        rw [pageOf_drop, Nat.add_right_comm] at this
        exact this
    · rw [copyOutPages, h3 j (by omega)]
      simp [Vector.authenticated, Nat.ne_of_lt hj]

/-- Pages put into memory `p` elements apart. -/
def putPages (p : Nat) : (dest : Nat) → List (List T) → (Nat → T) → Nat → T
  | _, [], mem => mem
  | dest, page :: pages, mem => putPages p (dest + p) pages (putPage dest page mem)

/-- Pages that were all written with the counter are read. -/
theorem copyInPages_eq {p counter : Nat} {s : Server (List T)} {pages : List (List T)}
    {pageIdx : Nat} (h : ∀ i (hi : i < pages.length), s.pages (pageIdx + i) =
      some ⟨s.nounce.forPage (pageIdx + i) counter, pages[i]⟩) (dest : Nat) (mem : Nat → T) :
    copyInPages (Vector.authenticated (List T)) p counter pages.length pageIdx dest mem s =
      some (putPages p dest pages mem, s) := by
  induction pages generalizing pageIdx dest mem with
  | nil => rfl
  | cons page pages ih =>
    have hread : (Vector.authenticated (List T)).read pageIdx counter s = (some page, s) := by
      have := h 0 (by simp)
      simp only [Nat.add_zero, List.getElem_cons_zero] at this
      simp [Vector.authenticated, this, FreshEncrypted.decrypt]
    rw [List.length_cons, copyInPages, hread]
    refine ih (fun i hi => ?_) _ _
    have := h (i + 1) (by simpa using hi)
    rw [Nat.add_right_comm, Nat.add_assoc]
    simpa using this

/-- **A copy out and in again**: the pages of the list, put into memory `p` elements apart. -/
theorem copyInPages_copyOutPages (p q counter count pageIdx : Nat) (xs : List T) (mem : Nat → T)
    (s : Server (List T)) :
    ∃ s', copyInPages (Vector.authenticated (List T)) p counter count pageIdx 0 mem
      (copyOutPages (Vector.authenticated (List T)) q counter count pageIdx xs s) =
        some (putPages p 0 ((List.range count).map fun i => pageOf q i xs) mem, s') := by
  obtain ⟨h1, h2, -⟩ := copyOutPages_pages q counter count pageIdx xs s
  have hread := @copyInPages_eq T p counter
    (copyOutPages (Vector.authenticated (List T)) q counter count pageIdx xs s)
    ((List.range count).map fun i => pageOf q i xs) pageIdx (fun i hi => by
      rw [h2 i (by simpa using hi), h1]
      simp) 0 mem
  rw [List.length_map, List.length_range] at hread
  exact ⟨_, hread⟩

/-! ## Memory -/

theorem putPage_of_lt {dest x : Nat} (hx : x < dest) (page : List T) (mem : Nat → T) :
    putPage dest page mem x = mem x := by
  rw [putPage, if_pos hx]

theorem putPage_of_ge {dest x : Nat} {page : List T} (hx : dest + page.length ≤ x) (mem : Nat → T) :
    putPage dest page mem x = mem x := by
  rw [putPage, if_neg (by omega), List.getElem?_eq_none (by omega), Option.getD_none]

theorem putPages_of_lt (p : Nat) {dest x : Nat} (hx : x < dest) (pages : List (List T))
    (mem : Nat → T) : putPages p dest pages mem x = mem x := by
  induction pages generalizing dest mem with
  | nil => rfl
  | cons page pages ih => rw [putPages, ih (by omega), putPage_of_lt hx]

/-- Pages one after the other. -/
theorem putPages_flatten {q : Nat} {pages : List (List T)} (hlen : ∀ page ∈ pages, page.length = q)
    (dest : Nat) (mem : Nat → T) (x : Nat) (hx : x < pages.flatten.length) :
    putPages q dest pages mem (dest + x) = pages.flatten[x] := by
  induction pages generalizing dest mem x with
  | nil => simp at hx
  | cons page pages ih =>
    have hpage := hlen page List.mem_cons_self
    have hpages : ∀ page ∈ pages, page.length = q := fun page' h => hlen page' (.tail _ h)
    rw [putPages]
    by_cases hxq : x < q
    · rw [putPages_of_lt q (by omega), putPage, if_neg (by omega), Nat.add_sub_cancel_left,
        List.getElem?_eq_getElem (by omega), Option.getD_some]
      simp only [List.flatten_cons]
      rw [List.getElem_append_left]
    · obtain ⟨y, rfl⟩ := Nat.exists_eq_add_of_le (Nat.le_of_not_lt hxq)
      simp only [List.flatten_cons, List.length_append, hpage] at hx
      have hy : y < pages.flatten.length := by omega
      rw [← Nat.add_assoc, ih hpages (dest + q) _ y hy]
      simp only [List.flatten_cons]
      rw [List.getElem_append_right (by omega)]
      simp [hpage]

/-- A position that no page is put on. -/
theorem putPages_of_uncovered {p q : Nat} {pages : List (List T)}
    (hlen : ∀ page ∈ pages, page.length = q) {dest x : Nat}
    (hx : ∀ i < pages.length, x < dest + i * p ∨ dest + i * p + q ≤ x) (mem : Nat → T) :
    putPages p dest pages mem x = mem x := by
  induction pages generalizing dest mem with
  | nil => rfl
  | cons page pages ih =>
    rw [putPages, ih (fun page' h => hlen page' (.tail _ h)) fun i hi => ?_]
    · rcases hx 0 (by simp) with h | h
      · exact putPage_of_lt (by omega) page mem
      · exact putPage_of_ge (by rw [hlen page List.mem_cons_self]; omega) mem
    · have := hx (i + 1) (by simpa using hi)
      rw [Nat.succ_mul] at this
      omega

/-- The pages of a list of `count` pages. -/
theorem pagesOf_spec {q count : Nat} {xs : List T} (hlen : xs.length = count * q) :
    (∀ page ∈ (List.range count).map fun i => pageOf q i xs, page.length = q) ∧
      ((List.range count).map fun i => pageOf q i xs).flatten = xs := by
  constructor
  · intro page hpage
    obtain ⟨i, hi, rfl⟩ := List.mem_map.1 hpage
    have hle : (i + 1) * q ≤ count * q := Nat.mul_le_mul_right q (List.mem_range.1 hi)
    rw [Nat.succ_mul] at hle
    rw [pageOf, List.length_take, List.length_drop, hlen]
    omega
  · have := Store.gather_take_drop q count xs
    rw [← hlen, List.take_length] at this
    rw [← List.flatMap_def]
    exact this

/-- Page by page the list is put together again. -/
theorem map_putPages {q count : Nat} {xs : List T} (hlen : xs.length = count * q) (mem : Nat → T) :
    (List.range xs.length).map (putPages q 0 ((List.range count).map fun i => pageOf q i xs) mem) =
      xs := by
  obtain ⟨hpages, hflat⟩ := pagesOf_spec hlen
  refine List.ext_getElem (by simp) fun x h1 h2 => ?_
  have := putPages_flatten hpages 0 mem x (by rwa [hflat])
  rw [Nat.zero_add] at this
  simp [this, hflat]

/-- With another distance two or more pages leave a gap, or do not reach the end. -/
theorem putPages_gap {p q count : Nat} (hq : 0 < q) (hcount : 2 ≤ count) (hne : p ≠ q) {xs : List T}
    (hlen : xs.length = count * q) (mem : Nat → T) :
    ∃ x < xs.length, putPages p 0 ((List.range count).map fun i => pageOf q i xs) mem x =
      mem x := by
  obtain ⟨hpages, -⟩ := pagesOf_spec hlen
  have h2q : 2 * q ≤ count * q := Nat.mul_le_mul_right q hcount
  rcases Nat.lt_or_gt_of_ne hne with hlt | hgt
  · -- the last position is behind the last page
    refine ⟨count * q - 1, by omega, putPages_of_uncovered hpages (fun i hi => .inr ?_) mem⟩
    rw [List.length_map, List.length_range] at hi
    obtain ⟨d, rfl⟩ := Nat.exists_eq_add_of_lt hi
    obtain ⟨e, rfl⟩ := Nat.exists_eq_add_of_lt hlt
    have : (i + d + 1) * (p + e + 1) = i * p + (p + e + 1) +
      (i * (e + 1) + d * (p + e + 1)) := by ring
    have hpos : 0 < i * (e + 1) + d * (p + e + 1) := by
      rcases Nat.eq_zero_or_pos i with hi0 | hi0
      · have : 0 < d * (p + e + 1) := Nat.mul_pos (by omega) (by omega)
        omega
      · have : 0 < i * (e + 1) := Nat.mul_pos hi0 (by omega)
        omega
    omega
  · -- the first position behind the first page is before the second one
    refine ⟨q, by omega, putPages_of_uncovered hpages (fun i _ => ?_) mem⟩
    cases i with
    | zero => exact .inr (by omega)
    | succ i =>
      have : p ≤ (i + 1) * p := Nat.le_mul_of_pos_left p (Nat.succ_pos i)
      exact .inl (by omega)

/-! ## The process -/

namespace Process

/-- The page sizes of the vectors, in the order of their creation. -/
def sizes (p : Process T) : List Nat := p.vectors.map DynVector.itemPerPage

/-- A new content of a vector leaves its page size alone. -/
theorem sizes_set {p : Process T} {vec : Nat} {v : DynVector T} (hv : p.vectors[vec]? = some v)
    (server : Server (List T)) :
    (p.vectors.set vec { v with server := server }).map DynVector.itemPerPage = p.sizes := by
  obtain ⟨hlt, rfl⟩ := List.getElem?_eq_some_iff.1 hv
  rw [List.map_set, sizes]
  refine List.ext_getElem (by simp) fun i h1 h2 => ?_
  rw [List.getElem_set]
  split
  · subst_vars
    simp
  · rfl

/-- What an operation does to the page sizes and the `static` variable. -/
theorem step_static {op : Op T} {p p' : Process T} (h : step op p = some p') :
    (∃ itemPerPage hpos nounce, op = .create itemPerPage hpos nounce ∧
        p'.staticItemPerPage = p.staticItemPerPage ∧ p'.sizes = p.sizes ++ [itemPerPage]) ∨
      (∃ vec b xs c, op = .copyOut vec b xs c ∧ p'.staticItemPerPage = p.staticItemPerPage ∧
        p'.sizes = p.sizes) ∨
      ∃ vec b e mem c q, op = .copyIn vec b e mem c ∧ p.sizes[vec]? = some q ∧
        p'.staticItemPerPage = some (p.staticItemPerPage.getD q) ∧ p'.sizes = p.sizes := by
  cases op with
  | create itemPerPage hpos nounce =>
    simp only [step, Option.some.injEq] at h
    subst h
    exact .inl ⟨itemPerPage, hpos, nounce, rfl, rfl, by simp [sizes]⟩
  | copyOut vec b xs c =>
    simp only [step, copyOut] at h
    split at h
    · cases h
    · rename_i v hv
      simp only [Option.some.injEq] at h
      subst h
      exact .inr (.inl ⟨vec, b, xs, c, rfl, rfl, sizes_set hv _⟩)
  | copyIn vec b e mem c =>
    simp only [step, copyIn] at h
    split at h
    · cases h
    · rename_i v hv
      split at h
      · cases h
      · simp only [Option.map_some, Option.some.injEq] at h
        subst h
        refine .inr (.inr ⟨vec, b, e, mem, c, v.itemPerPage, rfl, ?_, rfl, sizes_set hv _⟩)
        rw [sizes, List.getElem?_map, hv, Option.map_some]

/-- **The `static` page size** of a run is that of the first `CopyIn`. -/
theorem run_static {ops : List (Op T)} {p p' : Process T} (h : run ops p = some p') :
    p'.staticItemPerPage = p.staticItemPerPage.or (firstCopyIn p.sizes ops) := by
  induction ops generalizing p with
  | nil =>
    simp only [run, Option.some.injEq] at h
    subst h
    simp [firstCopyIn]
  | cons op ops ih =>
    obtain ⟨p₁, hstep, hrun⟩ := Option.bind_eq_some_iff.1 h
    rw [ih hrun]
    rcases step_static hstep with ⟨q, hpos, nounce, rfl, h1, h2⟩ | ⟨vec, b, xs, c, rfl, h1, h2⟩ |
      ⟨vec, b, e, mem, c, q, rfl, hq, h1, -⟩
    · rw [h1, h2, firstCopyIn]
    · rw [h1, h2, firstCopyIn]
    · rw [h1, firstCopyIn, hq]
      cases p.staticItemPerPage <;> rfl

/-- A copy out and in again, in a process. -/
theorem copyIn_copyOut {p : Process T} {vec : Nat} {v : DynVector T} (hv : p.vectors[vec]? = some v)
    (beginPageIdx count counter : Nat) {xs : List T} (hlen : xs.length = count * v.itemPerPage)
    (mem : Nat → T) :
    ∃ p₁ p₂, p.copyOut vec beginPageIdx xs counter = some p₁ ∧
      p₁.copyIn vec beginPageIdx (beginPageIdx + count) mem counter =
        some (putPages (p.staticItemPerPage.getD v.itemPerPage) 0
          ((List.range count).map fun i => pageOf v.itemPerPage i xs) mem, p₂) := by
  obtain ⟨hlt, -⟩ := List.getElem?_eq_some_iff.1 hv
  have hcount : xs.length / v.itemPerPage = count := by
    rw [hlen, Nat.mul_div_cancel _ v.itemPerPage_pos]
  obtain ⟨s', hs'⟩ :=
    copyInPages_copyOutPages (p.staticItemPerPage.getD v.itemPerPage) v.itemPerPage
    counter count beginPageIdx xs mem v.server
  generalize hs : copyOutPages (Vector.authenticated (List T)) v.itemPerPage counter count
    beginPageIdx xs v.server = s at hs'
  have hout : p.copyOut vec beginPageIdx xs counter =
      some { p with vectors := p.vectors.set vec { v with server := s } } := by
    simp only [copyOut, hv, hcount, hs]
  refine ⟨_, ⟨some (p.staticItemPerPage.getD v.itemPerPage),
    (p.vectors.set vec { v with server := s }).set vec { v with server := s' }⟩, hout, ?_⟩
  simp only [copyIn, List.getElem?_set_self hlt, Nat.add_sub_cancel_left, hs']

/-- Every list copied out to `count` pages comes back. -/
def RoundTrips (p : Process T) (vec beginPageIdx count itemPerPage : Nat) : Prop :=
  ∀ (xs : List T) (counter : Nat) (mem : Nat → T), xs.length = count * itemPerPage →
    ∃ p₁ p₂ mem', p.copyOut vec beginPageIdx xs counter = some p₁ ∧
      p₁.copyIn vec beginPageIdx (beginPageIdx + count) mem counter = some (mem', p₂) ∧
      (List.range xs.length).map mem' = xs

end Process

/-- **When copies come back**, after any history of a process: exactly when the range has at most
one page, or its vector has the page size of the first vector that `CopyIn` has read from, if
any. -/
theorem copyIn_copyOut_iff [Nontrivial T] (ops : List (Op T)) (p : Process T)
    (hrun : Process.run ops Process.start = some p) (vec : Nat) (v : DynVector T)
    (hv : p.vectors[vec]? = some v) (beginPageIdx count : Nat) :
    p.RoundTrips vec beginPageIdx count v.itemPerPage ↔
      count ≤ 1 ∨ ∀ q, firstCopyIn [] ops = some q → q = v.itemPerPage := by
  have hstatic : p.staticItemPerPage = firstCopyIn [] ops := by
    have := Process.run_static hrun
    rwa [Process.start, Option.none_or] at this
  constructor
  · intro hround
    by_contra hnot
    push Not at hnot
    obtain ⟨hcount, q, hfirst, hne⟩ := hnot
    obtain ⟨a, b, hab⟩ := exists_pair_ne T
    -- a list of `a`s into a memory of `b`s
    have hlen : (List.replicate (count * v.itemPerPage) a).length = count * v.itemPerPage :=
      List.length_replicate
    obtain ⟨p₁, p₂, mem', h1, h2, h3⟩ := hround _ 0 (fun _ => b) hlen
    obtain ⟨p₁', p₂', h1', h2'⟩ := Process.copyIn_copyOut hv beginPageIdx count 0 hlen fun _ => b
    rw [h1] at h1'
    cases h1'
    rw [h2] at h2'
    cases h2'
    rw [hstatic, hfirst, Option.getD_some] at h3
    obtain ⟨x, hx, hgap⟩ := putPages_gap v.itemPerPage_pos hcount hne hlen fun _ => b
    have hget := List.getElem_of_eq h3 (show x < _ by simpa using hx)
    rw [List.getElem_map, List.getElem_range, List.getElem_replicate, hgap] at hget
    exact hab hget.symm
  · intro hcond xs counter mem hlen
    obtain ⟨p₁, p₂, h1, h2⟩ := Process.copyIn_copyOut hv beginPageIdx count counter hlen mem
    refine ⟨p₁, p₂, _, h1, h2, ?_⟩
    have hput : putPages (p.staticItemPerPage.getD v.itemPerPage) 0
        ((List.range count).map fun i => pageOf v.itemPerPage i xs) mem =
          putPages v.itemPerPage 0 ((List.range count).map fun i =>
            pageOf v.itemPerPage i xs) mem := by
      rcases hcond with hcount | hfirst
      · -- the distance between pages plays no part
        obtain rfl | rfl : count = 0 ∨ count = 1 := by omega
        · rfl
        · rfl
      · rw [hstatic]
        cases h : firstCopyIn [] ops with
        | none => rfl
        | some q => rw [hfirst q h, Option.getD_some]
    rw [hput]
    exact map_putPages hlen mem

/-- A process that has read from a vector with pages of one element. -/
def afterSmallPages : List (Op Nat) :=
  [.create 1 (by decide) ⟨0, 0⟩, .create 2 (by decide) ⟨0, 0⟩, .copyIn 0 0 0 (fun _ => 0) 0]

/-- One page of the other vector comes back, and two pages of the vector that was read from. -/
theorem copyIn_copyOut_iff_onePage :
    (∃ p v, Process.run afterSmallPages Process.start = some p ∧ p.vectors[1]? = some v ∧
      p.RoundTrips 1 1 1 v.itemPerPage) ∧
    ∃ p v, Process.run afterSmallPages Process.start = some p ∧ p.vectors[0]? = some v ∧
      p.RoundTrips 0 0 2 v.itemPerPage :=
  ⟨⟨_, _, rfl, rfl, (copyIn_copyOut_iff afterSmallPages _ rfl 1 _ rfl 1 1).2 (.inl (by decide))⟩,
    ⟨_, _, rfl, rfl, (copyIn_copyOut_iff afterSmallPages _ rfl 0 _ rfl 0 2).2
      (.inr fun _ hq => (Option.some.inj hq).symm)⟩⟩

/-- Two pages of the other vector do not: they overlap by one element. -/
theorem copyIn_overlaps : ∃ p v, Process.run afterSmallPages Process.start = some p ∧
    p.vectors[1]? = some v ∧ ¬ p.RoundTrips 1 0 2 v.itemPerPage := by
  refine ⟨_, _, rfl, rfl, fun hround => ?_⟩
  obtain ⟨p₁, p₂, mem', h1, h2, h3⟩ := hround [1, 2, 3, 4] 0 (fun _ => 0) rfl
  cases h1
  cases h2
  exact absurd h3 (by decide)

end EM.DynamicPageVector
