import OblSort.Proof.NonCachedVector

/-!
# What `CopyOut` does around its range

With the counter 0 `CopyOut` does not read the page in which its range ends: it completes it from
the scratch page of the vector, `completion`. `copyOut_frame_iff`: the elements around the range are
kept exactly when the scratch page has them.
-/

namespace EM.NonCachedVector

open Paged

variable {n : Nat} {α : Type}

variable [NeZero n] {data src : List α} {v : Vector n α} {c : Nat}

/-! ## Contents -/

/-- The page that is stored, whatever its counter. -/
def storedPage (v : Vector n α) (p : Nat) : Page n α :=
  ((v.server.pages p).map FreshEncrypted.data).getD v.cachePage

/-- What the vector holds. -/
def contents (v : Vector n α) : List α :=
  (List.range v.N).map fun i => storedPage v (i / n) (Fin.ofNat n i)

omit [NeZero n] in
theorem Has.storedPage {p : Nat} {page : Page n α} (h : Has v p c page) :
    storedPage v p = page := by
  rw [NonCachedVector.storedPage, h.stored]
  rfl

/-- A vector whose pages were all written with one counter stores its contents. -/
theorem stores_contents (h : ∀ p, p * n < v.N → ∃ page, Has v p c page) :
    Stores v c (contents v) := by
  refine ⟨by rw [contents, List.length_map, List.length_range], fun p hp => ?_⟩
  obtain ⟨page, hhas⟩ := h p hp
  refine ⟨page, hhas, fun o _ ho => ?_⟩
  obtain ⟨hdiv, hmod⟩ := div_mod_of_lt (p := p) o.isLt
  have hval : Fin.ofNat n (p * n + o) = o := Fin.ext hmod
  rw [contents, List.getElem?_map, List.getElem?_range (by omega), Option.map_some, hdiv, hval,
    hhas.storedPage]

omit [NeZero n] in
/-- One page replaced. -/
theorem Stores.write (h : Stores v c data) {data' : List α} {p : Nat} {page : Page n α}
    (hlen : data'.length = data.length) (hpage : Agrees data' p page 0 (v.N - p * n))
    (hother : ∀ i, i / n ≠ p → data'[i]? = data[i]?) : Stores (v.write p page c) c data' where
  size := hlen.trans h.size
  pages q hq := by
    by_cases hqp : q = p
    · subst hqp
      exact ⟨page, has_write v q c page, hpage⟩
    · obtain ⟨page', hhas, hagrees⟩ := h.pages q hq
      refine ⟨page', hhas.write_ne page hqp, fun o ho hlt => ?_⟩
      rw [hother _ (by rw [(div_mod_of_lt o.isLt).1]; exact hqp), hagrees o ho hlt]

omit [NeZero n] in
/-- A position outside of a page is outside of a range within that page. -/
theorem div_ne_of_range {p i : Nat} (o len : Nat) (hfit : o + len ≤ n) (h : i / n ≠ p) :
    ¬ (p * n + o ≤ i ∧ i < p * n + o + len) := by
  rintro ⟨h1, h2⟩
  have hlt : i - p * n < n := by omega
  have hdiv := (div_mod_of_lt (p := p) hlt).1
  rw [Nat.add_sub_cancel' (by omega)] at hdiv
  exact h hdiv

/-- A range within a page, written through a page that has what is stored around it. -/
theorem Stores.writeCache (h : Stores v c data) {p o : Nat} (hfit : o + src.length ≤ n)
    (hle : p * n + o + src.length ≤ v.N) (hcache : Agrees data p v.cachePage 0 (v.N - p * n)) :
    Stores (v.writeCache p o src c) c (splice data (p * n + o) src) := by
  rw [← h.size] at hle
  refine Stores.write (h.cache _) (length_splice hle) (agrees_splice hcache hfit hle) fun i hi => ?_
  rw [getElem?_splice hle, if_neg (div_ne_of_range o src.length hfit hi)]

/-- A page written as a whole, whatever it holds. -/
theorem Stores.writePage (h : Stores v c data) {p : Nat} (hp : p * n < v.N) (page : Page n α) :
    Stores (v.write p page c) c (splice data (p * n) (slice 0 (min n (v.N - p * n)) page)) := by
  have hlen : (slice 0 (min n (v.N - p * n)) page).length = min n (v.N - p * n) := by
    rw [length_slice, Nat.sub_zero]
  have hle : p * n + (slice 0 (min n (v.N - p * n)) page).length ≤ data.length := by
    rw [hlen, h.size]
    omega
  refine h.write (length_splice hle) (fun o _ ho => ?_) fun i hi => ?_
  · rw [getElem?_splice hle, hlen, if_pos (by omega), Nat.add_sub_cancel_left,
      getElem?_slice (by omega), Nat.zero_add]
    congr 2
    exact Fin.ext (Nat.mod_eq_of_lt o.isLt)
  · rw [getElem?_splice hle, hlen, if_neg]
    simpa using div_ne_of_range 0 (min n (v.N - p * n)) (by omega) hi

/-- **Completing a page** from `page` keeps the elements around the range exactly when `page` has
them. The first `k` elements of the range come before the page `q`, the others go to its offset
`o`. -/
theorem splice_completed_iff {a k q o : Nat} {page : Page n α} (hle : a + src.length ≤ data.length)
    (hk : k ≤ src.length) (hpos : q * n + o = a + k) (hok : o = 0 ∨ k = 0)
    (hfit : o + (src.length - k) ≤ n) (hq : q * n < data.length) :
    splice (splice data a (src.take k)) (q * n)
        (slice 0 (min n (data.length - q * n)) (fill o (src.drop k) page)) = splice data a src ↔
      ∀ i < data.length, i / n = q → ¬ (a ≤ i ∧ i < a + src.length) →
        data[i]? = some (page (Fin.ofNat n i)) := by
  have htake : (src.take k).length = k := by rw [List.length_take]; omega
  have hslice : (slice 0 (min n (data.length - q * n)) (fill o (src.drop k) page)).length =
      min n (data.length - q * n) := by rw [length_slice, Nat.sub_zero]
  have hle₁ : a + (src.take k).length ≤ data.length := by omega
  have hlen₁ := length_splice hle₁
  have hle₂ : q * n + (slice 0 (min n (data.length - q * n)) (fill o (src.drop k) page)).length ≤
      (splice data a (src.take k)).length := by omega
  -- a position of the page outside of the range gets what `page` has, any other one its element
  have hget : ∀ i < data.length, (splice (splice data a (src.take k)) (q * n)
      (slice 0 (min n (data.length - q * n)) (fill o (src.drop k) page)))[i]? =
        if i / n = q ∧ ¬ (a ≤ i ∧ i < a + src.length) then some (page (Fin.ofNat n i))
        else (splice data a src)[i]? := fun i hi => by
    have hfits : o + (src.drop k).length ≤ n := by rwa [List.length_drop]
    rw [getElem?_splice hle₂, getElem?_splice hle₁, getElem?_splice hle, hslice, htake]
    by_cases hpage : i / n = q
    · subst hpage
      have hdiv := Nat.div_add_mod i n
      rw [Nat.mul_comm] at hdiv
      have hmod := Nat.mod_lt i (pos_itemPerPage n)
      have hval : Fin.ofNat n (i - i / n * n) = Fin.ofNat n i :=
        Fin.ext (show (i - i / n * n) % n = i % n by
          rw [show i - i / n * n = i % n by omega, Nat.mod_mod])
      have hnat : (Fin.ofNat n i).val = i % n := rfl
      rw [if_pos (by omega), getElem?_slice (by omega), Nat.zero_add, hval, fill_apply hfits, hnat,
        List.length_drop]
      by_cases hin : o ≤ i % n ∧ i % n < o + (src.length - k)
      · rw [if_pos hin, if_neg (by omega), if_pos (by omega), List.getElem?_drop]
        congr 1
        omega
      · rw [if_neg hin, if_pos ⟨rfl, by omega⟩]
    · have hout := div_ne_of_range o (src.length - k) hfit hpage
      have hout' := div_ne_of_range 0 n (by omega) hpage
      rw [if_neg (by omega), if_neg (show ¬ (i / n = q ∧ _) from fun h => hpage h.1)]
      by_cases hin : a ≤ i ∧ i < a + k
      · rw [if_pos hin, if_pos (by omega), List.getElem?_take_of_lt (by omega)]
      · rw [if_neg hin, if_neg (by omega)]
  constructor
  · intro heq i hi hpage hout
    have := hget i hi
    rw [heq, if_pos ⟨hpage, hout⟩, getElem?_splice hle, if_neg hout] at this
    exact this
  · intro hkept
    refine List.ext_getElem? fun i => ?_
    by_cases hi : i < data.length
    · rw [hget i hi]
      split
      · rename_i h
        rw [getElem?_splice hle, if_neg h.2, hkept i hi h.1 h.2]
      · rfl
    · rw [List.getElem?_eq_none (by rw [length_splice hle₂, hlen₁]; omega),
        List.getElem?_eq_none (by rw [length_splice hle]; omega)]

/-! ## The parts of `CopyOut` with the counter 0 -/

/-- Whole pages. -/
theorem Stores.copyOutPages (h : Stores v c data) {count p : Nat} (hlen : count * n ≤ src.length)
    (hle : p * n + count * n ≤ v.N) :
    ∃ server, copyOutPages c count p src v = some { v with server } ∧
      Stores { v with server } c (splice data (p * n) (src.take (count * n))) := by
  have hn := pos_itemPerPage n
  induction count generalizing p src data v with
  | zero =>
    refine ⟨v.server, rfl, ?_⟩
    have hnil : splice data (p * n) (src.take (0 * n)) = data := by simp [splice]
    rw [hnil]
    exact h
  | succ count ih =>
    rw [Nat.succ_mul] at hlen hle
    obtain ⟨page, hpage, hget⟩ := ofList_eq (show n ≤ src.length by omega)
    have htake : (src.take n).length = n := by rw [List.length_take]; omega
    have hfits : p * n + (src.take n).length ≤ data.length := by rw [htake, h.size]; omega
    have hwritten : Stores (v.write p page c) c (splice data (p * n) (src.take n)) := by
      refine h.write (length_splice hfits) (fun o _ _ => ?_) fun i hi => ?_
      · rw [getElem?_splice hfits, htake, if_pos (by omega), Nat.add_sub_cancel_left,
          List.getElem?_take_of_lt o.isLt, hget]
      · rw [getElem?_splice hfits, htake, if_neg]
        simpa using div_ne_of_range 0 n (by omega) hi
    obtain ⟨server, hrun, hstores⟩ := ih hwritten
      (show count * n ≤ (src.drop n).length by rw [List.length_drop]; omega)
      (show (p + 1) * n + count * n ≤ v.N by rw [Nat.succ_mul]; omega)
    refine ⟨server, ?_, ?_⟩
    · rw [NonCachedVector.copyOutPages, hpage, Option.bind_some, hrun]
      rfl
    · have hsplice : splice (splice data (p * n) (src.take n)) ((p + 1) * n)
          ((src.drop n).take (count * n)) = splice data (p * n) (src.take ((count + 1) * n)) := by
        have hstart : (p + 1) * n = p * n + (src.take n).length := by rw [htake, Nat.succ_mul]
        rw [hstart, splice_splice (by
          rw [htake, h.size, List.length_take, List.length_drop]
          omega), show (count + 1) * n = n + count * n by rw [Nat.succ_mul, Nat.add_comm],
          List.take_add]
      rw [hsplice] at hstores
      exact hstores

/-- The elements around the range from `a` to `e` in the page where it ends are those of `page`. -/
def KeptBy (data : List α) (a e : Nat) (page : Page n α) : Prop :=
  ∀ i < data.length, i / n = e / n → ¬ (a ≤ i ∧ i < e) → data[i]? = some (page (Fin.ofNat n i))

/-- The part of a page in which a range ends. -/
theorem Stores.writeLast {a k q o : Nat} (h : Stores v 0 (splice data a (src.take k)))
    (hsize : data.length = v.N) (hle : a + src.length ≤ data.length) (hk : k ≤ src.length)
    (hpos : q * n + o = a + k) (hok : o = 0 ∨ k = 0) (hfit : o + (src.length - k) < n)
    (hend : 0 < o + (src.length - k)) :
    ∃ data', Stores (v.writeCache q o (src.drop k) 0) 0 data' ∧
      (data' = splice data a src ↔ KeptBy data a (a + src.length) v.cachePage) := by
  have hq : (a + src.length) / n = q := by
    rw [show a + src.length = q * n + (o + (src.length - k)) by omega]
    exact (div_mod_of_lt hfit).1
  refine ⟨_, (h.cache (fill o (src.drop k) v.cachePage)).writePage (show q * n < v.N by omega)
    (fill o (src.drop k) v.cachePage), ?_⟩
  rw [KeptBy, hq]
  dsimp only
  rw [← hsize]
  exact splice_completed_iff hle hk hpos hok hfit.le (by omega)

/-- From a page on: whole pages, then the part of the last one. -/
theorem Stores.copyOutAligned {a k p e : Nat} (h : Stores v 0 (splice data a (src.take k)))
    (hsize : data.length = v.N) (hle : e ≤ data.length) (hk : k ≤ src.length)
    (hp : p * n = a + k) (he : a + src.length = e) :
    ∃ v' data', ((NonCachedVector.copyOutPages 0 (e / n - p) p (src.drop k) v).bind fun v =>
        if e % n ≠ 0 then
          NonCachedVector.copyOutEnd ((src.drop k).drop ((e / n - p) * n)) e 0 v
        else some v) = some v' ∧ v'.N = v.N ∧ Stores v' 0 data' ∧
      (data' = splice data a src ↔ e % n = 0 ∨ KeptBy data a e v.cachePage) := by
  have hn := pos_itemPerPage n
  have hdiv := Nat.div_add_mod e n
  rw [Nat.mul_comm] at hdiv
  have hpe : p ≤ e / n := (Nat.le_div_iff_mul_le hn).2 (by omega)
  have hmul : e / n * n = p * n + (e / n - p) * n := by rw [← Nat.add_mul, Nat.add_sub_cancel' hpe]
  have htake : (src.take k).length = k := by rw [List.length_take]; omega
  obtain ⟨server, hrun, hpages⟩ := h.copyOutPages
    (show (e / n - p) * n ≤ (src.drop k).length by rw [List.length_drop]; omega)
    (show p * n + (e / n - p) * n ≤ v.N by omega)
  have hjoin : splice (splice data a (src.take k)) (p * n) ((src.drop k).take ((e / n - p) * n)) =
      splice data a (src.take (k + (e / n - p) * n)) := by
    rw [show p * n = a + (src.take k).length by omega, splice_splice (by
      rw [htake, List.length_take, List.length_drop]
      omega), List.take_add]
  rw [hjoin] at hpages
  rw [hrun, Option.bind_some]
  by_cases hoff : e % n = 0
  · refine ⟨_, _, if_neg (by simpa using hoff), rfl, hpages, ?_⟩
    have hall : src.take (k + (e / n - p) * n) = src := List.take_of_length_le (by omega)
    rw [hall]
    exact ⟨fun _ => .inl hoff, fun _ => rfl⟩
  · obtain ⟨data', hstores, hiff⟩ :=
      hpages.writeLast (o := 0) (q := e / n) hsize (by omega) (by omega)
      (by omega) (.inl rfl) (by have := Nat.mod_lt e hn; omega) (by omega)
    refine ⟨_, data', ?_, ?_, hstores, ?_⟩
    · rw [if_pos hoff, NonCachedVector.copyOutEnd, List.drop_drop]
      split
      · rw [if_neg (Nat.lt_irrefl 0), Option.bind_some]
      · rw [Option.bind_some]
    · rfl
    · rw [hiff, he]
      exact ⟨.inr, fun h => h.resolve_left hoff⟩

/-! ## `CopyOut` with the counter 0 -/

/-- What the page in which a range ends is completed from: the scratch page of the vector, after the
page in which the range begins has gone through it. -/
def completion (src : List α) (a : Nat) (v : Vector n α) : Page n α :=
  if a / n < (a + src.length) / n ∧ a % n ≠ 0 then
    fill (a % n) (src.take (n - a % n)) (storedPage v (a / n))
  else v.cachePage

/-- **`CopyOut`** with the counter 0 does not abort, and keeps what is around its range exactly when
nothing has to be completed, or from a page that has it. -/
theorem Stores.copyOut {a : Nat} (h : Stores v 0 data) (hle : a + src.length ≤ v.N) :
    ∃ v' data', copyOut src a 0 v = some v' ∧ v'.N = v.N ∧ Stores v' 0 data' ∧
      (data' = splice data a src ↔ src = [] ∨ (a + src.length) % n = 0 ∨
        KeptBy data a (a + src.length) (completion src a v)) := by
  have hn := pos_itemPerPage n
  have hdiv := Nat.div_add_mod a n
  have hdive := Nat.div_add_mod (a + src.length) n
  have hmod := Nat.mod_lt a hn
  have hmode := Nat.mod_lt (a + src.length) hn
  rw [Nat.mul_comm] at hdiv hdive
  have hsize := h.size
  have hnil : ∀ xs : List α, splice xs a [] = xs := fun xs => by simp [splice]
  rw [NonCachedVector.copyOut]
  dsimp only
  by_cases hpage : a / n = (a + src.length) / n
  · rw [if_pos hpage]
    have hmul : a / n * n = (a + src.length) / n * n := by rw [← hpage]
    have hcomp : completion src a v = v.cachePage := if_neg (by omega)
    by_cases hne : src = []
    · subst hne
      exact ⟨v, data, rfl, rfl, h, fun _ => .inl rfl, fun _ => (hnil data).symm⟩
    · have hpos := List.length_pos_iff.2 hne
      rw [if_pos hpos.ne', hcomp, NonCachedVector.copyOutWithin]
      have h₀ : Stores v 0 (splice data a (src.take 0)) := by rwa [List.take_zero, hnil]
      obtain ⟨data', hstores, hiff⟩ := h₀.writeLast (o := a % n) (q := a / n) hsize (by omega)
        (Nat.zero_le _) (by omega) (.inr rfl) (by omega) (by omega)
      rw [List.drop_zero] at hstores
      refine ⟨_, data', ?_, ?_, hstores, ?_⟩
      · split
        · rw [if_neg (Nat.lt_irrefl 0), Option.bind_some]
        · rw [Option.bind_some]
      · rfl
      · rw [hiff]
        exact ⟨fun hkept => .inr (.inr hkept), fun hor =>
          (hor.resolve_left hne).resolve_left (by omega)⟩
  · rw [if_neg hpage]
    have hlt : a / n < (a + src.length) / n := by
      have := Nat.div_le_div_right (c := n) (Nat.le_add_right a src.length)
      omega
    have hmul := Nat.mul_le_mul_right n (Nat.succ_le_of_lt hlt)
    rw [Nat.succ_mul] at hmul
    have hne : src ≠ [] := fun hnil => hpage (by rw [hnil, List.length_nil, Nat.add_zero])
    by_cases hoff : a % n = 0
    · have hcomp : completion src a v = v.cachePage := if_neg (by omega)
      rw [if_neg (by simpa using hoff), if_neg (by simpa using hoff), if_neg (by simpa using hoff),
        Option.bind_some, hcomp]
      have h₀ : Stores v 0 (splice data a (src.take 0)) := by rwa [List.take_zero, hnil]
      obtain ⟨v', data', hrun, hN, hstores, hiff⟩ := h₀.copyOutAligned (p := a / n) hsize
        (by omega) (Nat.zero_le _) (by omega) rfl
      refine ⟨v', data', hrun, hN, hstores, ?_⟩
      rw [hiff]
      exact ⟨.inr, fun hor => hor.resolve_left hne⟩
    · rw [if_pos hoff, if_pos hoff, if_pos hoff]
      obtain ⟨page, hhas, hagrees⟩ := h.pages (a / n) (by omega)
      have hcomp : completion src a v = fill (a % n) (src.take (n - a % n)) page := by
        rw [completion, if_pos ⟨hlt, hoff⟩, hhas.storedPage]
      have htake : (src.take (n - a % n)).length = n - a % n := by
        rw [List.length_take]
        omega
      have hbegin : NonCachedVector.copyOutBegin (src.take (n - a % n)) a 0 v =
          some (({ v with cachePage := page } : Vector n α).writeCache (a / n) (a % n)
            (src.take (n - a % n)) 0) := by
        rw [NonCachedVector.copyOutBegin, if_pos (by rintro rfl; exact hoff (Nat.zero_mod n)),
          hhas.readCache, Option.bind_some]
      have h₁ := (h.cache page).writeCache (o := a % n) (p := a / n) (by omega)
        (show a / n * n + a % n + (src.take (n - a % n)).length ≤ v.N by omega) hagrees
      rw [hdiv] at h₁
      rw [hbegin, Option.bind_some, hcomp]
      obtain ⟨v', data', hrun, hN, hstores, hiff⟩ := h₁.copyOutAligned (p := a / n + 1) hsize
        (by omega) (by omega) (by rw [Nat.succ_mul]; omega) rfl
      refine ⟨v', data', hrun, hN, hstores, ?_⟩
      rw [hiff]
      exact ⟨.inr, fun hor => hor.resolve_left hne⟩

/-! ## Histories of copies -/

/-- A copy with the counter 0. -/
inductive CopyOp (α : Type)
  | copyIn (beginPtr endPtr : Nat)
  | copyOut (src : List α) (toPtr : Nat)

/-- The range of the copy is inside a vector of `N` elements. -/
def CopyOp.Inside (N : Nat) : CopyOp α → Prop
  | .copyIn beginPtr endPtr => beginPtr ≤ endPtr ∧ endPtr ≤ N
  | .copyOut src toPtr => toPtr + src.length ≤ N

/-- The vector after the copy. -/
def CopyOp.run : CopyOp α → Vector n α → Option (Vector n α)
  | .copyIn beginPtr endPtr, v => (NonCachedVector.copyIn beginPtr endPtr 0 v).map Prod.snd
  | .copyOut src toPtr, v => NonCachedVector.copyOut src toPtr 0 v

def runCopies : List (CopyOp α) → Vector n α → Option (Vector n α)
  | [], v => some v
  | op :: ops, v => (op.run v).bind (runCopies ops)

/-- A copy leaves a vector whose pages were all written with the counter 0. -/
theorem Stores.run_copyOp (h : Stores v 0 data) {op : CopyOp α} (hop : op.Inside v.N) :
    ∃ v' data', op.run v = some v' ∧ v'.N = v.N ∧ Stores v' 0 data' := by
  cases op with
  | copyIn b e =>
    obtain ⟨cachePage, hrun⟩ := h.copyIn hop.1 hop.2
    exact ⟨{ v with cachePage }, data, by rw [CopyOp.run, hrun, Option.map_some], rfl,
      h.cache cachePage⟩
  | copyOut src a =>
    obtain ⟨v', data', hrun, hN, hstores, -⟩ := h.copyOut hop
    exact ⟨v', data', hrun, hN, hstores⟩

theorem Stores.runCopies (h : Stores v 0 data) {ops : List (CopyOp α)}
    (hops : ∀ op ∈ ops, op.Inside v.N) :
    ∃ v' data', runCopies ops v = some v' ∧ v'.N = v.N ∧ Stores v' 0 data' := by
  induction ops generalizing v data with
  | nil => exact ⟨v, data, rfl, rfl, h⟩
  | cons op ops ih =>
    obtain ⟨v₁, data₁, hrun, hN, h₁⟩ := h.run_copyOp (hops op List.mem_cons_self)
    obtain ⟨v₂, data₂, hrest, hN₂, h₂⟩ := ih h₁ fun op' hop' => by
      rw [hN]
      exact hops op' (List.mem_cons_of_mem op hop')
    exact ⟨v₂, data₂, by rw [NonCachedVector.runCopies, hrun, Option.bind_some, hrest],
      hN₂.trans hN, h₂⟩

/-- The stored list is the contents. -/
theorem Stores.contents_eq (h : Stores v c data) : contents v = data := by
  have hhas : ∀ p, p * n < v.N → ∃ page, Has v p c page := fun p hp => by
    obtain ⟨page, hpage, -⟩ := h.pages p hp
    exact ⟨page, hpage⟩
  obtain ⟨_, h₁⟩ := h.copyIn_all
  obtain ⟨_, h₂⟩ := (stores_contents hhas).copyIn_all
  rw [h₁] at h₂
  exact (congrArg Prod.fst (Option.some.inj h₂)).symm

/-- **The frame law**: after any copies, `CopyOut` with the counter 0 and a `CopyIn` of the whole
vector give the source inside the range and the previous contents around it, exactly when the range
is empty or ends at a page, or the page that it is completed from has the elements around it. -/
theorem copyOut_frame_iff {ops : List (CopyOp α)} {a : Nat}
    (hv : ∀ p, p * n < v.N → ∃ page, Has v p 0 page) (hops : ∀ op ∈ ops, op.Inside v.N)
    (ha : a + src.length ≤ v.N) :
    ∃ w, runCopies ops v = some w ∧
      ((∃ w' w'', copyOut src a 0 w = some w' ∧
          copyIn 0 w.N 0 w' = some (splice (contents w) a src, w'')) ↔
        src = [] ∨ (a + src.length) % n = 0 ∨
          KeptBy (contents w) a (a + src.length) (completion src a w)) := by
  obtain ⟨w, data, hrun, hN, hw⟩ := (stores_contents hv).runCopies hops
  refine ⟨w, hrun, ?_⟩
  rw [hw.contents_eq]
  obtain ⟨w', data', hout, hN', hw', hiff⟩ := hw.copyOut (a := a) (by rwa [hN])
  obtain ⟨cachePage, hin⟩ := hw'.copyIn_all
  rw [hN'] at hin
  rw [← hiff]
  constructor
  · rintro ⟨x, y, hx, hy⟩
    rw [hout] at hx
    cases hx
    rw [hin] at hy
    exact congrArg Prod.fst (Option.some.inj hy)
  · rintro rfl
    exact ⟨w', _, hout, hin⟩

/-- A range that ends at the end of a page. -/
theorem copyOut_frame_half_page :
    ∃ w, runCopies [.copyOut [1, 2, 3, 4] 0] onePage = some w ∧
      ∃ w' w'', copyOut [5, 6] 2 0 w = some w' ∧
        copyIn 0 w.N 0 w' = some (splice (contents w) 2 [5, 6], w'') := by
  obtain ⟨w, hrun, hiff⟩ : ∃ w, runCopies [.copyOut [1, 2, 3, 4] 0] onePage = some w ∧
      ((∃ w' w'', copyOut [5, 6] 2 0 w = some w' ∧
          copyIn 0 w.N 0 w' = some (splice (contents w) 2 [5, 6], w'')) ↔
        [5, 6] = [] ∨ (2 + 2) % 4 = 0 ∨ KeptBy (contents w) 2 (2 + 2) (completion [5, 6] 2 w)) :=
    copyOut_frame_iff (fun p hp => ⟨_, onePage_has p hp⟩) (fun op hop => by
      rw [List.mem_singleton.1 hop]
      exact Nat.le_refl 4) (Nat.le_refl 4)
  exact ⟨w, hrun, hiff.2 (.inr (.inl rfl))⟩

/-- A range inside a page: the page is completed with zeros, which the scratch page has held from
the start. -/
theorem copyOut_frame_clobbered :
    ∃ w, runCopies [.copyOut [1, 2, 3, 4] 0] onePage = some w ∧ contents w = [1, 2, 3, 4] ∧
      ¬ ∃ w' w'', copyOut [9] 1 0 w = some w' ∧
        copyIn 0 w.N 0 w' = some (splice (contents w) 1 [9], w'') := by
  have hcontents : (runCopies [.copyOut [1, 2, 3, 4] 0] onePage).map contents =
    some [1, 2, 3, 4] := by
    decide
  have hread : ((runCopies [.copyOut [1, 2, 3, 4] 0] onePage).bind fun w =>
      (copyOut [9] 1 0 w).bind fun w' => (copyIn 0 w.N 0 w').map Prod.fst) = some [0, 9, 0, 0] := by
    decide
  obtain ⟨w, hrun, hw⟩ := Option.map_eq_some_iff.1 hcontents
  refine ⟨w, hrun, hw, ?_⟩
  rintro ⟨w', w'', hout, hin⟩
  rw [hrun, Option.bind_some, hout, Option.bind_some, hin, hw] at hread
  exact absurd (show splice [1, 2, 3, 4] 1 [9] = [0, 9, 0, 0] from Option.some.inj hread)
    (by decide)

end EM.NonCachedVector
