import OblSort.Algorithm.DistriVector
import OblSort.Algorithm.Proof.DistriRuns
import OblSort.Algorithm.Proof.PagePermReader

/-!
# Counters and tags of a distribution sort
-/

namespace EM.Algorithm

open NonCachedVector Paged Loop KWayDistriSorter

variable {n m m' : Nat} [NeZero n] [NeZero m] [NeZero m'] {α : Type}

/-! ## Reading the input -/

/-- Every page that a reader asks for is read with its counter. -/
theorem Reading.readInput {v : NonCachedVector.Vector n α} {c : Nat} {data : List α}
    {r : Reader n α}
    (h : Reading data c r) (hv : Stores v c data) {count : Nat} (hcount : r.it + count ≤ v.N) :
    (readInput v count r).2 = some ((data.drop r.it).take count) ∧
      ∀ op ∈ (readInput v count r).1, ∃ p, op = .read p c := by
  induction count generalizing r with
  | zero => exact ⟨rfl, fun op hop => by cases hop⟩
  | succ count ih =>
    obtain ⟨x, r', hread, hx, hit, -, h'⟩ := h.read hv (by omega)
    obtain ⟨hrest, hops⟩ := ih h' (by omega)
    rw [Algorithm.readInput, hread]
    dsimp only
    refine ⟨?_, fun op hop => ?_⟩
    · obtain ⟨hlt, rfl⟩ := List.getElem?_eq_some_iff.1 hx
      rw [hrest, hit, Option.map_some, List.drop_eq_getElem_cons hlt, List.take_succ_cons]
    · rcases List.mem_append.1 hop with hop | hop
      · split at hop
        · rw [List.mem_singleton.1 hop, h.counter]
          exact ⟨_, rfl⟩
        · cases hop
      · exact hops op hop

/-- A reader with a wrong counter does not get past its first page. -/
theorem readInput_bad {v : NonCachedVector.Vector n α} {c c' : Nat} {data : List α}
    (hv : Stores v c data)
    (hc : c < 2 ^ 32) (hc' : c' < 2 ^ 32) (hne : c ≠ c') (cache : Page n α) {b e count : Nat}
    (hb : b < v.N) :
    (readInput v (count + 1) (Reader.new cache b e c')).2 = none := by
  obtain ⟨page, hhas, -⟩ := hv.pages (b / n) (by have := Nat.div_mul_le_self b n; omega)
  have hread : (Reader.new cache b e c').read v = none := by
    have hout : (Reader.new cache b e c').outOfPage = true := rfl
    rw [Reader.read, Reader.get, hout, if_pos rfl]
    show ((v.read (b / n) c').map _).map _ = none
    rw [hhas.read_ne hc hc' hne]
    rfl
  rw [readInput, hread]

/-! ## Counters -/

namespace PageOp

def isRead : PageOp → Bool
  | .read _ _ => true
  | .write _ _ => false

def counter : PageOp → Nat
  | .read _ c => c
  | .write _ c => c

end PageOp

/-- The pages that are read before the first write are read with `a`, and pages are written with
`a + 1`. -/
structure Honours (a : Nat) (ops : List PageOp) : Prop where
  reads : ∀ op ∈ ops.takeWhile PageOp.isRead, op.counter = a
  writes : ∀ op ∈ ops, op.isRead = false → op.counter = (a + 1) % 2 ^ 32

/-- A run honours the counter `a`, and no page of the vector fails to authenticate. -/
def HonoursRun (a : Nat) : Except (DistriAbort × List PageOp) (SorterVector n m α) → Prop
  | .error (abort, log) => abort ≠ .inputOutput ∧ Honours a log
  | .ok io => Honours a io.log

/-- Every page is read with 0 or written with 1. -/
def FirstPass (ops : List PageOp) : Prop :=
  ∀ op ∈ ops, (∃ p, op = .read p 0) ∨ ∃ p, op = .write p 1

theorem FirstPass.honours {ops : List PageOp} (h : FirstPass ops) : Honours 0 ops where
  reads op hop := by
    obtain ⟨p, rfl⟩ | ⟨p, rfl⟩ := h op ((List.takeWhile_sublist _).subset hop)
    · rfl
    · have := List.all_eq_true.1 List.all_takeWhile _ hop
      cases this
  writes op hop hw := by
    obtain ⟨p, rfl⟩ | ⟨p, rfl⟩ := h op hop
    · cases hw
    · rfl

theorem FirstPass.append {ops ops' : List PageOp} (h : FirstPass ops) (h' : FirstPass ops') :
    FirstPass (ops ++ ops') := fun op hop =>
  (List.mem_append.1 hop).elim (h op) (h' op)

section FirstPass

variable {σ : Type} {data : List α} {v : NonCachedVector.Vector n α}

/-- The reader is within its range and has read with 0. -/
structure ReadingInput (v : NonCachedVector.Vector n α) (data : List α) (endPtr : Nat)
    (s : State α σ (SorterVector n m α)) : Prop where
  vec : s.io.vec = v
  reader : ∃ r, s.io.inputReader = .prefetch r ∧ Reading data 0 r ∧ r.endPtr = endPtr
  counter : s.io.outputWriter.counter = 1
  log : FirstPass s.io.log

/-- The writer writes with 1. -/
structure WritingOutput (s : State α σ (SorterVector n m α)) : Prop where
  counter : s.io.outputWriter.counter = 1
  log : FirstPass s.io.log

omit [NeZero n] [NeZero m] in
theorem sorterVector_read [NeZero n] [NeZero m] {onDisk : Bool} {io : SorterVector n m α}
    {x : α × Nat} {r : InputReader n m α} (h : io.inputReader.read onDisk io.vec = some (x, r)) :
    (sorterVector onDisk).read io = .ok (x, { io with
      inputReader := r
      log := io.log ++ io.inputReader.fetches onDisk }) := by
  simp only [sorterVector, h]

theorem readingInput_keeps (S : KWayDistriSorter α) (onDisk : Bool) (hv : Stores v 0 data)
    {endPtr : Nat} (hend : endPtr ≤ v.N) :
    ReadKeeps (σ := σ) S (sorterVector (m := m) onDisk) (ReadingInput v data endPtr)
      fun e => e.1 ≠ .inputOutput ∧ FirstPass e.2.io.log where
  frame s s' hs hsame := ⟨hsame.io ▸ hs.vec, hsame.io ▸ hs.reader, hsame.io ▸ hs.counter,
    hsame.io ▸ hs.log⟩
  read it s hs heof := by
    obtain ⟨r, hr, hreading, hptr⟩ := hs.reader
    have hlt : r.it < v.N := by
      have heof' : decide (r.endPtr ≤ r.it) = false := by
        rw [← heof]
        show _ = s.io.inputReader.eof
        rw [hr]
        rfl
      rw [decide_eq_false_iff_not, hptr] at heof'
      omega
    obtain ⟨x, r', hread, -, -, hptr', hreading'⟩ := hreading.read hv hlt
    have hfetch : FirstPass (s.io.inputReader.fetches onDisk) := by
      intro op hop
      rw [hr, InputReader.fetches] at hop
      split at hop
      · rw [List.mem_singleton.1 hop, hreading.counter]
        exact .inl ⟨_, rfl⟩
      · cases hop
    have hio : s.io.inputReader.read onDisk s.io.vec = some ((x, 0), .prefetch r') := by
      rw [hr, hs.vec, InputReader.read, hread]
      rfl
    rw [readBlock, sorterVector_read hio]
    exact ⟨hs.vec, ⟨r', rfl, hreading', hptr'.trans hptr⟩, hs.counter, hs.log.append hfetch⟩
  abort a s ha hs := ⟨ha, hs.log⟩

theorem writingOutput_keeps (onDisk : Bool) :
    WriteKeeps (σ := σ) (sorterVector (n := n) (m := m) (α := α) onDisk) WritingOutput
      fun e => e.1 ≠ .inputOutput ∧ FirstPass e.2.io.log where
  frame s s' hs hsame := ⟨hsame.io ▸ hs.counter, hsame.io ▸ hs.log⟩
  write x s hs := by
    refine ⟨?_, hs.log.append fun op hop => ?_⟩
    · show (s.io.outputWriter.write x s.io.vec).1.counter = 1
      rw [Writer.write]
      split <;> exact hs.counter
    · rw [writes] at hop
      split at hop
      · rw [List.mem_singleton.1 hop, hs.counter]
        exact .inr ⟨_, rfl⟩
      · cases hop
  flush s hs := by
    have hops : FirstPass (flushes s.io.outputWriter s.io.vec.N) := by
      intro op hop
      rw [flushes] at hop
      split at hop
      · rw [if_neg (by rw [hs.counter]; exact fun h => absurd h.2 (by decide)), List.nil_append,
          List.mem_singleton] at hop
        rw [hop, hs.counter]
        exact .inr ⟨_, rfl⟩
      · cases hop
    obtain ⟨vec, hvec⟩ : ∃ vec, s.io.outputWriter.flush s.io.originalPage s.io.vec = some vec := by
      rw [Writer.flush]
      split
      · rw [if_neg (by rw [hs.counter]; exact fun h => absurd h.2 (by decide))]
        exact ⟨_, rfl⟩
      · exact ⟨_, rfl⟩
    have hio : (sorterVector onDisk).flush s.io = .ok { s.io with
        vec
        log := s.io.log ++ flushes s.io.outputWriter s.io.vec.N } := by
      simp only [sorterVector, hvec]
    rw [KWayDistriSorter.flush, hio]
    exact ⟨hs.counter, hs.log.append hops⟩
  abort a s ha hs := ⟨ha, hs.log⟩

end FirstPass

/-- The parameters of the smallest sort. -/
def smallSurroundings (x : α) : Surroundings n m m' α where
  onDisk := false
  distriParams := ⟨[], 1, 1, 1⟩
  sampleParams := ⟨1, 0, 0⟩
  dummy := ⟨x, 0, true, false⟩
  gammaSort := some
  tagOrder := ⟨id, ⟨id, id⟩⟩
  uninit := ⟨fun _ => 0, fun _ => ⟨0, 0⟩, ⟨0, 0⟩, ⟨0, 0⟩⟩
  cache := fun _ _ => x
  Mem := []
  inputCount := 0
  pageRand64 := fun _ => 0
  sampleRand64 := fun _ => 0

variable [SortKey α]

/-- One partition needs no pivots. -/
theorem sampleForPivots_one (P : SampleParams) (dummy : Block α) (Mem : List (Block α))
    (rand64 : Nat → BitVec 64) (input : List α) :
    sampleForPivots P dummy Mem some rand64 input 1 = some [] := by
  rw [sampleForPivots]
  dsimp only
  split <;> rfl

section Counters

variable {v : NonCachedVector.Vector n α} {data : List α} {a beginPtr endPtr : Nat}

/-- The samples of a vector with another counter than 0. -/
theorem construct_samples_bad (A : Surroundings n m m' α) (heapSize : Nat) (hv : Stores v a data)
    (ha : a < 2 ^ 32) (hne : a ≠ 0) (hlt : beginPtr < endPtr) (hend : endPtr ≤ v.N) :
    ∃ log, A.construct true v beginPtr endPtr a heapSize = .error (.inputOutput, log) := by
  obtain ⟨count, hcount⟩ : ∃ count, endPtr - beginPtr = count + 1 :=
    ⟨endPtr - beginPtr - 1, by omega⟩
  have hbad : (readInput v (endPtr - beginPtr) (Reader.new (A.cache 0) beginPtr endPtr 0)).2 =
    none := by
    rw [hcount]
    exact readInput_bad hv ha (by decide) hne (A.cache 0) (by omega)
  obtain ⟨log, hread⟩ : ∃ log,
      readInput v (endPtr - beginPtr) (Reader.new (A.cache 0) beginPtr endPtr 0) = (log, none) :=
    ⟨_, Prod.ext rfl hbad⟩
  refine ⟨log, ?_⟩
  rw [Surroundings.construct, Surroundings.inputReader, if_pos rfl]
  dsimp only
  rw [hread]

omit [NeZero m] [NeZero m'] [SortKey α] in
/-- The samples of a vector with the counter 0. -/
theorem readInput_samples (A : Surroundings n m m' α) (hv : Stores v 0 data)
    (hlt : beginPtr < endPtr) (hend : endPtr ≤ v.N) :
    ∃ log input,
      readInput v (endPtr - beginPtr) (Reader.new (A.cache 0) beginPtr endPtr 0) =
        (log, some input) ∧
      input = (data.drop beginPtr).take (endPtr - beginPtr) ∧ FirstPass log := by
  have hle : (Reader.new (A.cache 0) beginPtr endPtr 0).it + (endPtr - beginPtr) ≤ v.N := by
    show beginPtr + _ ≤ _
    omega
  obtain ⟨hread, hops⟩ := Reading.readInput (reading_new (A.cache 0) beginPtr endPtr) hv hle
  exact ⟨_, _, Prod.ext rfl hread, rfl, fun op hop => .inl (hops op hop)⟩

/-- A range that begins within a page: `init` of the writer reads this page. -/
theorem construct_writer_bad (x : α) (heapSize : Nat) (hv : Stores v 0 data)
    (hlt : beginPtr < endPtr) (hend : endPtr ≤ v.N) (hoff : beginPtr % n ≠ 0) :
    ∃ log, (smallSurroundings x : Surroundings n m m' α).construct true v beginPtr
      endPtr 0 heapSize = .error (.inputOutput, log) := by
  obtain ⟨log, input, hread, -, -⟩ :=
    readInput_samples (smallSurroundings x : Surroundings n m m' α) hv hlt hend
  obtain ⟨page, hhas, -⟩ := hv.pages (beginPtr / n)
    (by have := Nat.div_mul_le_self beginPtr n; omega)
  have hne : beginPtr ≠ 0 := fun h => hoff (by rw [h, Nat.zero_mod])
  have hinit : Writer.init ((smallSurroundings x : Surroundings n m m' α).cache 0) beginPtr endPtr
      ((0 + 1) % 2 ^ 32) v = none := by
    rw [Writer.init, if_pos ⟨hoff, hne⟩, hhas.read_ne (by decide) (by decide) (by decide)]
    rfl
  have hpivots := sampleForPivots_one (smallSurroundings x : Surroundings n m m' α).sampleParams
    ⟨x, 0, true, false⟩ [] (fun _ => 0) input
  refine ⟨log ++ initOps n beginPtr ((0 + 1) % 2 ^ 32), ?_⟩
  rw [Surroundings.construct, Surroundings.inputReader, if_pos rfl]
  dsimp only
  rw [hread]
  dsimp only [smallSurroundings] at hpivots hinit ⊢
  rw [hpivots]
  dsimp only
  rw [hinit]

/-- The constructor, for a range that begins at a page of a vector with the counter 0. -/
theorem construct_honours (A : Surroundings n m m' α) (heapSize : Nat) (hv : Stores v 0 data)
    (hlt : beginPtr < endPtr) (hend : endPtr ≤ v.N) (hoff : beginPtr % n = 0) :
    (∃ log, A.construct true v beginPtr endPtr 0 heapSize = .error (.pivot, log) ∧ FirstPass log) ∨
    ∃ S io, A.construct true v beginPtr endPtr 0 heapSize = .ok (S, io) ∧ io.vec = v ∧
      io.inputReader = .prefetch (Reader.new (A.cache 0) beginPtr endPtr 0) ∧
      io.outputWriter.counter = 1 ∧ FirstPass io.log := by
  obtain ⟨log, input, hread, -, hlog⟩ := readInput_samples A hv hlt hend
  have hinit : Writer.init (A.cache 0) beginPtr endPtr ((0 + 1) % 2 ^ 32) v =
      some ⟨A.cache 0, beginPtr, endPtr, beginPtr % n, 1⟩ := by
    rw [Writer.init, if_neg fun h => h.1 hoff]
    rfl
  have hops : initOps n beginPtr ((0 + 1) % 2 ^ 32) = [] := by
    rw [initOps, if_neg fun h => h.1 hoff]
  rw [Surroundings.construct, Surroundings.inputReader, if_pos rfl]
  dsimp only
  rw [hread]
  dsimp only
  cases sampleForPivots A.sampleParams A.dummy A.Mem A.gammaSort A.sampleRand64 input
    A.distriParams.totalPartition with
  | none => exact .inl ⟨log, rfl, hlog⟩
  | some allPivots =>
    dsimp only
    rw [hinit, hops, List.append_nil]
    exact .inr ⟨_, _, rfl, rfl, rfl, rfl, hlog⟩

/-- **A distribution sort honours the counter of its input** exactly when this counter is 0 and the
range begins at a page. The samples are read with 0, and the writer reads the page it begins within
with the counter it writes with. -/
theorem externalSort_honours_iff {σ : Type} (V : EM.DynamicPageVector.Vector σ (List (Block α)))
    (batchUninit : Nat → Nat → List (Block α)) (vec : σ) (heapSize : Nat) (hv : Stores v a data)
    (ha : a < 2 ^ 32) (hlt : beginPtr < endPtr) (hend : endPtr ≤ v.N) :
    (∀ A : Surroundings n m m' α,
      HonoursRun a (A.externalSort V batchUninit vec true v beginPtr endPtr a heapSize)) ↔
    a = 0 ∧ beginPtr % n = 0 := by
  constructor
  · intro h
    obtain ⟨x, -⟩ : ∃ x, data[beginPtr]? = some x :=
      ⟨_, List.getElem?_eq_getElem (by rw [hv.size]; omega)⟩
    have hA := h (smallSurroundings x)
    rw [Surroundings.externalSort] at hA
    by_contra hcond
    obtain ⟨log, hbad⟩ : ∃ log, (smallSurroundings x : Surroundings n m m' α).construct
      true v beginPtr
        endPtr a heapSize = .error (.inputOutput, log) := by
      by_cases h0 : a = 0
      · subst h0
        exact construct_writer_bad x heapSize hv hlt hend fun hoff => hcond ⟨rfl, hoff⟩
      · exact construct_samples_bad _ heapSize hv ha h0 hlt hend
    rw [hbad] at hA
    exact hA.1 rfl
  · rintro ⟨rfl, hoff⟩ A
    rw [Surroundings.externalSort]
    obtain ⟨log, hA, hlog⟩ | ⟨S, io, hA, hvec, hreader, hcounter, hlog⟩ :=
      construct_honours A heapSize hv hlt hend hoff
    · rw [hA]
      exact ⟨by decide, hlog.honours⟩
    · rw [hA]
      have hstart : ReadingInput v data endPtr
          (State.start io A.inputCount vec : State α σ (SorterVector n m α)) :=
        ⟨hvec, ⟨_, hreader, reading_new _ _ _, rfl⟩, hcounter, hlog⟩
      have hrun := sort_keeps V batchUninit (readingInput_keeps S A.onDisk hv hend)
        (writingOutput_keeps A.onDisk) (fun s hs => ⟨hs.counter, hs.log⟩) hstart
      dsimp only
      cases hsort : S.sort (sorterVector A.onDisk) V batchUninit
        (State.start io A.inputCount vec) with
      | ok s =>
        rw [hsort] at hrun
        exact hrun.log.honours
      | error e =>
        rw [hsort] at hrun
        exact ⟨hrun.1, hrun.2.honours⟩

end Counters

/-! ### A vector with the counter 1 -/

instance : SortKey Nat where
  lt a b := decide (a < b)
  eq a b := a == b

/-- The intermediate vector as plain pages. -/
abbrev plainPages : EM.DynamicPageVector.Vector (Nat → List (Block Nat)) (List (Block Nat)) :=
  EM.DynamicPageVector.Vector.plain _

/-- The counter is 0 and the range begins at a page. -/
theorem externalSort_honours_three :
    (∀ A : Surroundings 2 4 4 Nat, HonoursRun 0
      (A.externalSort plainPages (fun _ _ => []) (fun _ => []) true
        (PagePermReader.threeElements 0) 0 3 0 0)) ↔ 0 = 0 ∧ 0 % 2 = 0 :=
  externalSort_honours_iff plainPages (fun _ _ => []) (fun _ => []) 0
    (PagePermReader.threeElements_stores 0) (by decide) (by decide) (by decide)

/-- A vector of `N` zeros whose pages were written with the counter `c`. -/
def zeroVector (n N c : Nat) : NonCachedVector.Vector n Nat where
  N := N
  lateInit := false
  cachePage := fun _ => 0
  server :=
    { nounce := ⟨0, 0⟩
      defaultVal := fun _ => 0
      modified := fun _ => false
      pages := fun p => some ⟨Nounce.forPage ⟨0, 0⟩ p c, fun _ => 0⟩
      encryptions := [] }

theorem zeroVector_stores (n N c : Nat) : Stores (zeroVector n N c) c (List.replicate N 0) where
  size := List.length_replicate
  pages p _ := by
    refine ⟨fun _ => 0, ⟨rfl, nofun⟩, fun o _ ho => ?_⟩
    have ho : o.val < N - p * n := ho
    rw [List.getElem?_replicate, if_pos (by omega)]

/-- All pages were written with 1, and the samples are read with 0: a million elements, for which
the heap is too small by half. -/
theorem externalSort_samples_bad :
    Stores (zeroVector 1024 (2 ^ 20) 1) 1 (List.replicate (2 ^ 20) 0) ∧
    ¬ ∀ A : Surroundings 1024 4 4 Nat, HonoursRun 1
      (A.externalSort plainPages (fun _ _ => []) (fun _ => []) true
        (zeroVector 1024 (2 ^ 20) 1) 0 (2 ^ 20) 1 (2 ^ 22)) := by
  have hv := zeroVector_stores 1024 (2 ^ 20) 1
  refine ⟨hv, fun h => ?_⟩
  have hA := h (smallSurroundings 0)
  obtain ⟨log, hbad⟩ := construct_samples_bad
    (smallSurroundings 0 : Surroundings 1024 4 4 Nat) (2 ^ 22)
    hv (by decide) (by decide) (show 0 < 2 ^ 20 by decide) (Nat.le_refl (2 ^ 20))
  rw [Surroundings.externalSort, hbad] at hA
  exact hA.1 rfl

end EM.Algorithm
