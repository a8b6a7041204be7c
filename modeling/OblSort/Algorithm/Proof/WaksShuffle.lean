import Mathlib.Algebra.BigOperators.Intervals
import Mathlib.Data.Nat.Log
import OblSort.Algorithm.Proof.OrShuffle
import OblSort.Algorithm.Proof.WaksOnOff
import OblSort.Algorithm.WaksShuffle

/-!
# Proofs for the Waksman shuffle

* A circuit for `n` positions has a shape (`Shaped`): the mock circuit has it and every circuit that
  `ControlBits` returns (`mockControlBits_shaped`, `controlBits_shaped`).
* `waksShuffleOnlineT_eq`: with a circuit of that shape the online phase ends, with a permutation of
its
  data, and comes to the switches `switches begin n`; `length_switches` counts them.
* `waksShuffleOnline_oblivious`: the online phase shows `n` and nothing else.
* `waksOnOffShuffle_eq_iff`: a shuffle ends in `ys` for the tapes that bring the numbers of the
positions
  to the order `ys` asks for. So every permutation has the same number of tapes,
  `waksOnOffShuffle_uniform`.
-/

namespace EM.Algorithm.WaksOnOff

open Nat (factorial)
open Trace Traced

variable {α : Type}

/-! ## The shape of a circuit -/

/-- A circuit for `n` positions. -/
def ControlCircuit.Shaped : ControlCircuit → (n : Nat) → Prop
  | .null, n => n = 1
  | .node inputs outputs top bot, n =>
    2 ≤ n ∧ inputs.length = divRoundUp n 2 - 1 ∧ outputs.length = n - divRoundUp n 2 ∧
      (2 < n → top.Shaped (divRoundUp n 2) ∧ bot.Shaped (n - divRoundUp n 2))

theorem mockControlBits_shaped {n : Nat} (hn : 1 ≤ n) : (mockControlBits n).Shaped n := by
  induction n using Nat.strongRecOn with
  | ind n ih =>
    unfold mockControlBits
    by_cases h2 : n < 2
    · rw [if_pos h2]
      show n = 1
      omega
    · have hb := half_bounds (show 2 ≤ n by omega)
      rw [if_neg h2]
      refine ⟨by omega, List.length_replicate, List.length_replicate, fun h => ?_⟩
      rw [dif_pos h, dif_pos h]
      exact ⟨ih _ (by omega) (by omega), ih _ (by omega) (by omega)⟩

theorem walkStep_length {R : Random} {call draw k : Nat} {F : ForwardLookUp}
    {rev : BitVec 64 → Nat × Nat} {w w' : Walk} (h : walkStep R call draw k F rev w = some w') :
    w'.bits.length = w.bits.length + 1 := by
  unfold walkStep at h
  obtain ⟨r, -, hr⟩ := Option.bind_eq_some_iff.1 h
  cases hr
  simp

theorem walkLoop_length {R : Random} {call draw k count : Nat} {F : ForwardLookUp}
    {rev : BitVec 64 → Nat × Nat} {w w' : Walk}
    (h : walkLoop R call draw k F rev count w = some w') :
    w'.bits.length = w.bits.length + count := by
  induction count generalizing w' with
  | zero =>
    cases h
    rfl
  | succ count ih =>
    unfold walkLoop at h
    obtain ⟨v, hv, hstep⟩ := Option.bind_eq_some_iff.1 h
    rw [walkStep_length hstep, ih hv]
    rfl

theorem inBits_length {R : Random} {drawn drawn' : Drawn} {P : List Nat} {d : Nat}
    {bits : List Bool}
    (h : inBits R drawn P d = some (bits, drawn')) : bits.length = divRoundUp P.length 2 - 1 := by
  rw [inBits] at h
  by_cases h2 : P.length ≤ 2
  · rw [if_pos h2] at h
    cases h
    exact List.length_replicate
  · rw [if_neg h2] at h
    obtain ⟨r, -, h⟩ := Option.bind_eq_some_iff.1 h
    obtain ⟨w, hw, h⟩ := Option.bind_eq_some_iff.1 h
    cases h
    rw [List.length_map, (bitonicSortList_perm _ _).length_eq, walkLoop_length hw]
    exact Nat.zero_add _

theorem switchLayer_perm {bits : List Bool} {k count : Nat} {xs ys : List α}
    (h : switchLayer bits k count xs = some ys) : ys.Perm xs := by
  induction count generalizing ys with
  | zero =>
    cases h
    exact .refl _
  | succ i ih =>
    unfold switchLayer at h
    obtain ⟨zs, hzs, h⟩ := Option.bind_eq_some_iff.1 h
    obtain ⟨b, -, h⟩ := Option.bind_eq_some_iff.1 h
    cases h
    exact (Net.condSwap_perm _ _ _ _).trans (ih hzs)

theorem outBits_length {k count : Nat} {P P' : List Nat} {bits : List Bool}
    (h : outBits k count P = some (bits, P')) : bits.length = count := by
  induction count generalizing bits P' with
  | zero =>
    cases h
    rfl
  | succ i ih =>
    unfold outBits at h
    obtain ⟨r, hr, h⟩ := Option.bind_eq_some_iff.1 h
    obtain ⟨x, -, h⟩ := Option.bind_eq_some_iff.1 h
    cases h
    rw [List.length_append, ih hr]
    rfl

/-- **The shape of the control bits.** -/
theorem controlBits_shaped {R : Random} {n d : Nat} {P P' : List Nat} {drawn drawn' : Drawn}
    {C : ControlCircuit} (hn : 1 ≤ n) (hlen : P.length = n)
    (h : controlBits R n P d drawn = some (C, P', drawn')) : C.Shaped n := by
  induction n using Nat.strongRecOn generalizing d P P' drawn drawn' C with
  | ind n ih =>
    unfold controlBits at h
    by_cases h2 : n < 2
    · rw [if_pos h2] at h
      cases h
      show n = 1
      omega
    · have hb := half_bounds (show 2 ≤ n by omega)
      rw [if_neg h2] at h
      obtain ⟨⟨inputs, drawn₁⟩, hin, h⟩ := Option.bind_eq_some_iff.1 h
      obtain ⟨Q, hQ, h⟩ := Option.bind_eq_some_iff.1 h
      obtain ⟨⟨top, bot, Q', drawn₂⟩, hmid, h⟩ := Option.bind_eq_some_iff.1 h
      obtain ⟨⟨outputs, P''⟩, hout, h⟩ := Option.bind_eq_some_iff.1 h
      cases h
      have hQlen : Q.length = n := by
        split at hQ
        · rw [(switchLayer_perm hQ).length_eq, hlen]
        · cases hQ
          exact hlen
      refine ⟨by omega, hlen ▸ inBits_length hin, outBits_length hout, fun hgt => ?_⟩
      rw [dif_pos hgt] at hmid
      obtain ⟨⟨top', left, drawn₃⟩, htop, hmid⟩ := Option.bind_eq_some_iff.1 hmid
      obtain ⟨⟨bot', right, drawn₄⟩, hbot, hmid⟩ := Option.bind_eq_some_iff.1 hmid
      cases hmid
      exact ⟨ih _ (by omega) (by omega) (by simp [hQlen]; omega) htop,
        ih _ (by omega) (by omega) (by simp [hQlen]) hbot⟩

/-! ## The recording phase -/

theorem value_switchLayerT (bits : List Bool) (begin n : Nat) (isOutput : Bool) (k count : Nat)
    (xs : List α) :
    (switchLayerT bits begin n isOutput k count xs).value = switchLayer bits k count xs := by
  induction count with
  | zero => rfl
  | succ i ih =>
    unfold switchLayerT switchLayer
    rw [value_bind, ih]
    congr 1
    funext ys
    cases bits[i]? with
    | none => rfl
    | some b => rfl

/-- A phase that records does what the phase does. -/
theorem value_waksShuffleOnlineT (C : ControlCircuit) (begin : Nat) (xs : List α) :
    (waksShuffleOnlineT C begin xs).value = waksShuffleOnline C xs := by
  induction C generalizing begin xs with
  | null =>
    unfold waksShuffleOnlineT waksShuffleOnline
    split <;> rfl
  | node inputs outputs top bot ihtop ihbot =>
    unfold waksShuffleOnlineT waksShuffleOnline
    simp only [value_bind, value_switchLayerT]
    congr 1
    funext ys
    congr 1
    split
    · simp only [value_bind, ihtop, ihbot]
      rfl
    · rfl

theorem layer_succ (begin n : Nat) (isOutput : Bool) (k i : Nat) :
    layer begin n isOutput k (i + 1) =
      layer begin n isOutput k i ++ [⟨begin, n, isOutput, i, begin + i, begin + (k + i)⟩] := by
  simp [layer, List.range_succ]

theorem switchLayerT_eq {bits : List Bool} {count : Nat} (begin n : Nat) (isOutput : Bool) (k : Nat)
    (hcount : count ≤ bits.length) (xs : List α) :
    ∃ ys, ys.Perm xs ∧
      switchLayerT bits begin n isOutput k count xs =
        some (ys, layer begin n isOutput k count) := by
  induction count with
  | zero => exact ⟨xs, .refl _, rfl⟩
  | succ i ih =>
    obtain ⟨ys, hperm, hys⟩ := ih (by omega)
    refine ⟨Net.condSwap (fun _ _ => bits[i]) i (k + i) ys,
      (Net.condSwap_perm _ _ _ _).trans hperm, ?_⟩
    unfold switchLayerT
    rw [layer_succ]
    refine bind_of_eq hys ?_
    rw [List.getElem?_eq_getElem (by omega)]
    rfl

theorem switches_one (begin : Nat) : switches begin 1 = [] := by
  unfold switches
  rw [if_pos (by omega)]

/-- **The online phase with any circuit of the shape.** -/
theorem waksShuffleOnlineT_eq {C : ControlCircuit} {n : Nat} (hC : C.Shaped n) (begin : Nat)
    {xs : List α} (hlen : xs.length = n) :
    ∃ ys, ys.Perm xs ∧ waksShuffleOnlineT C begin xs = some (ys, switches begin n) := by
  induction C generalizing n begin xs with
  | null =>
    have hn : n = 1 := hC
    subst hn
    refine ⟨xs, .refl _, ?_⟩
    unfold waksShuffleOnlineT
    rw [if_pos hlen, switches_one]
    rfl
  | node inputs outputs top bot ihtop ihbot =>
    obtain ⟨hn, hin, hout, hsub⟩ := hC
    have hb := half_bounds hn
    subst hlen
    generalize hk : divRoundUp xs.length 2 = k at *
    obtain ⟨ys, hys, hrun⟩ := switchLayerT_eq begin xs.length false k hin.ge xs
    have hylen := hys.length_eq
    have hmid : ∃ zs, zs.Perm ys ∧ (if xs.length > 2 then do
          let left ← waksShuffleOnlineT top begin (ys.take k)
          let right ← waksShuffleOnlineT bot (begin + k) (ys.drop k)
          pure (left ++ right)
        else pure ys : Traced Switch (List α)) =
          some (zs, switches begin k ++ switches (begin + k) (xs.length - k)) := by
      by_cases h2 : xs.length > 2
      · obtain ⟨htop, hbot⟩ := hsub h2
        have hl : (ys.take k).length = k := by rw [List.length_take]; omega
        have hr : (ys.drop k).length = xs.length - k := by rw [List.length_drop]; omega
        obtain ⟨left, hleft, hltop⟩ := ihtop htop begin hl
        obtain ⟨right, hright, hrbot⟩ := ihbot hbot (begin + k) hr
        refine ⟨left ++ right, ?_, ?_⟩
        · exact (hleft.append hright).trans (.of_eq (List.take_append_drop k ys))
        · rw [if_pos h2]
          apply bind_of_eq hltop
          have hpure : (pure (left ++ right) : Traced Switch (List α)) =
            some (left ++ right, []) := rfl
          rw [bind_of_eq hrbot hpure, List.append_nil]
      · -- two positions have no networks of half the size
        obtain ⟨hlen, hk1⟩ : xs.length = 2 ∧ k = 1 := by omega
        refine ⟨ys, .refl _, ?_⟩
        rw [if_neg h2, hlen, hk1, switches_one, switches_one]
        rfl
    obtain ⟨zs, hzs, hzrun⟩ := hmid
    obtain ⟨ws, hws, hwrun⟩ := switchLayerT_eq begin xs.length true k hout.ge zs
    refine ⟨ws, hws.trans (hzs.trans hys), ?_⟩
    subst hk
    unfold waksShuffleOnlineT switches
    rw [if_neg (by omega), List.append_assoc]
    exact bind_of_eq hrun (bind_of_eq hzrun hwrun)

/-! ## How many switches there are -/

/-- The numbers of comparisons of the halves, as of a merge sort. -/
theorem sum_clog_half {n : Nat} (hn : 1 ≤ n) :
    ∑ i ∈ Finset.range n, Nat.clog 2 (i + 1) =
      n - 1 + (∑ i ∈ Finset.range (divRoundUp n 2), Nat.clog 2 (i + 1) +
        ∑ i ∈ Finset.range (n - divRoundUp n 2), Nat.clog 2 (i + 1)) := by
  induction n, hn using Nat.le_induction with
  | base => rfl
  | succ n hn ih =>
    have hclog : Nat.clog 2 (n + 1) = Nat.clog 2 ((n + 1 + 1) / 2) + 1 :=
      Nat.clog_of_two_le (by omega) (by omega)
    rw [Finset.sum_range_succ, ih, hclog]
    rcases Nat.even_or_odd' n with ⟨m, rfl | rfl⟩
    · rw [show divRoundUp (2 * m) 2 = m by unfold divRoundUp; omega,
        show divRoundUp (2 * m + 1) 2 = m + 1 by unfold divRoundUp; omega,
        show 2 * m - m = m by omega, show 2 * m + 1 - (m + 1) = m by omega,
        show (2 * m + 1 + 1) / 2 = m + 1 by omega, Finset.sum_range_succ _ m]
      omega
    · rw [show divRoundUp (2 * m + 1) 2 = m + 1 by unfold divRoundUp; omega,
        show divRoundUp (2 * m + 1 + 1) 2 = m + 1 by unfold divRoundUp; omega,
        show 2 * m + 1 - (m + 1) = m by omega, show 2 * m + 1 + 1 - (m + 1) = m + 1 by omega,
        show (2 * m + 1 + 1 + 1) / 2 = m + 1 by omega, Finset.sum_range_succ _ m]
      omega

theorem length_switches (begin n : Nat) :
    (switches begin n).length = ∑ i ∈ Finset.range n, Nat.clog 2 (i + 1) := by
  induction n using Nat.strongRecOn generalizing begin with
  | ind n ih =>
    unfold switches
    by_cases h2 : n < 2
    · rw [if_pos h2]
      cases n with
      | zero => rfl
      | succ n =>
        cases n with
        | zero => rfl
        | succ n => omega
    · have hb := half_bounds (show 2 ≤ n by omega)
      rw [if_neg h2, sum_clog_half (by omega)]
      simp only [List.length_append, layer, List.length_map, List.length_range,
        ih _ (show divRoundUp n 2 < n by omega), ih _ (show n - divRoundUp n 2 < n by omega)]
      omega

/-- **The online phase is oblivious**: with the circuit of any permutation, or with the mock
circuit, it permutes its data and comes to the same `⌈log₂ 1⌉ + … + ⌈log₂ n⌉` switches. -/
theorem waksShuffleOnline_oblivious {n : Nat} (hn : 1 ≤ n) :
    (mockControlBits n).Shaped n ∧
      (∀ (R : Random) (P : List Nat), P.length = n → ∀ C, waksShuffleOfflinePerm R P = some C →
        C.Shaped n) ∧
      (∀ (C : ControlCircuit) (begin : Nat) (xs : List α),
        (waksShuffleOnlineT C begin xs).value = waksShuffleOnline C xs) ∧
      (∀ (C : ControlCircuit) (begin : Nat) (xs : List α), C.Shaped n → xs.length = n →
        ∃ ys, ys.Perm xs ∧ waksShuffleOnlineT C begin xs = some (ys, switches begin n)) ∧
      ∀ begin, (switches begin n).length = ∑ i ∈ Finset.range n, Nat.clog 2 (i + 1) := by
  refine ⟨mockControlBits_shaped hn, fun R P hlen C hC => ?_, value_waksShuffleOnlineT,
    fun C begin xs hC hlen => waksShuffleOnlineT_eq hC begin hlen, fun begin =>
      length_switches begin n⟩
  unfold waksShuffleOfflinePerm at hC
  obtain ⟨⟨C', P', drawn⟩, hrun, heq⟩ := Option.map_eq_some_iff.1 hC
  cases heq
  subst hlen
  exact controlBits_shaped hn rfl hrun

/-- Five elements and the mock circuit. -/
theorem waksShuffleOnline_oblivious_five : (mockControlBits 5).Shaped 5 ∧
    (switches 0 5).length = 8 ∧
    ∃ ys, ys.Perm [10, 11, 12, 13, 14] ∧
      waksShuffleOnlineT (mockControlBits 5) 0 [10, 11, 12, 13, 14] = some (ys, switches 0 5) := by
  obtain ⟨hmock, -, -, hrun, hlen⟩ := waksShuffleOnline_oblivious (n := 5) (α := Nat) (by decide)
  exact ⟨hmock, (hlen 0).trans (by decide), hrun _ 0 _ hmock rfl⟩

/-! ## The distribution of the result -/

section Uniform

variable {R : Random} {n : Nat} (hn : 1 ≤ n) (hn31 : n < 2 ^ 31) (hR : R.Ideal (2 * divRoundUp n 2))

include hn hn31 hR

/-- A shuffle brings the element at `i` to the number that the tape leaves at `i`. -/
theorem waksOnOffShuffle_spec (t : Tape n) {xs : List α} (hlen : xs.length = n) :
    ∃ ys, waksOnOffShuffle R t xs = some ys ∧ ys.Perm xs ∧
      ∀ i x : Nat, (orShuffle t (List.range n))[i]? = some x → ys[x]? = xs[i]? := by
  have hP : (orShuffle t (List.range n)).Perm (List.range n) :=
    orShuffle_perm (by omega) t List.length_range
  have hPlen : (orShuffle t (List.range n)).length = n := hP.length_eq.trans List.length_range
  obtain ⟨C, P', drawn, hrun, -, hC⟩ := controlBits_spec R n 0 _ ⟨0, 0⟩ hn (encodes_perm hP)
    (by rw [Nat.pow_zero]; omega) hR
  obtain ⟨ys, hys, hroutes⟩ := hC α xs hlen
  have hoff : waksShuffleOffline R t = some C := by
    unfold waksShuffleOffline waksShuffleOfflinePerm
    rw [hPlen, hrun]
    rfl
  obtain ⟨zs, hperm, hzs⟩ := waksShuffleOnlineT_eq (controlBits_shaped hn hPlen hrun) 0 hlen
  have hvalue : waksShuffleOnline C xs = some zs := by rw [← value_waksShuffleOnlineT C 0, hzs]; rfl
  obtain rfl : ys = zs := Option.some.inj (hys.symm.trans hvalue)
  refine ⟨ys, by rw [waksOnOffShuffle, hoff, Option.bind_some, hys], hperm, fun i x hx => ?_⟩
  have hmoved := hroutes.moved i (hPlen ▸ (List.getElem?_eq_some_iff.1 hx).1)
  rwa [valueOf_eq hx, Nat.shiftRight_zero] at hmoved

/-- The tapes for one result. -/
theorem waksOnOffShuffle_eq_iff [DecidableEq α] (t : Tape n) {xs ys : List α} (hlen : xs.length = n)
    (hnodup : xs.Nodup) (hperm : ys.Perm xs) :
    waksOnOffShuffle R t xs = some ys ↔ orShuffle t (List.range n) = xs.map ys.idxOf := by
  obtain ⟨zs, hzs, hzperm, hmoved⟩ := waksOnOffShuffle_spec hn hn31 hR t hlen
  have hP : (orShuffle t (List.range n)).Perm (List.range n) :=
    orShuffle_perm (by omega) t List.length_range
  have hPlen := hP.length_eq.trans List.length_range
  have hyn : ys.Nodup := hperm.nodup_iff.2 hnodup
  rw [hzs]
  constructor
  · intro h
    cases h
    refine List.ext_getElem (by rw [hPlen, List.length_map, hlen]) fun i hi hi' => ?_
    have hix := hmoved i _ (List.getElem?_eq_getElem hi)
    rw [List.length_map] at hi'
    rw [List.getElem?_eq_getElem hi'] at hix
    obtain ⟨hx, hget⟩ := List.getElem?_eq_some_iff.1 hix
    rw [List.getElem_map, ← hget, hyn.idxOf_getElem]
  · intro h
    refine congrArg some (List.ext_getElem? fun x => ?_)
    by_cases hx : x < n
    · obtain ⟨i, hi⟩ := List.getElem?_of_mem (hP.mem_iff.2 (List.mem_range.2 hx))
      have hilt := (List.getElem?_eq_some_iff.1 hi).1
      have hix : i < xs.length := by omega
      rw [hmoved i x hi]
      rw [h, List.getElem?_map, List.getElem?_eq_getElem hix, Option.map_some,
        Option.some.injEq] at hi
      have hmem : xs[i] ∈ ys := hperm.mem_iff.2 (List.getElem_mem hix)
      rw [← hi, List.getElem?_eq_getElem (List.idxOf_lt_length_of_mem hmem), List.getElem_idxOf,
        List.getElem?_eq_getElem hix]
    · rw [List.getElem?_eq_none (by rw [hzperm.length_eq]; omega),
        List.getElem?_eq_none (by rw [hperm.length_eq]; omega)]

/-- **The Waksman shuffle is uniform**: whatever the PRPs and the draws of the offline phase are,
every run ends with a permutation, and every permutation comes from the same number of tapes. -/
theorem waksOnOffShuffle_uniform :
    ∃ c, 0 < c ∧ Nat.card (Tape n) = factorial n * c ∧ ∀ xs : List α, xs.length = n →
      (∀ t : Tape n, ∃ ys, waksOnOffShuffle R t xs = some ys ∧ ys.Perm xs) ∧
      (xs.Nodup → ∀ ys : List α, ys.Perm xs →
        Nat.card {t : Tape n // waksOnOffShuffle R t xs = some ys} = c) := by
  classical
  obtain ⟨c, hc, hcard, hfiber⟩ := card_orShuffle (α := Nat) (n := n) (by omega)
  refine ⟨c, hc, hcard, fun xs hlen => ⟨fun t => ?_, fun hnodup ys hperm => ?_⟩⟩
  · obtain ⟨ys, hys, hperm, -⟩ := waksOnOffShuffle_spec hn hn31 hR t hlen
    exact ⟨ys, hys, hperm⟩
  · have hyn : ys.Nodup := hperm.nodup_iff.2 hnodup
    have hylen : ys.length = n := hperm.length_eq.trans hlen
    have hidx : ys.map ys.idxOf = List.range n := by
      refine List.ext_getElem (by simp [hylen]) fun i hi hi' => ?_
      rw [List.getElem_map, hyn.idxOf_getElem, List.getElem_range]
    have htarget : (xs.map ys.idxOf).Perm (List.range n) := hidx ▸ hperm.symm.map ys.idxOf
    rw [← hfiber (List.range n) (xs.map ys.idxOf) List.nodup_range List.length_range htarget]
    exact Nat.card_congr (Equiv.subtypeEquivRight fun t =>
      waksOnOffShuffle_eq_iff hn hn31 hR t hlen hnodup hperm)

end Uniform

/-- Three elements, with PRPs that multiply by an odd number and draws of the last one. -/
theorem waksOnOffShuffle_uniform_three :
    ∃ c, 0 < c ∧ Nat.card (Tape 3) = factorial 3 * c ∧ ∀ xs : List Nat, xs.length = 3 →
      (∀ t : Tape 3, ∃ ys, waksOnOffShuffle ⟨fun _ x => BitVec.ofNat 64 (5 * x),
        fun _ x => BitVec.ofNat 64 (3 * x), fun _ u => u - 1⟩ t xs = some ys ∧ ys.Perm xs) ∧
      (xs.Nodup → ∀ ys : List Nat, ys.Perm xs →
        Nat.card {t : Tape 3 // waksOnOffShuffle ⟨fun _ x => BitVec.ofNat 64 (5 * x),
          fun _ x => BitVec.ofNat 64 (3 * x), fun _ u => u - 1⟩ t xs = some ys} = c) :=
  waksOnOffShuffle_uniform (by decide) (by decide)
    ⟨fun _ =>
      show ∀ x < 4, ∀ y < 4, BitVec.ofNat 64 (5 * x) = BitVec.ofNat 64 (5 * y) → x = y by decide,
      fun _ => show ∀ x < 4, ∀ y < 4, BitVec.ofNat 64 (3 * x) = BitVec.ofNat 64 (3 * y) →
      x = y by decide, fun _ u hu => Nat.sub_lt hu Nat.one_pos⟩

end EM.Algorithm.WaksOnOff
