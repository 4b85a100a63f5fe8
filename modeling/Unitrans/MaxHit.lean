/-
The sum of the most frequent targets is right for a branch with one target that
was ever hit. `find_static_max_hit` gives `heapify` the size of the array for the
number of its last element, so a second target makes it read past the end.
-/
import Unitrans.IndProf
import Unitrans.Library.Ensures
import Mathlib.Algebra.BigOperators.Group.List.Basic
import Mathlib.Algebra.Order.BigOperators.Group.List

namespace Unitrans

/-! ## The largest of a list -/

/-- The sum of the `k` largest. -/
def topSum (k : Nat) (l : List Nat) : Nat := ((l.mergeSort fun a b => b ≤ a).take k).sum

theorem sum_take_of_sorted : ∀ (l : List Nat) (k : Nat), l.Pairwise (fun a b => b ≤ a) →
    (l.filter (· ≠ 0)).length ≤ k → (l.take k).sum = l.sum
  | [], k, _, _ => by rw [List.take_nil]
  | a :: l, k, hs, hk => by
    rw [List.pairwise_cons] at hs
    by_cases ha : a = 0
    · have hzero : ∀ b ∈ a :: l, b = 0 := fun b hb => by
        rcases List.mem_cons.mp hb with rfl | hb
        · exact ha
        · exact Nat.le_zero.mp (ha ▸ hs.1 b hb)
      rw [List.sum_eq_zero hzero, List.sum_eq_zero fun b hb => hzero b (List.mem_of_mem_take hb)]
    · rw [List.filter_cons_of_pos (by simpa using ha), List.length_cons] at hk
      obtain ⟨k, rfl⟩ : ∃ m, k = m + 1 := ⟨k - 1, by omega⟩
      rw [List.take_succ_cons, List.sum_cons, List.sum_cons, sum_take_of_sorted l k hs.2 (by omega)]

/-- With no more than `k` numbers that are not 0, the largest are all of them. -/
theorem topSum_eq_sum {k : Nat} {l : List Nat} (h : (l.filter (· ≠ 0)).length ≤ k) : topSum k l = l.sum := by
  have hperm := List.mergeSort_perm l fun a b => decide (b ≤ a)
  have hsorted : (l.mergeSort fun a b => b ≤ a).Pairwise fun a b => decide (b ≤ a) = true := List.pairwise_mergeSort
    (fun a b c h h' => by simp only [decide_eq_true_eq] at h h' ⊢; omega)
    (fun a b => by simp only [Bool.or_eq_true, decide_eq_true_eq]; omega) l
  rw [topSum, sum_take_of_sorted _ k (hsorted.imp of_decide_eq_true) (by rwa [(hperm.filter _).length_eq]), hperm.sum_eq]

/-! ## The heap -/

variable {node : StatNode}

def hits (node : StatNode) (n : Nat) : List Nat := (List.range n).map fun i => (node.tgtAddrHit i).toNat

theorem hits_succ (node : StatNode) (n : Nat) : hits node (n + 1) = hits node n ++ [(node.tgtAddrHit n).toNat] := by
  rw [hits, List.range_succ, List.map_append]
  rfl

/-- No two of the first `n` targets were hit. -/
def OneHit (node : StatNode) (n : Nat) : Prop :=
  ∀ i < n, ∀ j < n, node.tgtAddrHit i ≠ 0 → node.tgtAddrHit j ≠ 0 → i = j

theorem sum_hits_of_zero {n : Nat} (h : ∀ i < n, node.tgtAddrHit i = 0) : (hits node n).sum = 0 := by
  refine List.sum_eq_zero fun x hx => ?_
  obtain ⟨i, hi, rfl⟩ := List.mem_map.mp hx
  rw [h i (List.mem_range.mp hi)]
  rfl

theorem OneHit.filter_le {n : Nat} (h : OneHit node n) : ((hits node n).filter (· ≠ 0)).length ≤ 1 := by
  induction n with
  | zero => exact Nat.zero_le _
  | succ n ih =>
    have ih := ih fun i hi j hj => h i (by omega) j (by omega)
    rw [hits_succ, List.filter_append, List.length_append]
    by_cases hn : node.tgtAddrHit n = 0
    · rw [hn]
      simpa using ih
    · have hzero : (hits node n).filter (· ≠ 0) = [] := by
        rw [List.filter_eq_nil_iff]
        intro x hx hne
        obtain ⟨i, hi, rfl⟩ := List.mem_map.mp hx
        have hi := List.mem_range.mp hi
        have := h i (by omega) n (by omega) (fun hz => by simp [hz] at hne) hn
        omega
      rw [hzero, List.length_nil, Nat.zero_add]
      exact List.length_filter_le _ _

/-- The heap that holds one number. -/
def single (h : BitVec 64) : Elems (IND_SLOT_MAX + 1) (BitVec 64) := fun i => if i = 3 then h else 0

theorem countHit_zero {heap : Elems (IND_SLOT_MAX + 1) (BitVec 64)} {i : Nat} (hi : i < STAT_TGT_MAX)
    (h : node.tgtAddrHit i = 0) : countHit node heap i = .ok heap := by
  rw [countHit, Elems.load, if_pos hi, Except.ok_bind, Elems.load, if_pos (by decide), Except.ok_bind, h]
  exact if_neg (by simp)

/-- A number takes the place of the root. -/
theorem countHit_root {heap : Elems (IND_SLOT_MAX + 1) (BitVec 64)} {i : Nat} (hi : i < STAT_TGT_MAX) (hroot : heap 1 = 0)
    (h : node.tgtAddrHit i ≠ 0) :
    countHit node heap i = heapify (Function.update heap 1 (node.tgtAddrHit i)) (IND_SLOT_MAX + 1) := by
  have hpos : (0 : BitVec 64) < node.tgtAddrHit i := by bv_omega
  rw [countHit, Elems.load, if_pos hi, Except.ok_bind, Elems.load, if_pos (by decide), Except.ok_bind, hroot, if_pos hpos,
    Elems.store, if_pos (by decide), Except.ok_bind]

/-- The first number goes from the root to the last place. -/
theorem countHit_first {i : Nat} (hi : i < STAT_TGT_MAX) (h : node.tgtAddrHit i ≠ 0) :
    countHit node (single 0) i = .ok (single (node.tgtAddrHit i)) := by
  rw [countHit_root hi rfl h]
  generalize node.tgtAddrHit i = x
  have h₃ : single 0 3 = 0#64 := rfl
  have h₂ : single 0 2 = 0#64 := rfl
  simp only [heapify, heapifyFrom, IND_SLOT_MAX, Elems.load, Elems.store]
  simp only [BitVec.ofNat_eq_ofNat] at h₂ h₃ ⊢
  simp [h₂, h₃, pure, Except.pure]
  funext k
  simp only [single, Function.update_apply]
  split <;> simp_all

/-- A second one is compared with what lies behind the array. -/
theorem countHit_second {i : Nat} {x : BitVec 64} (hi : i < STAT_TGT_MAX) (hx : x ≠ 0#64) (h : node.tgtAddrHit i ≠ 0) :
    countHit node (single x) i = .error .outOfBounds := by
  rw [countHit_root hi rfl h]
  generalize node.tgtAddrHit i = y
  have h₃ : single x 3 = x := rfl
  have h₂ : single x 2 = 0 := rfl
  simp only [heapify, heapifyFrom, IND_SLOT_MAX, Elems.load, Elems.store]
  simp [h₂, h₃, hx, pure, Except.pure]

/-! ## The loop -/

theorem single_zero : single 0 = fun _ => 0 := by
  funext i
  exact ite_self 0

theorem hitLoop_succ (node : StatNode) (n : Nat) :
    (List.range (n + 1)).foldlM (countHit node) (single 0) =
      (List.range n).foldlM (countHit node) (single 0) >>= fun heap => countHit node heap n := by
  rw [List.range_succ, List.foldlM_append]
  simp

theorem OneHit.zero_before {n : Nat} (h : OneHit node (n + 1)) (hn : node.tgtAddrHit n ≠ 0) :
    ∀ i < n, node.tgtAddrHit i = 0 := by
  intro i hi
  by_contra hne
  have := h i (by omega) n (by omega) hne hn
  omega

/-- As long as no more than one target was hit, the heap holds its hits alone. -/
theorem OneHit.loop {n : Nat} (h : OneHit node n) (hn : n ≤ STAT_TGT_MAX) :
    (List.range n).foldlM (countHit node) (single 0) = .ok (single (BitVec.ofNat 64 (hits node n).sum)) := by
  induction n with
  | zero => rfl
  | succ n ih =>
    have ih := ih (fun i hi j hj => h i (by omega) j (by omega)) (by omega)
    rw [hitLoop_succ, ih, Except.ok_bind, hits_succ, List.sum_append, List.sum_singleton]
    by_cases hz : node.tgtAddrHit n = 0
    · rw [countHit_zero hn hz, hz]
      rfl
    · rw [sum_hits_of_zero (h.zero_before hz), Nat.zero_add, BitVec.ofNat_toNat, BitVec.setWidth_eq]
      exact countHit_first hn hz

theorem OneHit.sum_lt {n : Nat} (h : OneHit node n) : (hits node n).sum < 2 ^ 64 := by
  induction n with
  | zero => exact Nat.two_pow_pos 64
  | succ n ih =>
    rw [hits_succ, List.sum_append, List.sum_singleton]
    by_cases hz : node.tgtAddrHit n = 0
    · rw [hz]
      exact ih fun i hi j hj => h i (by omega) j (by omega)
    · rw [sum_hits_of_zero (h.zero_before hz), Nat.zero_add]
      exact (node.tgtAddrHit n).isLt

/-- A loop that ends has seen no more than one target that was hit. -/
theorem oneHit_of_loop : ∀ {n : Nat} {heap}, (List.range n).foldlM (countHit node) (single 0) = .ok heap →
    n ≤ STAT_TGT_MAX ∧ OneHit node n
  | 0, _, _ => ⟨Nat.zero_le _, fun i hi => absurd hi (Nat.not_lt_zero i)⟩
  | n + 1, heap, h => by
    rw [hitLoop_succ] at h
    cases hloop : (List.range n).foldlM (countHit node) (single 0) with
    | error e => rw [hloop] at h; exact nomatch h
    | ok heap₀ =>
      obtain ⟨hle, hone⟩ := oneHit_of_loop hloop
      rw [hloop, Except.ok_bind] at h
      have hn : n < STAT_TGT_MAX := by
        by_contra hge
        rw [countHit, Elems.load, if_neg hge] at h
        exact nomatch h
      refine ⟨hn, fun i hi j hj hhit hhit' => ?_⟩
      have hlast : ∀ i < n, node.tgtAddrHit i ≠ 0 → node.tgtAddrHit n = 0 := fun i hi hne => by
        by_contra hz
        have hsum : BitVec.ofNat 64 (hits node n).sum ≠ 0#64 := fun hsum => by
          have hmem : (node.tgtAddrHit i).toNat ∈ hits node n := List.mem_map.mpr ⟨i, List.mem_range.mpr hi, rfl⟩
          have hle' := List.le_sum_of_mem hmem
          have hlt := hone.sum_lt
          bv_omega
        rw [hone.loop hle, Except.ok.injEq] at hloop
        rw [← hloop, countHit_second hn hsum hz] at h
        exact nomatch h
      rcases Nat.lt_succ_iff_lt_or_eq.mp hi with hi | rfl <;> rcases Nat.lt_succ_iff_lt_or_eq.mp hj with hj | rfl
      · exact hone i hi j hj hhit hhit'
      · exact absurd (hlast i hi hhit) hhit'
      · exact absurd (hlast j hj hhit') hhit
      · rfl

/-- The function returns the sum of the hits of the `IND_SLOT_MAX` most frequent targets. -/
def MaxHitExact (node : StatNode) : Prop :=
  ∃ v, findStaticMaxHit node = .ok v ∧ v.toNat = topSum IND_SLOT_MAX (hits node node.tgtCount)

theorem OneHit.exact (h : OneHit node node.tgtCount) (hle : node.tgtCount ≤ STAT_TGT_MAX) : MaxHitExact node := by
  refine ⟨BitVec.ofNat 64 (hits node node.tgtCount).sum, ?_, ?_⟩
  · rw [findStaticMaxHit, ← single_zero, h.loop hle, Except.ok_bind]
    generalize BitVec.ofNat 64 (hits node node.tgtCount).sum = x
    simp [IND_SLOT_MAX, List.range_succ, Elems.load, single, pure, Except.pure]
  · rw [topSum_eq_sum (le_trans h.filter_le (by decide)), BitVec.toNat_ofNat, Nat.mod_eq_of_lt h.sum_lt]

theorem MaxHitExact.oneHit (h : MaxHitExact node) : node.tgtCount ≤ STAT_TGT_MAX ∧ OneHit node node.tgtCount := by
  obtain ⟨v, hv, -⟩ := h
  rw [findStaticMaxHit, ← single_zero] at hv
  cases hloop : (List.range node.tgtCount).foldlM (countHit node) (single 0) with
  | error e => rw [hloop] at hv; exact nomatch hv
  | ok heap => exact oneHit_of_loop hloop

/-- Two targets that were hit once. -/
theorem not_findStaticMaxHit_exact : ¬ ∀ node : StatNode, node.tgtCount ≤ STAT_TGT_MAX → MaxHitExact node := by
  intro h
  have hone := (h { tgtAddrHit := fun _ => 1, tgtCount := 2 } (by decide)).oneHit.2
  exact absurd (hone 0 (by decide) 1 (by decide) (by decide) (by decide)) (by decide)

/-- The result is right if and only if no more than one target was hit. -/
theorem findStaticMaxHit_exact_iff (node : StatNode) :
    MaxHitExact node ↔ node.tgtCount ≤ STAT_TGT_MAX ∧ OneHit node node.tgtCount :=
  ⟨MaxHitExact.oneHit, fun h => h.2.exact h.1⟩

end Unitrans
