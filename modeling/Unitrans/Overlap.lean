/-
How much guest code was translated more than once (`overlap_stat`). A superblock's `pc_end`
is its last byte, and the overlap of two is taken as if it were the one past it.
-/
import Unitrans.State
import Mathlib.Order.Interval.Finset.Basic
import Mathlib.Order.Interval.Finset.Nat

namespace Unitrans

open X86

/-- The body of the inner loop, for `stbs[i]` and `stbs[j]`. -/
def overlapAdd (stbI stbJ : SuperTransBlock) (overlapSumSize : Word) : Word :=
  let (stb1, stb2) := if stbI.pcStart < stbJ.pcStart then (stbI, stbJ) else (stbJ, stbI)
  let overlapS := if stb2.pcStart < stb1.pcStart then stb1.pcStart else stb2.pcStart
  let overlapE := if stb1.pcEnd < stb2.pcEnd then stb1.pcEnd else stb2.pcEnd
  if overlapS < overlapE then overlapSumSize + (overlapE - overlapS) else overlapSumSize

/-- The inner loop, over the superblocks after `stbs[i]`. -/
def overlapFrom (stbI : SuperTransBlock) : List SuperTransBlock → Word → Word
  | [], overlapSumSize => overlapSumSize
  | stbJ :: stbs, overlapSumSize => overlapFrom stbI stbs (overlapAdd stbI stbJ overlapSumSize)

/-- The outer loop. -/
def overlapLoop : List SuperTransBlock → Word → Word
  | [], overlapSumSize => overlapSumSize
  | stbI :: stbs, overlapSumSize => overlapLoop stbs (overlapFrom stbI stbs overlapSumSize)

def overlapStat (stbs : List SuperTransBlock) : Word := overlapLoop stbs 0

/-! ## The bytes two superblocks share -/

/-- A sum over the unordered pairs of a list. -/
def pairSum {α : Type*} (f : α → α → Nat) : List α → Nat
  | [] => 0
  | a :: l => (l.map (f a)).sum + pairSum f l

namespace SuperTransBlock

/-- The guest bytes that were translated. -/
def bytes (stb : SuperTransBlock) : Finset Nat := Finset.Icc stb.pcStart.toNat stb.pcEnd.toNat

/-- How many bytes two superblocks share. -/
def shared (a b : SuperTransBlock) : Nat := (a.bytes ∩ b.bytes).card

/-- How many bytes two superblocks are counted to share. -/
def counted (a b : SuperTransBlock) : Nat :=
  min a.pcEnd.toNat b.pcEnd.toNat - max a.pcStart.toNat b.pcStart.toNat

theorem shared_eq (a b : SuperTransBlock) :
    shared a b = counted a b + if (a.bytes ∩ b.bytes).Nonempty then 1 else 0 := by
  have hinter : a.bytes ∩ b.bytes =
      Finset.Icc (max a.pcStart.toNat b.pcStart.toNat) (min a.pcEnd.toNat b.pcEnd.toNat) := by
    ext x
    unfold bytes
    rw [Finset.mem_inter, Finset.mem_Icc, Finset.mem_Icc, Finset.mem_Icc]
    omega
  unfold shared counted
  rw [hinter, Nat.card_Icc]
  split
  · rename_i hne
    have := Finset.nonempty_Icc.mp hne
    omega
  · rename_i hempty
    have := Nat.lt_of_not_le fun h => hempty (Finset.nonempty_Icc.mpr h)
    omega

end SuperTransBlock

open SuperTransBlock

theorem overlapAdd_eq (a b : SuperTransBlock) (n : Nat) :
    overlapAdd a b (BitVec.ofNat 32 n) = BitVec.ofNat 32 (n + counted a b) := by
  have hadd {s e : Word} (hs : s.toNat = max a.pcStart.toNat b.pcStart.toNat) (he : e.toNat = min a.pcEnd.toNat b.pcEnd.toNat) :
      (if s < e then BitVec.ofNat 32 n + (e - s) else BitVec.ofNat 32 n) = BitVec.ofNat 32 (n + counted a b) := by
    unfold counted
    rw [← hs, ← he]
    split
    · rename_i hlt
      have hlt := BitVec.lt_def.mp hlt
      apply BitVec.eq_of_toNat_eq
      rw [BitVec.toNat_add, BitVec.toNat_sub_of_le (BitVec.le_of_lt (BitVec.lt_def.mpr hlt)), BitVec.toNat_ofNat, BitVec.toNat_ofNat]
      omega
    · rename_i hge
      have hge := BitVec.le_def.mp (BitVec.not_lt.mp hge)
      rw [Nat.sub_eq_zero_of_le hge, Nat.add_zero]
  have hmax (x y : Word) : (if y < x then x else y).toNat = max x.toNat y.toNat := by
    split
    · rename_i h
      have := BitVec.lt_def.mp h
      omega
    · rename_i h
      have := BitVec.le_def.mp (BitVec.not_lt.mp h)
      omega
  have hmin (x y : Word) : (if x < y then x else y).toNat = min x.toNat y.toNat := by
    split
    · rename_i h
      have := BitVec.lt_def.mp h
      omega
    · rename_i h
      have := BitVec.le_def.mp (BitVec.not_lt.mp h)
      omega
  unfold overlapAdd
  by_cases h : a.pcStart < b.pcStart
  · rw [if_pos h]
    exact hadd (hmax ..) (hmin ..)
  · rw [if_neg h]
    apply hadd
    · rw [hmax, max_comm]
    · rw [hmin, min_comm]

theorem overlapFrom_eq (a : SuperTransBlock) : ∀ (l : List SuperTransBlock) (n : Nat),
    overlapFrom a l (BitVec.ofNat 32 n) = BitVec.ofNat 32 (n + (l.map (counted a)).sum)
  | [], _ => rfl
  | b :: l, n => by
    unfold overlapFrom
    rw [overlapAdd_eq, overlapFrom_eq a l, List.map_cons, List.sum_cons, Nat.add_assoc]

theorem overlapLoop_eq : ∀ (l : List SuperTransBlock) (n : Nat),
    overlapLoop l (BitVec.ofNat 32 n) = BitVec.ofNat 32 (n + pairSum counted l)
  | [], _ => rfl
  | a :: l, n => by
    unfold overlapLoop pairSum
    rw [overlapFrom_eq, overlapLoop_eq l, Nat.add_assoc]

theorem pairSum_add {α : Type*} (f g : α → α → Nat) : ∀ l : List α,
    pairSum (fun a b => f a b + g a b) l = pairSum f l + pairSum g l
  | [] => rfl
  | a :: l => by
    unfold pairSum
    rw [pairSum_add f g l, List.sum_map_add]
    omega

/-- How many pairs of superblocks share a byte. -/
def overlapping (stbs : List SuperTransBlock) : Nat :=
  pairSum (fun a b => if (a.bytes ∩ b.bytes).Nonempty then 1 else 0) stbs

/-- One byte is missed for each pair that shares any. -/
theorem overlapStat_exact_iff (stbs : List SuperTransBlock) :
    overlapStat stbs = BitVec.ofNat 32 (pairSum shared stbs) ↔ 2 ^ 32 ∣ overlapping stbs := by
  have hcounted : overlapStat stbs = BitVec.ofNat 32 (pairSum counted stbs) := by
    have := overlapLoop_eq stbs 0
    rw [Nat.zero_add] at this
    exact this
  have hshared : pairSum shared stbs = pairSum counted stbs + overlapping stbs := by
    unfold overlapping
    rw [← pairSum_add]
    congr 1
    funext a b
    exact shared_eq a b
  rw [hcounted, hshared, ← BitVec.toNat_inj, BitVec.toNat_ofNat, BitVec.toNat_ofNat]
  omega

theorem not_overlapStat_exact :
    ¬∀ stbs : List SuperTransBlock, (∀ stb ∈ stbs, stb.pcStart ≤ stb.pcEnd) →
      overlapStat stbs = BitVec.ofNat 32 (pairSum shared stbs) := by
  intro hall
  exact absurd (hall [⟨0x1000, 0x1003, 0⟩, ⟨0x1000, 0x1003, 0⟩] (by decide)) (by decide)

end Unitrans
