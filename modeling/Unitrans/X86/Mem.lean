/-
Byte memory over 32-bit addresses: little-endian words, runs of bytes
placed in memory, and what a write leaves alone. Addresses wrap, so a run is
the set of addresses at an offset below its length (`Span`), and every frame
condition is a disjointness of spans.
-/
import Mathlib.Data.BitVec
import Mathlib.Data.Set.Lattice
import Mathlib.Order.CompletePartialOrder
import Mathlib.Tactic.Ring

namespace X86

abbrev Byte := BitVec 8
abbrev Word := BitVec 32

instance : LawfulBEq Byte := inferInstance

/-- A flat 32-bit address space. -/
abbrev Mem := Word → Byte

/-- The addresses `a, a + 1, …, a + n - 1`. -/
def Span (a : Word) (n : Nat) : Set Word := {x | (x - a).toNat < n}

/-- The four bytes of a word, low byte first. -/
def le32 (w : Word) : List Byte :=
  [w.extractLsb' 0 8, w.extractLsb' 8 8, w.extractLsb' 16 8, w.extractLsb' 24 8]

/-- The two low bytes of a word, low byte first. -/
def le16 (w : Word) : List Byte := [w.extractLsb' 0 8, w.extractLsb' 8 8]

def word32 (b₀ b₁ b₂ b₃ : Byte) : Word := b₃ ++ b₂ ++ b₁ ++ b₀

def word16 (b₀ b₁ : Byte) : Word := (b₁ ++ b₀ : BitVec 16).setWidth 32

@[simp] theorem length_le32 (w : Word) : (le32 w).length = 4 := rfl
@[simp] theorem length_le16 (w : Word) : (le16 w).length = 2 := rfl

theorem word32_le32 (w : Word) : word32 (w.extractLsb' 0 8) (w.extractLsb' 8 8)
    (w.extractLsb' 16 8) (w.extractLsb' 24 8) = w := by
  apply BitVec.eq_of_getLsbD_eq
  intro i hi
  simp only [word32, BitVec.getLsbD_append]
  grind

theorem le32_word32 (b₀ b₁ b₂ b₃ : Byte) : le32 (word32 b₀ b₁ b₂ b₃) = [b₀, b₁, b₂, b₃] := by
  simp only [le32, word32, List.cons.injEq, and_true]
  refine ⟨?_, ?_, ?_, ?_⟩ <;>
    (apply BitVec.eq_of_getLsbD_eq
     intro i hi
     simp only [BitVec.getLsbD_append, BitVec.getLsbD_extractLsb']
     grind)

/-! ## Loads and stores -/

namespace Mem

/-- `m` with `bs` stored at `a` and upwards. -/
def put (m : Mem) (a : Word) (bs : List Byte) : Mem := fun x => bs[(x - a).toNat]?.getD (m x)

def ld16 (m : Mem) (a : Word) : Word := word16 (m a) (m (a + 1))

def ld32 (m : Mem) (a : Word) : Word := word32 (m a) (m (a + 1)) (m (a + 2)) (m (a + 3))

def st32 (m : Mem) (a w : Word) : Mem := m.put a (le32 w)

/-- The `n` bytes from `a` upwards. -/
def read (m : Mem) (a : Word) (n : Nat) : List Byte := (List.range n).map fun i => m (a + BitVec.ofNat 32 i)

/-- `bs` sits at `a` in `m`. -/
def At (m : Mem) (a : Word) (bs : List Byte) : Prop :=
  ∀ i (h : i < bs.length), m (a + BitVec.ofNat 32 i) = bs[i]

end Mem

/-! ## Spans -/

theorem mem_span {a x : Word} {n : Nat} : x ∈ Span a n ↔ (x - a).toNat < n := Iff.rfl

theorem mem_span_add {a : Word} {n i : Nat} (h : i < n) (hn : n ≤ 2 ^ 32) :
    a + BitVec.ofNat 32 i ∈ Span a n := by
  simp only [mem_span]
  bv_omega

theorem exists_of_mem_span {a x : Word} {n : Nat} (h : x ∈ Span a n) :
    ∃ i, i < n ∧ x = a + BitVec.ofNat 32 i := by
  refine ⟨(x - a).toNat, h, ?_⟩
  simp only [BitVec.ofNat_toNat, BitVec.setWidth_eq]
  ring

theorem span_mono {a : Word} {k n : Nat} (h : k ≤ n) : Span a k ⊆ Span a n := fun _ hx =>
  lt_of_lt_of_le hx h

/-- A span inside another, given by its offset. -/
theorem span_subset {a b : Word} {k n : Nat} (h : (b - a).toNat + k ≤ n) :
    Span b k ⊆ Span a n := by
  intro x hx
  simp only [mem_span] at hx ⊢
  have hsplit : x - a = (x - b) + (b - a) := by ring
  have := Nat.mod_le ((x - b).toNat + (b - a).toNat) (2 ^ 32)
  rw [hsplit, BitVec.toNat_add]
  omega

theorem span_subset_add {a : Word} {i k n : Nat} (h : i + k ≤ n) (hn : n ≤ 2 ^ 32) :
    Span (a + BitVec.ofNat 32 i) k ⊆ Span a n := by
  rcases Nat.eq_zero_or_pos k with rfl | hk
  · intro x hx
    simp [mem_span] at hx
  · refine span_subset ?_
    have : a + BitVec.ofNat 32 i - a = BitVec.ofNat 32 i := by ring
    rw [this, BitVec.toNat_ofNat, Nat.mod_eq_of_lt (by omega)]
    exact h

/-- The word `k` bytes below `a`, when `n` bytes below it are. -/
theorem disjoint_below {a : Word} {n k : Nat} {S : Set Word} (h : Disjoint (Span (a - BitVec.ofNat 32 n) n) S)
    (hk : 4 ≤ k) (hn : k ≤ n) (hn' : n < 2 ^ 32) : Disjoint (Span (a - BitVec.ofNat 32 k) 4) S := by
  refine h.mono_left (span_subset ?_)
  have hsub : a - BitVec.ofNat 32 k - (a - BitVec.ofNat 32 n) = BitVec.ofNat 32 (n - k) := by bv_omega
  rw [hsub, BitVec.toNat_ofNat, Nat.mod_eq_of_lt (by omega)]
  omega

theorem disjoint_sub {a : Word} {j k : Nat} (h : k + 4 ≤ j) (hk : 4 ≤ k) (hj : j < 2 ^ 32) :
    Disjoint (Span (a - BitVec.ofNat 32 j) 4) (Span (a - BitVec.ofNat 32 k) 4) := by
  refine (disjoint_below (n := j - 4) ?_ hk (by omega) (by omega)).symm
  rw [Set.disjoint_left]
  intro x hx hj
  simp only [mem_span] at hx hj
  bv_omega

/-- Spans at offsets `i` and `j` of one base, the first ending before the second starts. -/
theorem disjoint_span_of_le {a b c : Word} {k l : Nat} (h : (b - a).toNat + k ≤ (c - a).toNat)
    (hl : (c - a).toNat + l ≤ 2 ^ 32) : Disjoint (Span b k) (Span c l) := by
  rw [Set.disjoint_left]
  intro x hb hc
  simp only [mem_span] at hb hc
  have h₁ : x - b = (x - a) - (b - a) := by ring
  have h₂ : x - c = (x - a) - (c - a) := by ring
  rw [h₁] at hb
  rw [h₂] at hc
  generalize x - a = u at *
  generalize b - a = v at *
  generalize c - a = w at *
  bv_omega

theorem disjoint_span_add {a : Word} {i j k l : Nat} (h : i + k ≤ j) (hl : j + l ≤ 2 ^ 32) :
    Disjoint (Span (a + BitVec.ofNat 32 i) k) (Span (a + BitVec.ofNat 32 j) l) := by
  rcases Nat.eq_zero_or_pos l with rfl | hl0
  · rw [Set.disjoint_left]
    intro x _ hx
    simp [mem_span] at hx
  · have hi : (a + BitVec.ofNat 32 i - a).toNat = i := by bv_omega
    have hj : (a + BitVec.ofNat 32 j - a).toNat = j := by bv_omega
    exact disjoint_span_of_le (a := a) (by omega) (by omega)

/-! ## Reading what is placed -/

namespace Mem

theorem put_of_notMem {m : Mem} {a x : Word} {bs : List Byte} (h : x ∉ Span a bs.length) :
    m.put a bs x = m x := by
  simp only [mem_span, not_lt] at h
  simp only [put, List.getElem?_eq_none h, Option.getD_none]

theorem put_add {m : Mem} {a : Word} {bs : List Byte} {i : Nat} (h : i < bs.length)
    (hl : bs.length ≤ 2 ^ 32) : m.put a bs (a + BitVec.ofNat 32 i) = bs[i] := by
  have hi : (a + BitVec.ofNat 32 i - a).toNat = i := by bv_omega
  simp only [put, hi, List.getElem?_eq_getElem h, Option.getD_some]

theorem At.put_self {m : Mem} {a : Word} {bs : List Byte} (hl : bs.length ≤ 2 ^ 32) :
    At (m.put a bs) a bs := fun _ h => put_add h hl

theorem At.congr {m m' : Mem} {a : Word} {bs : List Byte} (h : At m a bs)
    (hl : bs.length ≤ 2 ^ 32) (he : ∀ x ∈ Span a bs.length, m' x = m x) : At m' a bs :=
  fun i hi => by rw [he _ (mem_span_add hi hl), h i hi]

theorem At.put {m : Mem} {a b : Word} {bs cs : List Byte} (h : At m a bs)
    (hl : bs.length ≤ 2 ^ 32) (hd : Disjoint (Span b cs.length) (Span a bs.length)) :
    At (m.put b cs) a bs :=
  h.congr hl fun _ hx => put_of_notMem fun hb => Set.disjoint_left.mp hd hb hx

theorem At.nil {m : Mem} {a : Word} : At m a [] := fun _ h => absurd h (by simp)

theorem At.append {m : Mem} {a : Word} {bs cs : List Byte} :
    At m a (bs ++ cs) ↔ At m a bs ∧ At m (a + BitVec.ofNat 32 bs.length) cs := by
  constructor
  · intro h
    refine ⟨fun i hi => ?_, fun i hi => ?_⟩
    · rw [h i (by simp; omega), List.getElem_append_left hi]
    · have := h (bs.length + i) (by simp; omega)
      rw [List.getElem_append_right (by omega)] at this
      simp only [Nat.add_sub_cancel_left] at this
      rw [← this, BitVec.add_assoc, BitVec.ofNat_add]
  · intro ⟨h₁, h₂⟩ i hi
    by_cases hlt : i < bs.length
    · rw [h₁ i hlt, List.getElem_append_left hlt]
    · rw [List.getElem_append_right (by omega), ← h₂ (i - bs.length) (by simp at hi; omega),
        BitVec.add_assoc, ← BitVec.ofNat_add]
      congr 3
      omega

theorem At.cons {m : Mem} {a : Word} {b : Byte} {bs : List Byte} :
    At m a (b :: bs) ↔ m a = b ∧ At m (a + 1) bs := by
  rw [← List.singleton_append, At.append]
  simp [At]

theorem At.left {m : Mem} {a : Word} {bs cs : List Byte} (h : At m a (bs ++ cs)) : At m a bs :=
  (At.append.mp h).1

theorem At.right {m : Mem} {a : Word} {bs cs : List Byte} (h : At m a (bs ++ cs)) :
    At m (a + BitVec.ofNat 32 bs.length) cs :=
  (At.append.mp h).2

theorem At.ld32 {m : Mem} {a w : Word} {bs : List Byte} (h : At m a (le32 w ++ bs)) :
    m.ld32 a = w := by
  have h := h.left
  simp only [le32, At.cons, BitVec.add_assoc, BitVec.ofNat_eq_ofNat, BitVec.reduceAdd] at h
  obtain ⟨h₀, h₁, h₂, h₃, -⟩ := h
  simp only [Mem.ld32, BitVec.ofNat_eq_ofNat, h₀, h₁, h₂, h₃, word32_le32]

theorem ld32_of_at {m : Mem} {a w : Word} (h : At m a (le32 w)) : m.ld32 a = w :=
  At.ld32 (by rwa [List.append_nil] : At m a (le32 w ++ []))

theorem at_ld32 (m : Mem) (a : Word) : At m a (le32 (m.ld32 a)) := by
  simp only [Mem.ld32, le32_word32, At.cons, BitVec.add_assoc]
  simp [At.nil]

theorem ld32_congr {m m' : Mem} {a : Word} (he : ∀ x ∈ Span a 4, m' x = m x) :
    m'.ld32 a = m.ld32 a :=
  ld32_of_at ((at_ld32 m a).congr (by simp) (by simpa using he))

theorem ld32_put_of_disjoint {m : Mem} {a b : Word} {bs : List Byte}
    (hd : Disjoint (Span b bs.length) (Span a 4)) : (m.put b bs).ld32 a = m.ld32 a :=
  ld32_congr fun _ hx => put_of_notMem fun hb => Set.disjoint_left.mp hd hb hx

@[simp] theorem ld32_st32 (m : Mem) (a w : Word) : (m.st32 a w).ld32 a = w := by
  exact ld32_of_at (At.put_self (by simp))

theorem ld32_st32_of_disjoint {m : Mem} {a b w : Word} (hd : Disjoint (Span b 4) (Span a 4)) :
    (m.st32 b w).ld32 a = m.ld32 a := ld32_put_of_disjoint (by simpa using hd)

theorem At.st32 {m : Mem} {a b w : Word} {bs : List Byte} (h : At m a bs)
    (hl : bs.length ≤ 2 ^ 32) (hd : Disjoint (Span b 4) (Span a bs.length)) :
    At (m.st32 b w) a bs := h.put hl (by simpa using hd)

theorem st32_of_notMem {m : Mem} {a w x : Word} (h : x ∉ Span a 4) : m.st32 a w x = m x :=
  put_of_notMem (by simpa using h)

/-- Storing a run after another is storing their concatenation. -/
theorem put_put_append {m : Mem} {a : Word} {bs cs : List Byte}
    (hl : bs.length + cs.length ≤ 2 ^ 32) :
    (m.put a bs).put (a + BitVec.ofNat 32 bs.length) cs = m.put a (bs ++ cs) := by
  funext x
  have hx : (x - (a + BitVec.ofNat 32 bs.length)) = (x - a) - BitVec.ofNat 32 bs.length := by ring
  simp only [put, hx]
  rcases Nat.lt_or_ge (x - a).toNat bs.length with hlt | hge
  · have hout : cs.length ≤ (x - a - BitVec.ofNat 32 bs.length).toNat := by
      generalize x - a = u at *
      bv_omega
    rw [List.getElem?_append_left hlt, List.getElem?_eq_none hout]
    rfl
  · have hsub : (x - a - BitVec.ofNat 32 bs.length).toNat = (x - a).toNat - bs.length := by
      rcases Nat.eq_or_lt_of_le (show bs.length ≤ 2 ^ 32 by omega) with he | hlt
      · have := (x - a).isLt
        omega
      · generalize x - a = u at *
        bv_omega
    rw [List.getElem?_append_right hge, hsub, List.getElem?_eq_none (l := bs) hge]
    rfl

/-- Storing `ws` over the part `ys` of a run. -/
theorem put_patch {m : Mem} {a : Word} {xs ys zs ws : List Byte} (hw : ws.length = ys.length)
    (hl : xs.length + (ys.length + zs.length) ≤ 2 ^ 32) :
    (m.put a (xs ++ (ys ++ zs))).put (a + BitVec.ofNat 32 xs.length) ws = m.put a (xs ++ (ws ++ zs)) := by
  funext x
  have hx : (x - (a + BitVec.ofNat 32 xs.length)) = (x - a) - BitVec.ofNat 32 xs.length := by ring
  simp only [put, hx]
  generalize x - a = u
  rcases Nat.lt_or_ge u.toNat xs.length with hlt | hge
  · have hout : ws.length ≤ (u - BitVec.ofNat 32 xs.length).toNat := by bv_omega
    rw [List.getElem?_append_left hlt, List.getElem?_append_left hlt, List.getElem?_eq_none hout]
    rfl
  · have hsub : (u - BitVec.ofNat 32 xs.length).toNat = u.toNat - xs.length := by
      have := u.isLt
      rcases Nat.eq_or_lt_of_le (show xs.length ≤ 2 ^ 32 by omega) with he | hlt
      · omega
      · bv_omega
    rw [List.getElem?_append_right hge, List.getElem?_append_right hge, hsub]
    rcases Nat.lt_or_ge (u.toNat - xs.length) ws.length with hlt | hge'
    · rw [List.getElem?_append_left hlt, List.getElem?_eq_getElem hlt]
      rfl
    · rw [List.getElem?_append_right hge', List.getElem?_append_right (hw ▸ hge'), hw,
        List.getElem?_eq_none hge']
      rfl

@[simp] theorem put_nil (m : Mem) (a : Word) : m.put a [] = m := by
  funext x
  simp [put]

/-! ## Tables -/

/-- The table `g 0, g 1, …` of `n` entries of size `w`, stored from `base` upwards. -/
def putTable (m : Mem) (base : Word) (w : Nat) (g : Nat → List Byte) (n : Nat) : Mem :=
  (List.range n).foldl (fun m i => m.put (base + BitVec.ofNat 32 (w * i)) (g i)) m

section Table

variable {m : Mem} {base : Word} {w n : Nat} {g : Nat → List Byte}

theorem putTable_succ : m.putTable base w g (n + 1) =
    (m.putTable base w g n).put (base + BitVec.ofNat 32 (w * n)) (g n) := by
  simp [putTable, List.range_succ]

theorem putTable_of_notMem (hg : ∀ i, (g i).length ≤ w) (hn : w * n ≤ 2 ^ 32) {x : Word}
    (hx : x ∉ Span base (w * n)) : m.putTable base w g n x = m x := by
  induction n with
  | zero => rfl
  | succ n ih =>
    rw [Nat.mul_succ] at hn hx
    rw [putTable_succ, put_of_notMem, ih (by omega)]
    · intro h
      simp only [mem_span] at h hx
      omega
    · intro h
      have hs := hg n
      exact hx (span_subset_add (show w * n + (g n).length ≤ w * n + w by omega) hn h)

theorem at_putTable (hg : ∀ i, (g i).length ≤ w) (hn : w * n ≤ 2 ^ 32) {i : Nat} (hi : i < n) :
    At (m.putTable base w g n) (base + BitVec.ofNat 32 (w * i)) (g i) := by
  induction n with
  | zero => omega
  | succ n ih =>
    rw [Nat.mul_succ] at hn
    have hl := hg i
    have hl' := hg n
    rw [putTable_succ]
    rcases Nat.lt_or_ge i n with h | h
    · have hle : w * i + w ≤ w * n := by
        rw [← Nat.mul_succ]
        exact Nat.mul_le_mul_left w h
      exact (ih (by omega) h).put (by omega) (disjoint_span_add (by omega) (by omega)).symm
    · obtain rfl : i = n := by omega
      exact At.put_self (by omega)

theorem At.putTable {a : Word} {bs : List Byte} (h : At m a bs) (hg : ∀ i, (g i).length ≤ w)
    (hn : w * n ≤ 2 ^ 32) (hl : bs.length ≤ 2 ^ 32)
    (hd : Disjoint (Span base (w * n)) (Span a bs.length)) : At (m.putTable base w g n) a bs :=
  h.congr hl fun _ hx => putTable_of_notMem hg hn fun hb => Set.disjoint_left.mp hd hb hx

end Table

end Mem

end X86
