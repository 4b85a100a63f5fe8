/-
Code that stays where it was put: a partial memory of the bytes written once
and for all (`Code`). It grows and never changes, so what is known to be
placed in it stays placed (`Placed.mono`), and a memory that holds it still
does after a write elsewhere (`Holds.put`). A byte left open, to be patched
later, is one the map is not defined at.
-/
import Unitrans.X86.Mem
import Mathlib.Data.Set.Lattice

namespace X86

/-- The bytes written once and for all. -/
abbrev Code := Word → Option Byte

/-- A run of bytes, those to be patched left open. -/
abbrev Pattern := List (Option Byte)

namespace Code

def dom (K : Code) : Set Word := {x | K x ≠ none}

/-- The pattern sits at `a`. -/
def Placed (K : Code) (a : Word) (p : Pattern) : Prop :=
  ∀ i b, p[i]? = some (some b) → K (a + BitVec.ofNat 32 i) = some b

/-- The memory holds the code. -/
def Holds (m : Mem) (K : Code) : Prop := ∀ x b, K x = some b → m x = b

/-- The code grows. -/
def Le (K K' : Code) : Prop := ∀ x b, K x = some b → K' x = some b

/-- `K` with a pattern added at `a`. -/
def add (K : Code) (a : Word) (p : Pattern) : Code := fun x => (p[(x - a).toNat]?.join).orElse fun _ => K x

variable {K K' : Code} {m : Mem} {a : Word} {p q : Pattern}

theorem Placed.mono (h : Placed K a p) (hK : Le K K') : Placed K' a p := fun i b hb => hK _ _ (h i b hb)

theorem placed_append : Placed K a (p ++ q) ↔ Placed K a p ∧ Placed K (a + BitVec.ofNat 32 p.length) q := by
  constructor
  · intro h
    refine ⟨fun i b hb => h i b ?_, fun i b hb => ?_⟩
    · rw [List.getElem?_append_left (List.getElem?_eq_some_iff.mp hb).1, hb]
    · have := h (p.length + i) b (by rw [List.getElem?_append_right (by omega)]; simpa using hb)
      rwa [BitVec.ofNat_add, ← BitVec.add_assoc] at this
  · intro ⟨h₁, h₂⟩ i b hb
    rcases Nat.lt_or_ge i p.length with hi | hi
    · exact h₁ i b (by rwa [List.getElem?_append_left hi] at hb)
    · rw [List.getElem?_append_right hi] at hb
      have := h₂ (i - p.length) b hb
      rw [BitVec.add_assoc, ← BitVec.ofNat_add] at this
      rwa [show p.length + (i - p.length) = i by omega] at this

theorem Holds.at {bs : List Byte} (h : Holds m K) (hp : Placed K a (bs.map some)) : m.At a bs :=
  fun i hi => h _ _ (hp i bs[i] (by simp [List.getElem?_eq_getElem hi]))

theorem Holds.congr {m' : Mem} (h : Holds m K) (he : ∀ x ∈ K.dom, m' x = m x) : Holds m' K :=
  fun x b hx => by rw [he x (by simp [dom, hx]), h x b hx]

theorem Holds.put {bs : List Byte} (h : Holds m K) (hd : Disjoint (Span a bs.length) K.dom) :
    Holds (m.put a bs) K :=
  h.congr fun _ hx => Mem.put_of_notMem fun ha => Set.disjoint_left.mp hd ha hx

theorem Holds.st32 {w : Word} (h : Holds m K) (hd : Disjoint (Span a 4) K.dom) : Holds (m.st32 a w) K :=
  h.put (by simpa using hd)

/-- The code in memory at the addresses `D`. -/
noncomputable def ofMem (m : Mem) (D : Set Word) : Code :=
  open Classical in fun x => if x ∈ D then some (m x) else none

theorem holds_ofMem (m : Mem) (D : Set Word) : Holds m (ofMem m D) := by
  intro x b h
  rw [ofMem] at h
  split at h
  · exact Option.some.inj h
  · cases h

theorem placed_ofMem {D : Set Word} {bs : List Byte} (h : m.At a bs) (hl : bs.length ≤ 2 ^ 32)
    (hD : Span a bs.length ⊆ D) : Placed (ofMem m D) a (bs.map some) := by
  intro i b hb
  obtain ⟨hi, hb⟩ := List.getElem?_eq_some_iff.mp hb
  rw [List.length_map] at hi
  rw [ofMem, if_pos (hD (mem_span_add hi hl)), h i hi]
  simpa using hb

theorem dom_ofMem (D : Set Word) : (ofMem m D).dom = D := by
  ext x
  simp [dom, ofMem]

/-! ## Growing -/

theorem add_of_notMem {x : Word} (h : x ∉ Span a p.length) : K.add a p x = K x := by
  simp only [mem_span, not_lt] at h
  simp only [add, List.getElem?_eq_none h]
  rfl

theorem le_add (hd : Disjoint (Span a p.length) K.dom) : Le K (K.add a p) := by
  intro x b hb
  have hx : x ∉ Span a p.length := fun hx => Set.disjoint_left.mp hd hx (by simp [dom, hb])
  rw [add_of_notMem hx, hb]

theorem placed_add (hl : p.length ≤ 2 ^ 32) : Placed (K.add a p) a p := by
  intro i b hb
  have hi := (List.getElem?_eq_some_iff.mp hb).1
  have : (a + BitVec.ofNat 32 i - a).toNat = i := by bv_omega
  simp only [add, this, hb]
  rfl

theorem dom_add_subset : (K.add a p).dom ⊆ K.dom ∪ Span a p.length := by
  intro x hx
  by_cases h : x ∈ Span a p.length
  · exact Or.inr h
  · left
    rwa [dom, Set.mem_ofPred_eq, add_of_notMem h] at hx

/-- Bytes that agree with the pattern, written over fresh addresses. -/
theorem Holds.add {bs : List Byte} (h : Holds m K) (hlen : bs.length = p.length) (hl : p.length ≤ 2 ^ 32)
    (hd : Disjoint (Span a p.length) K.dom) (hb : ∀ (i : Nat) (b : Byte), p[i]? = some (some b) → bs[i]? = some b) :
    Holds (m.put a bs) (K.add a p) := by
  intro x b hx
  by_cases hs : x ∈ Span a p.length
  · obtain ⟨i, hi, rfl⟩ := exists_of_mem_span hs
    have hk : K (a + BitVec.ofNat 32 i) = none := by
      by_contra hn
      exact Set.disjoint_left.mp hd hs hn
    have hidx : (a + BitVec.ofNat 32 i - a).toNat = i := by bv_omega
    have hpi : p[i]? = some (some b) := by
      simp only [Code.add, hidx, hk] at hx
      cases hp : p[i]? with
      | none => simp [hp] at hx
      | some o => cases o <;> simp_all
    simp only [Mem.put, hidx, hb i b hpi, Option.getD_some]
  · rw [add_of_notMem hs] at hx
    rw [Mem.put_of_notMem (by rwa [hlen]), h x b hx]

end Code

end X86
