/-
The links recorded in a block. The index that says where the next one goes is read as
how many there are, and starts again at 0 after the last place.
-/
import Unitrans.Tb

namespace Unitrans

open X86

/-- A call `tb_add_jmp_from(tb, T, n)`. -/
structure Link where
  tb : Nat
  n : Word
  deriving DecidableEq

/-- The calls for one block. -/
def addLinks (links : List Link) (b : TranslationBlock) : TranslationBlock :=
  links.foldl (fun b l => b.addJmpFrom l.tb l.n) b

/-- Entry `i` of the lists of a block, as a consumer reads it. -/
def TranslationBlock.fromEntry (b : TranslationBlock) (i : Nat) : Option Nat × Nat := (b.jmpFrom i, (b.jmpFromNum i).toNat)

/-- The entries consumers see. -/
def TranslationBlock.visible (b : TranslationBlock) : List (Option Nat × Nat) := (List.range b.jmpFromIndex.toNat).map b.fromEntry

/-- A link as it was asked for. -/
def Link.asked (l : Link) : Option Nat × Nat := (some l.tb, l.n.toNat)

/-- A link as it is stored, in a byte. -/
def Link.stored (l : Link) : Option Nat × Nat := (some l.tb, (l.n.setWidth 8).toNat)

theorem addLinks_concat (links : List Link) (l : Link) (b : TranslationBlock) :
    addLinks (links ++ [l]) b = (addLinks links b).addJmpFrom l.tb l.n := by
  unfold addLinks
  rw [List.foldl_concat]

theorem fromEntry_addJmpFrom (b : TranslationBlock) (tb : Nat) (n : Word) (i : Nat) :
    (b.addJmpFrom tb n).fromEntry i = if i = b.jmpFromIndex.toNat then (some tb, (n.setWidth 8).toNat) else b.fromEntry i := by
  unfold TranslationBlock.fromEntry TranslationBlock.addJmpFrom
  dsimp only
  split
  · rename_i hi
    rw [hi, Function.update_self, Function.update_self]
  · rename_i hi
    rw [Function.update_of_ne hi, Function.update_of_ne hi]

theorem index_addJmpFrom {b : TranslationBlock} {m : Nat} (h : b.jmpFromIndex.toNat = m % 16) (tb : Nat) (n : Word) :
    (b.addJmpFrom tb n).jmpFromIndex.toNat = (m + 1) % 16 := by
  unfold TranslationBlock.addJmpFrom TB_FROM_MAX
  dsimp only
  split
  · rename_i hfull
    have := congrArg BitVec.toNat hfull
    rw [BitVec.toNat_add, h] at this
    change (m % 16 + 1) % 2 ^ 32 = 16 at this
    show 0 = (m + 1) % 16
    omega
  · rename_i hroom
    have hne : m % 16 + 1 ≠ 16 := by
      intro heq
      apply hroom
      apply BitVec.eq_of_toNat_eq
      rw [BitVec.toNat_add, h]
      show (m % 16 + 1) % 2 ^ 32 = 16
      omega
    rw [BitVec.toNat_add, h]
    show (m % 16 + 1) % 2 ^ 32 = (m + 1) % 16
    omega

/-- After `m` links the index is `m` modulo the number of places, and the places below it hold the links since it
was last 0. -/
theorem addLinks_spec {b : TranslationBlock} (hb : b.jmpFromIndex = 0) (links : List Link) :
    (addLinks links b).jmpFromIndex.toNat = links.length % 16 ∧
      (addLinks links b).visible = (links.drop (16 * (links.length / 16))).map Link.stored := by
  induction links using List.reverseRecOn with
  | nil =>
    unfold addLinks TranslationBlock.visible
    rw [List.foldl_nil, hb]
    exact ⟨rfl, rfl⟩
  | append_singleton links l ih =>
    obtain ⟨hindex, hvisible⟩ := ih
    have hindex' := index_addJmpFrom hindex l.tb l.n
    rw [addLinks_concat, List.length_append, List.length_singleton]
    refine ⟨hindex', ?_⟩
    unfold TranslationBlock.visible
    by_cases hfull : (links.length + 1) % 16 = 0
    · rw [hindex', hfull, List.range_zero, List.map_nil, List.drop_of_length_le, List.map_nil]
      rw [List.length_append, List.length_singleton]
      omega
    · -- the places below the index keep their links, and the new one is the last
      have hsame : (links.length + 1) / 16 = links.length / 16 := by omega
      have hold : (List.range (links.length % 16)).map ((addLinks links b).addJmpFrom l.tb l.n).fromEntry =
          (addLinks links b).visible := by
        unfold TranslationBlock.visible
        rw [hindex]
        apply List.map_congr_left
        intro i hi
        rw [fromEntry_addJmpFrom, hindex, if_neg (Nat.ne_of_lt (List.mem_range.mp hi))]
      have hnew : ((addLinks links b).addJmpFrom l.tb l.n).fromEntry (links.length % 16) = l.stored := by
        rw [fromEntry_addJmpFrom, hindex, if_pos rfl]
        rfl
      have hlen : 16 * (links.length / 16) ≤ links.length := Nat.mul_div_le _ _
      rw [hindex', hsame, List.drop_append_of_le_length hlen, List.map_append, ← hvisible, ← hold,
        show (links.length + 1) % 16 = links.length % 16 + 1 by omega, List.range_succ, List.map_append, List.map_singleton,
        hnew, List.map_singleton]

/-- The links consumers should see, the most recent one first. -/
def recentLinks (links : List Link) : List Link := links.reverse.take (min links.length TB_FROM_MAX.toNat)

/-- The index is in bounds, and the entries below it are the most recent links. -/
def KeepsRecent (links : List Link) (b : TranslationBlock) : Prop :=
  b.jmpFromIndex ≤ TB_FROM_MAX ∧ b.visible.Perm ((recentLinks links).map Link.asked)

theorem asked_eq_stored {l : Link} (h : l.n.toNat < 256) : l.asked = l.stored := by
  unfold Link.asked Link.stored
  rw [BitVec.toNat_setWidth, Nat.mod_eq_of_lt h]

/-- What a consumer sees is right just when there were fewer links than places, and their slots fit in a byte. -/
theorem addLinks_keepsRecent_iff {b : TranslationBlock} (hb : b.jmpFromIndex = 0) (links : List Link) :
    KeepsRecent links (addLinks links b) ↔ links.length < TB_FROM_MAX.toNat ∧ ∀ l ∈ links, l.n.toNat < 256 := by
  obtain ⟨hindex, hvisible⟩ := addLinks_spec hb links
  have hbound : (addLinks links b).jmpFromIndex ≤ TB_FROM_MAX := by
    rw [BitVec.le_def, hindex]
    show links.length % 16 ≤ 16
    omega
  have hmax : TB_FROM_MAX.toNat = 16 := rfl
  unfold KeepsRecent recentLinks
  rw [hvisible, hmax]
  constructor
  · rintro ⟨-, hperm⟩
    have hlen := hperm.length_eq
    rw [List.length_map, List.length_map, List.length_drop, List.length_take, List.length_reverse] at hlen
    have hfew : links.length < 16 := by omega
    refine ⟨hfew, fun l hl => ?_⟩
    have hin : l.asked ∈ (links.reverse.take (min links.length 16)).map Link.asked := by
      apply List.mem_map_of_mem
      rw [List.take_of_length_le (by rw [List.length_reverse]; omega)]
      exact List.mem_reverse.mpr hl
    obtain ⟨l', -, hl'⟩ := List.mem_map.mp (hperm.mem_iff.mpr hin)
    have hn : (l'.n.setWidth 8).toNat = l.n.toNat := congrArg Prod.snd hl'
    rw [← hn]
    exact (l'.n.setWidth 8).isLt
  · rintro ⟨hfew, hbyte⟩
    refine ⟨hbound, ?_⟩
    rw [Nat.div_eq_of_lt hfew, Nat.mul_zero, List.drop_zero, List.take_of_length_le (by rw [List.length_reverse]; omega),
      List.map_reverse, List.map_congr_left fun l hl => asked_eq_stored (hbyte l hl)]
    exact (List.reverse_perm _).symm

/-- Sixteen links from the same place. -/
def sixteenLinks : List Link := List.replicate 16 { tb := 1, n := 0 }

theorem addLinks_keepsRecent_iff_sixteen :
    KeepsRecent sixteenLinks (addLinks sixteenLinks { pc := 0x08048000 }) ↔
      sixteenLinks.length < TB_FROM_MAX.toNat ∧ ∀ l ∈ sixteenLinks, l.n.toNat < 256 :=
  addLinks_keepsRecent_iff rfl sixteenLinks

theorem not_addLinks_keepsRecent :
    ¬∀ (b : TranslationBlock), b.jmpFromIndex = 0 → ∀ links : List Link, (∀ l ∈ links, l.n.toNat < 256) →
      KeepsRecent links (addLinks links b) := by
  intro hall
  have hperm := (hall { pc := 0x08048000 } rfl sixteenLinks (by decide)).2
  have hnone : (addLinks sixteenLinks { pc := 0x08048000 }).visible = [] := by decide
  rw [hnone] at hperm
  exact absurd hperm.length_eq (by decide)

end Unitrans
