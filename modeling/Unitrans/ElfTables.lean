/-
Where the tables of the new program end. The stack pointer is padded for the
`DLINFO_ITEMS` entries the auxiliary vector is said to have; it has one more, so
the stack pointer is 8 past a multiple of 16.
-/
import Unitrans.LinuxLoad
import Mathlib.Tactic.Ring

namespace Unitrans

open X86

theorem foldl_newAuxEnt_sp : ∀ (l : List (Word × Word)) (s : Word × Mem),
    (l.foldl newAuxEnt s).1 = s.1 - BitVec.ofNat 32 (8 * l.length)
  | [], s => by simp
  | e :: l, s => by
    rw [List.foldl_cons, foldl_newAuxEnt_sp l, newAuxEnt, List.length_cons]
    bv_omega

theorem loaderBuildArgptr_sp (envc argc sp stringp : Word) (pushPtr : Bool) (m : Mem) (info : ImageInfo) :
    (loaderBuildArgptr envc argc sp stringp pushPtr m info).1 =
      sp - (envc + 1) * 4 - (argc + 1) * 4 - (if pushPtr then 8 else 0) - 4 := by
  cases pushPtr
  · simp [loaderBuildArgptr]
  · simp only [loaderBuildArgptr, if_true]
    ring

/-- `a` down to where `size` more bytes end at a multiple of 16, if `a` is one. -/
def pad (a size : Word) : Word := if size &&& 15 ≠ 0 then a - (16 - (size &&& 15)) else a

theorem pad_mod (a size : Word) (ha : a.toNat % 16 = 0) : ((pad a size).toNat + (2 ^ 32 - size.toNat % 16)) % 16 = 0 := by
  rw [pad]
  have hlow : (size &&& 15).toNat = size.toNat % 16 := Align.toNat_and_low (k := 4) size (by decide)
  generalize size &&& 15 = r at hlow
  have hlt := Nat.mod_lt size.toNat (show 0 < 16 by decide)
  by_cases hr : r = 0
  · rw [if_neg (not_not.mpr hr)]
    subst hr
    have : size.toNat % 16 = 0 := hlow.symm
    omega
  · rw [if_pos hr]
    bv_omega

theorem pad_sub_mod {a size : Word} (ha : a.toNat % 16 = 0) : ¬ 16 ∣ (pad a size - size - 8).toNat := by
  have hpad := pad_mod a size ha
  generalize pad a size = top at hpad
  bv_omega

/-- Where the auxiliary vector begins, from the top. -/
def tablesTop (v : AuxValues) (p argc envc ibcs : Word) : Word :=
  let sp := p - ((BitVec.ofNat 32 (elfPlatform v).length + 4 - 1) &&& ~~~(4 - 1))
  let sp := sp &&& ~~~15
  let size := ((DLINFO_ITEMS + 1) * 2 + 2 + (envc + argc + 2) + if ibcs = 0 then 3 else 1) * 4
  pad sp size

theorem platform_size (v : AuxValues) : (BitVec.ofNat 32 (elfPlatform v).length + 4 - 1) &&& ~~~(4 - 1) = 8 := by
  rw [show (elfPlatform v).length = 5 from rfl]
  decide

/-- The platform string, the auxiliary vector, and then the tables. -/
theorem createElfTables_eq (v : AuxValues) (p argc envc ibcs : Word) (m : Mem) (info : ImageInfo) (s : Word × Mem)
    (hs : (auxEntries v (p - 8)).foldl newAuxEnt (tablesTop v p argc envc ibcs, m.put (p - 8) (elfPlatform v)) = s) :
    createElfTables v p argc envc ibcs m info =
      loaderBuildArgptr envc argc s.1 p (ibcs == 0) s.2 { info with savedAuxv := s.1 } := by
  rw [← hs, createElfTables, tablesTop]
  simp only [platform_size, pad]

theorem createElfTables_sp (v : AuxValues) (p argc envc ibcs : Word) (m : Mem) (info : ImageInfo) :
    (createElfTables v p argc envc ibcs m info).1 =
      tablesTop v p argc envc ibcs - 120 - (envc + 1) * 4 - (argc + 1) * 4 - (if ibcs = 0 then 8 else 0) - 4 := by
  have hlen : 8 * (auxEntries v (p - 8)).length = 120 := rfl
  rw [createElfTables_eq v p argc envc ibcs m info _ rfl, loaderBuildArgptr_sp, foldl_newAuxEnt_sp, hlen]
  simp only [beq_iff_eq, BitVec.ofNat_eq_ofNat]

/-- The stack pointer of a program starting with no arguments at the top of the stack. -/
theorem not_createElfTables_aligned : ¬ ∀ (v : AuxValues) (p argc envc ibcs : Word) (m : Mem) (info : ImageInfo),
    16 ∣ (createElfTables v p argc envc ibcs m info).1.toNat := by
  intro h
  have := h ⟨0x633, 0, 52, 2, 0x8048100, 0x8048000, 0, 0, 1000, 1000, 1000, 1000, 100⟩ 0xbffffff0 1 2 1 (fun _ => 0) {}
  rw [createElfTables_sp] at this
  exact absurd this (by decide)

/-- The stack pointer is never a multiple of 16: it is 8 past one. -/
theorem createElfTables_misaligned (v : AuxValues) (p argc envc ibcs : Word) (m : Mem) (info : ImageInfo) :
    ¬ 16 ∣ (createElfTables v p argc envc ibcs m info).1.toNat := by
  rw [createElfTables_sp, tablesTop]
  generalize hsp : p - ((BitVec.ofNat 32 (elfPlatform v).length + 4 - 1) &&& ~~~(4 - 1)) = sp
  have hmul : (sp &&& ~~~15).toNat % 16 = 0 := by
    have h : (sp &&& ~~~15).toNat = 16 * (sp.toNat / 16) := Align.toNat_and_not_low (k := 4) sp
    omega
  generalize hsize : ((DLINFO_ITEMS + 1) * 2 + 2 + (envc + argc + 2) + if ibcs = 0 then 3 else 1) * 4 = size
  -- the words pushed are two more than the words counted
  have hpushed : ∀ top : Word, top - 120 - (envc + 1) * 4 - (argc + 1) * 4 - (if ibcs = 0 then 8 else 0) - 4 =
      top - size - 8 := fun top => by
    rw [← hsize, show DLINFO_ITEMS = 12 from rfl]
    by_cases hi : ibcs = 0
    · rw [if_pos hi, if_pos hi]
      ring
    · rw [if_neg hi, if_neg hi]
      ring
  rw [hpushed]
  exact pad_sub_mod hmul

end Unitrans
