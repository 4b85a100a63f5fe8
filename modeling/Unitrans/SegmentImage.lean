/-
What is in the guest's memory when the segments are loaded. A page belongs to the last
segment whose part of the file reaches into it; after that only the zeroes of the
segment with the highest end are seen to.
-/
import Unitrans.ElfSegments

namespace Unitrans

open X86

/-! ## Host pages -/

namespace HostPages

variable (h : HostPages)

theorem pow_lt : 2 ^ h.bits < 2 ^ 32 := Nat.pow_lt_pow_right (by decide) h.lt_word

theorem toNat_size : h.size.toNat = 2 ^ h.bits := by
  unfold size
  rw [BitVec.toNat_shiftLeft, Nat.shiftLeft_eq, show (1 : Word).toNat = 1 from rfl, Nat.one_mul, Nat.mod_eq_of_lt h.pow_lt]

theorem size_sub_one : h.size - 1 = Align.low 32 h.bits := by
  have hpow := h.pow_lt
  have hpos := Nat.two_pow_pos h.bits
  apply BitVec.eq_of_toNat_eq
  unfold Align.low
  rw [BitVec.toNat_sub, BitVec.toNat_ofNat, toNat_size, show (1 : Word).toNat = 1 from rfl]
  omega

theorem align_eq (a : Word) : h.align a = (a + Align.low 32 h.bits) &&& ~~~Align.low 32 h.bits := by
  unfold align
  rw [← size_sub_one, sub_eq_add_neg, sub_eq_add_neg, add_assoc]

/-- `HOST_PAGE_ALIGN` of a number. -/
def up (n : Nat) : Nat := Align.up h.bits n

theorem toNat_align (a : Word) : (h.align a).toNat = if h.up a.toNat < 2 ^ 32 then h.up a.toNat else 0 := by
  rw [align_eq, Align.toNat_align_up h.lt_word, up]

theorem up_mono {a b : Nat} (hle : a ≤ b) : h.up a ≤ h.up b := Align.up_mono hle

theorem le_up (a : Nat) : a ≤ h.up a := Align.le_up _ _

theorem up_le (a : Word) : h.up a.toNat ≤ 2 ^ 32 := by
  have htop : h.up (2 ^ 32) = 2 ^ 32 := by
    apply Align.up_of_dvd
    exact Nat.mod_eq_zero_of_dvd (pow_dvd_pow 2 (Nat.le_of_lt h.lt_word))
  calc h.up a.toNat ≤ h.up (2 ^ 32) := h.up_mono (Nat.le_of_lt a.isLt)
    _ = 2 ^ 32 := htop

theorem align_mod (a : Word) : (h.align a).toNat % 2 ^ 12 = 0 := by
  rw [toNat_align]
  split
  · exact Align.up_mod h.target_le
  · rfl

end HostPages

theorem and_not_pageMask_eq_zero {a : Word} : a &&& ~~~TARGET_PAGE_MASK = 0 ↔ a.toNat % 2 ^ 12 = 0 := by
  rw [show ~~~TARGET_PAGE_MASK = Align.low 32 12 by decide, ← BitVec.toNat_inj, Align.toNat_and_low a (by decide)]
  rfl

theorem pageAlign_of_aligned {a : Word} (h : a.toNat % 2 ^ 12 = 0) : (TARGET_PAGE_ALIGN a).toNat = a.toNat := by
  have hform : TARGET_PAGE_ALIGN a = (a + Align.low 32 12) &&& ~~~Align.low 32 12 := by
    unfold TARGET_PAGE_ALIGN
    rw [sub_eq_add_neg, add_assoc]
    rfl
  rw [hform, Align.toNat_align_up (by decide), Align.up_of_dvd h, if_pos a.isLt]

/-! ## The segments -/

def loads (phdrs : List Phdr) : List Phdr := phdrs.filter fun ph => ph.type = PT_LOAD

namespace Phdr

variable (bias : Word) (ph : Phdr)

/-- Where the segment is in the guest's memory. -/
def start : Nat := (bias + ph.vaddr).toNat

def dataEnd : Nat := ph.start bias + ph.filesz.toNat
def memEnd : Nat := ph.start bias + ph.memsz.toNat

/-- The first byte of the segment's pages of the file. -/
def first : Nat := (TARGET_ELF_PAGESTART (bias + ph.vaddr)).toNat

/-- The segment's pages of the file reach `a`. -/
def Reaches (a : Nat) : Prop :=
  ph.first bias ≤ a ∧ a < ph.first bias + (TARGET_PAGE_ALIGN (ph.filesz + TARGET_ELF_PAGEOFFSET ph.vaddr)).toNat

instance (a : Nat) : Decidable (ph.Reaches bias a) := inferInstanceAs (Decidable (_ ∧ _))

/-- What the segment's pages of the file have at `a`, which they reach. -/
def cell (file : List Byte) (a : Nat) : Cell :=
  fileCell file (ph.offset - TARGET_ELF_PAGEOFFSET ph.vaddr) ph.prot (a - ph.first bias)

end Phdr

/-- `load_bias` after the loop over the segments `l`. -/
def biasOf (etype : ElfType) (mapBase : Word) (l : List Phdr) : Word :=
  match etype, l.head? with
  | .dyn, some ph => TARGET_ELF_PAGESTART (mapBase - ph.vaddr)
  | _, _ => 0

/-- The memory the first segment is mapped into. -/
def roomFor (etype : ElfType) (mapBase : Word) (m : GuestMem) : GuestMem :=
  match etype with
  | .exec => m
  | .dyn => (targetMmap m mapBase ET_DYN_MAP_SIZE 0 fun _ => zeroCell 0).getD m

/-- The last of the segments `l` whose pages of the file reach `a`. -/
def onTop (bias : Word) (l : List Phdr) (a : Nat) : Option Phdr := l.reverse.find? fun ph => ph.Reaches bias a

/-- The memory `m` under the pages of the segments `l`, a later one's over an earlier one's. -/
def covered (file : List Byte) (bias : Word) (m : GuestMem) (l : List Phdr) : GuestMem := fun a =>
  match onTop bias l a with
  | some ph => some (ph.cell bias file a)
  | none => m a

/-- The ranges of the segments, which begin at `start`, are apart, one above the other. -/
structure Ascending (start : Phdr → Nat) (l : List Phdr) : Prop where
  apart : l.Pairwise fun p q => start p + p.memsz.toNat ≤ start q
  fits : ∀ ph ∈ l, start ph + ph.memsz.toNat < 2 ^ 32

/-- What the program headers are taken to satisfy, with the place `target_mmap` found. -/
structure WellFormed (etype : ElfType) (mapBase : Word) (phdrs : List Phdr) : Prop where
  filesz_le : ∀ ph ∈ loads phdrs, ph.filesz ≤ ph.memsz
  congruent : ∀ ph ∈ loads phdrs, TARGET_ELF_PAGEOFFSET ph.offset = TARGET_ELF_PAGEOFFSET ph.vaddr
  linked : Ascending (fun ph => ph.vaddr.toNat) (loads phdrs)
  loaded : Ascending (Phdr.start (biasOf etype mapBase (loads phdrs))) (loads phdrs)
  found : etype = .dyn → TARGET_ELF_PAGEOFFSET mapBase = 0

/-! ## The loop -/

theorem targetMmap_eq {m : GuestMem} {start len offset : Word} {cell : Nat → Cell}
    (hoffset : offset &&& ~~~TARGET_PAGE_MASK = 0) (hstart : start &&& ~~~TARGET_PAGE_MASK = 0) :
    targetMmap m start len offset cell = some fun a =>
      if start.toNat ≤ a ∧ a < start.toNat + (TARGET_PAGE_ALIGN len).toNat then some (cell (a - start.toNat)) else m a := by
  unfold targetMmap
  rw [if_neg]
  rintro (h | h)
  · exact h hoffset
  · exact h hstart

theorem pageStart_aligned (v : Word) : TARGET_ELF_PAGESTART v &&& ~~~TARGET_PAGE_MASK = 0 := by
  unfold TARGET_ELF_PAGESTART TARGET_PAGE_MASK
  rw [BitVec.not_not, BitVec.and_assoc, show ~~~(TARGET_PAGE_SIZE - 1) &&& (TARGET_PAGE_SIZE - 1) = 0 by decide]
  exact BitVec.and_zero

/-- What is left when what is past a page's start is taken off is at a page's start. -/
theorem sub_pageOffset_aligned {a b : Word} (h : TARGET_ELF_PAGEOFFSET a = TARGET_ELF_PAGEOFFSET b) :
    (a - TARGET_ELF_PAGEOFFSET b) &&& ~~~TARGET_PAGE_MASK = 0 := by
  have hoff : (TARGET_ELF_PAGEOFFSET a).toNat = a.toNat % 2 ^ 12 := Align.toNat_and_low (k := 12) a (by decide)
  have hle := Nat.mod_le a.toNat (2 ^ 12)
  rw [← h, and_not_pageMask_eq_zero, BitVec.toNat_sub_of_le (by rw [BitVec.le_def, hoff]; exact hle), hoff]
  omega

/-- What the loop knows of its variables after the segments `l`. -/
structure Looped (file : List Byte) (bias : Word) (m : GuestMem) (l : List Phdr) (s : LoadState) : Prop where
  mem : s.mem = covered file bias m l
  loadBias : s.loadBias = bias
  elfBss : s.elfBss = (l.getLast?.map fun ph => ph.vaddr + ph.filesz).getD 0
  elfBrk : s.elfBrk = (l.getLast?.map fun ph => ph.vaddr + ph.memsz).getD 0

theorem onTop_concat (bias : Word) (l : List Phdr) (ph : Phdr) (a : Nat) :
    onTop bias (l ++ [ph]) a = if ph.Reaches bias a then some ph else onTop bias l a := by
  unfold onTop
  rw [List.reverse_concat, List.find?_cons]
  by_cases hreach : ph.Reaches bias a
  · rw [decide_eq_true hreach, if_pos hreach]
  · rw [decide_eq_false hreach, if_neg hreach]

theorem covered_concat (file : List Byte) (bias : Word) (m : GuestMem) (l : List Phdr) (ph : Phdr) :
    covered file bias m (l ++ [ph]) = fun a =>
      if ph.Reaches bias a then some (ph.cell bias file a) else covered file bias m l a := by
  funext a
  unfold covered
  rw [onTop_concat]
  by_cases hreach : ph.Reaches bias a
  · rw [if_pos hreach, if_pos hreach]
  · rw [if_neg hreach, if_neg hreach]

theorem toNat_add_of_fits {a b c : Word} (hle : b ≤ c) (hfits : a.toNat + c.toNat < 2 ^ 32) :
    (a + b).toNat = a.toNat + b.toNat := by
  rw [BitVec.toNat_add, Nat.mod_eq_of_lt]
  have := BitVec.le_def.mp hle
  omega

/-- Over ascending segments, the maximum is that of the last one. -/
theorem max_last {l : List Phdr} {ph : Phdr} (hasc : Ascending (fun ph => ph.vaddr.toNat) (l ++ [ph]))
    {size : Phdr → Word} (hsize : ∀ q ∈ l ++ [ph], size q ≤ q.memsz) {cur : Word}
    (hcur : cur = (l.getLast?.map fun q => q.vaddr + size q).getD 0) :
    (if cur < ph.vaddr + size ph then ph.vaddr + size ph else cur) = ph.vaddr + size ph := by
  split
  · rfl
  · rename_i hlt
    have hmem : ph ∈ l ++ [ph] := List.mem_append_right _ (List.mem_singleton_self _)
    have hph := toNat_add_of_fits (hsize _ hmem) (hasc.fits _ hmem)
    suffices hle : cur.toNat ≤ (ph.vaddr + size ph).toNat by
      apply BitVec.eq_of_toNat_eq
      have := BitVec.not_lt.mp hlt
      have := BitVec.le_def.mp this
      omega
    cases hlast : l.getLast? with
    | none =>
      rw [hcur, hlast]
      exact Nat.zero_le _
    | some q =>
      have hq : q ∈ l := List.mem_of_getLast? hlast
      have hq' := List.mem_append_left [ph] hq
      have hbelow := (List.pairwise_append.mp hasc.apart).2.2 q hq ph (List.mem_singleton_self _)
      have hle := BitVec.le_def.mp (hsize q hq')
      rw [hcur, hlast, Option.map_some, Option.getD_some, toNat_add_of_fits (hsize q hq') (hasc.fits q hq'), hph]
      omega

section

variable (etype : ElfType) (mapBase : Word) (file : List Byte) {bias : Word} {m : GuestMem} {l : List Phdr} {s : LoadState}
  {ph : Phdr}

theorem mapSegment_spec (hs : Looped file bias m l s) (hcong : TARGET_ELF_PAGEOFFSET ph.offset = TARGET_ELF_PAGEOFFSET ph.vaddr)
    (hasc : Ascending (fun ph => ph.vaddr.toNat) (l ++ [ph])) (hle : ∀ q ∈ l ++ [ph], q.filesz ≤ q.memsz) :
    ∃ t, mapSegment etype file s ph = .ok t ∧ Looped file bias m (l ++ [ph]) t ∧ t.loadAddrSet := by
  unfold mapSegment
  dsimp only
  rw [targetMmap_eq (sub_pageOffset_aligned hcong) (pageStart_aligned _)]
  refine ⟨_, rfl, ?_, rfl⟩
  constructor
  · rw [covered_concat, ← hs.mem, ← hs.loadBias]
    rfl
  · dsimp only
    rw [sub_self, add_zero, ite_self]
    exact hs.loadBias
  · rw [List.getLast?_concat]
    exact max_last hasc hle hs.elfBss
  · rw [List.getLast?_concat]
    exact max_last hasc (fun _ _ => BitVec.le_refl _) hs.elfBrk

theorem Ascending.left {start : Phdr → Nat} {l r : List Phdr} (h : Ascending start (l ++ r)) : Ascending start l :=
  ⟨(List.pairwise_append.mp h.apart).1, fun p hp => h.fits p (List.mem_append_left _ hp)⟩

/-- The segments after the first, whose place is settled. -/
theorem foldlM_mapSegment (hload : ∀ q ∈ l, q.type = PT_LOAD) :
    ∀ (l' : List Phdr) {s : LoadState}, (etype = .exec ∨ s.loadAddrSet) → Looped file bias m l' s →
      (∀ q ∈ l' ++ l, q.filesz ≤ q.memsz) →
      (∀ q ∈ l' ++ l, TARGET_ELF_PAGEOFFSET q.offset = TARGET_ELF_PAGEOFFSET q.vaddr) →
      Ascending (fun q => q.vaddr.toNat) (l' ++ l) →
      ∃ t, l.foldlM (loadSegment etype mapBase file) s = .ok t ∧ Looped file bias m (l' ++ l) t := by
  induction l with
  | nil =>
    intro l' s _ hs _ _ _
    exact ⟨s, rfl, by rw [List.append_nil]; exact hs⟩
  | cons ph l ih =>
    intro l' s hset hs hle hcong hasc
    rw [show l' ++ ph :: l = (l' ++ [ph]) ++ l by simp] at hle hcong hasc ⊢
    have hph : ph ∈ (l' ++ [ph]) ++ l := by simp
    obtain ⟨t, ht, hlooped, htset⟩ := mapSegment_spec etype file hs (hcong ph hph) hasc.left
      fun q hq => hle q (List.mem_append_left _ hq)
    have hbody : loadSegment etype mapBase file s ph = .ok t := by
      unfold loadSegment reserveRoom
      rw [if_neg (not_not.mpr (hload ph List.mem_cons_self)), if_pos hset]
      exact ht
    obtain ⟨u, hu, hfinal⟩ := ih (fun q hq => hload q (List.mem_cons_of_mem _ hq)) (l' ++ [ph]) (.inr htset) hlooped hle hcong hasc
    refine ⟨u, ?_, hfinal⟩
    rw [List.foldlM_cons, hbody]
    exact hu

end

theorem foldlM_loads (etype : ElfType) (mapBase : Word) (file : List Byte) :
    ∀ (phdrs : List Phdr) (s : LoadState),
      phdrs.foldlM (loadSegment etype mapBase file) s = (loads phdrs).foldlM (loadSegment etype mapBase file) s
  | [], _ => rfl
  | ph :: phdrs, s => by
    unfold loads
    rw [List.foldlM_cons, List.filter_cons]
    split
    · rw [List.foldlM_cons]
      exact congrArg _ (funext (foldlM_loads etype mapBase file phdrs))
    · rename_i hload
      have hskip : loadSegment etype mapBase file s ph = .ok s := by
        unfold loadSegment
        rw [if_pos (by simpa using hload)]
      rw [hskip]
      exact foldlM_loads etype mapBase file phdrs s

/-- The loop of `load_elf_binary`. -/
theorem loop_spec {etype : ElfType} {mapBase : Word} {phdrs : List Phdr} (hwf : WellFormed etype mapBase phdrs)
    (file : List Byte) (m : GuestMem) (hne : loads phdrs ≠ []) :
    ∃ s, phdrs.foldlM (loadSegment etype mapBase file) { mem := m } = .ok s ∧
      Looped file (biasOf etype mapBase (loads phdrs)) (roomFor etype mapBase m) (loads phdrs) s := by
  rw [foldlM_loads]
  have hload : ∀ q ∈ loads phdrs, q.type = PT_LOAD := by
    intro q hq
    simpa using (List.mem_filter.mp hq).2
  obtain ⟨hle, hcong, hasc, -, hfound⟩ := hwf
  generalize loads phdrs = l at *
  cases etype with
  | exec =>
    have hbias : biasOf .exec mapBase l = 0 := by
      unfold biasOf
      rfl
    rw [hbias]
    exact foldlM_mapSegment .exec mapBase file hload [] (.inl rfl) ⟨rfl, rfl, rfl, rfl⟩ hle hcong hasc
  | dyn =>
    obtain ⟨ph, l, rfl⟩ := List.exists_cons_of_ne_nil hne
    have hfound := hfound rfl
    have haligned : mapBase &&& ~~~TARGET_PAGE_MASK = 0 := by
      unfold TARGET_PAGE_MASK
      rw [BitVec.not_not]
      exact hfound
    have hroom := (targetMmap_eq (by decide) haligned : targetMmap m mapBase ET_DYN_MAP_SIZE 0 (fun _ => zeroCell 0) = _)
    -- the first segment is mapped where the room is
    obtain ⟨t, ht, hlooped, htset⟩ := mapSegment_spec .dyn file (l := [])
      (s := { mem := roomFor .dyn mapBase m, loadBias := TARGET_ELF_PAGESTART (mapBase - ph.vaddr) })
      ⟨rfl, rfl, rfl, rfl⟩ (hcong ph List.mem_cons_self) (Ascending.left (l := [ph]) hasc)
      (fun q hq => hle q (List.mem_append_left l hq))
    obtain ⟨u, hu, hfinal⟩ := foldlM_mapSegment .dyn mapBase file
      (fun q hq => hload q (List.mem_cons_of_mem _ hq)) [ph] (.inr htset) hlooped hle hcong hasc
    refine ⟨u, ?_, hfinal⟩
    have hbody : loadSegment .dyn mapBase file { mem := m } ph = .ok t := by
      unfold loadSegment reserveRoom
      have hne : mapBase ≠ -1 := by
        rintro rfl
        exact absurd hfound (by decide)
      rw [if_neg (not_not.mpr (hload ph List.mem_cons_self)), if_neg (by simp), if_neg hne, hroom]
      unfold roomFor at ht
      rw [hroom] at ht
      exact ht
    rw [List.foldlM_cons, hbody]
    exact hu

/-! ## What comes after the loop -/

section

variable (h : HostPages) (e b : Nat) (m : GuestMem)

/-- The pages of `set_brk`. -/
def brkMem : GuestMem := fun a =>
  if h.up e ≤ a ∧ a < h.up b ∧ h.up b < 2 ^ 32 then some (zeroCell (PROT_READ ||| PROT_WRITE ||| PROT_EXEC)) else m a

/-- `a` is in the part of the host page that no page of the file reaches. -/
def Fresh (a : Nat) : Prop := Align.up realPageBits e ≤ a ∧ a < h.up e ∧ h.up e < 2 ^ 32

instance (a : Nat) : Decidable (Fresh h e a) := inferInstanceAs (Decidable (_ ∧ _))

def freshMem : GuestMem := fun a =>
  if Fresh h e a then
    some { byte := 0, prot := PROT_READ ||| PROT_WRITE ||| PROT_EXEC, flags := ((m a).map Cell.flags).getD 0 }
  else m a

end

theorem setBrk_eq (h : HostPages) {start stop : Word} (hle : start ≤ stop) (m : GuestMem) :
    setBrk h start stop m = .ok (brkMem h start.toNat stop.toNat m) := by
  have hup := h.up_mono (BitVec.le_def.mp hle)
  have hstart := h.toNat_align start
  have hstop := h.toNat_align stop
  unfold setBrk brkMem
  dsimp only
  by_cases hfit : h.up stop.toNat < 2 ^ 32
  · rw [if_pos hfit] at hstop
    rw [if_pos (by omega)] at hstart
    split
    · rename_i hempty
      have hempty := BitVec.le_def.mp hempty
      congr 1
      funext a
      rw [if_neg (by omega)]
    · rename_i hlt
      have hlt := BitVec.lt_def.mp (BitVec.not_le.mp hlt)
      have hsub : (h.align stop - h.align start).toNat = h.up stop.toNat - h.up start.toNat := by
        rw [BitVec.toNat_sub_of_le (BitVec.le_of_lt (BitVec.lt_def.mpr hlt)), hstart, hstop]
      have hlen : (TARGET_PAGE_ALIGN (h.align stop - h.align start)).toNat = h.up stop.toNat - h.up start.toNat := by
        have hmod := h.align_mod start
        have hmod' := h.align_mod stop
        rw [pageAlign_of_aligned, hsub]
        rw [hsub]
        omega
      rw [targetMmap_eq (by decide) (and_not_pageMask_eq_zero.mpr (h.align_mod start)), hlen, hstart]
      apply congrArg Except.ok
      funext a
      have hrange : (h.up start.toNat ≤ a ∧ a < h.up start.toNat + (h.up stop.toNat - h.up start.toNat)) ↔
          (h.up start.toNat ≤ a ∧ a < h.up stop.toNat ∧ h.up stop.toNat < 2 ^ 32) := by omega
      exact if_congr hrange rfl rfl
  · rw [if_neg hfit] at hstop
    rw [if_pos (by rw [BitVec.le_def, hstop]; exact Nat.zero_le _)]
    congr 1
    funext a
    rw [if_neg fun hin => hfit hin.2.2]

/-! ### The bytes of `padzero` -/

/-- `put_user` would be let into the page, and the host stop it there. -/
def Faults (c : Option Cell) : Prop := ∃ x ∈ c, x.accessOk ∧ ¬hasFlag x.prot PROT_WRITE

instance (c : Option Cell) : Decidable (Faults c) := inferInstanceAs (Decidable (∃ x ∈ c, _))

def zeroed (c : Option Cell) : Option Cell := c.map fun x => if x.accessOk then { x with byte := 0 } else x

theorem putUserU8_ok {a : Word} {m : GuestMem} (h : ¬Faults (m a.toNat)) :
    putUserU8 0 a m = .ok (Function.update m a.toNat (zeroed (m a.toNat))) := by
  unfold putUserU8 zeroed
  cases hc : m a.toNat with
  | none =>
    have hsame : Function.update m a.toNat none = m := by rw [← hc, Function.update_eq_self]
    rw [Option.map_none, hsame]
  | some c =>
    dsimp only
    split
    · rename_i hok
      have hwrite : hasFlag c.prot PROT_WRITE := by
        by_contra hno
        exact h ⟨c, hc, hok, hno⟩
      rw [if_pos hwrite, Option.map_some, if_pos hok]
    · rename_i hok
      have hsame : Function.update m a.toNat (some c) = m := by rw [← hc, Function.update_eq_self]
      rw [Option.map_some, if_neg hok, hsame]

theorem putUserU8_error {a : Word} {m : GuestMem} (h : Faults (m a.toNat)) : putUserU8 0 a m = .error .wild := by
  obtain ⟨c, hc, hok, hno⟩ := h
  unfold putUserU8
  rw [Option.mem_def.mp hc]
  dsimp only
  rw [if_pos hok, if_neg hno]

theorem toNat_add_one {n : Nat} {a : Word} (h : a.toNat + (n + 1) ≤ 2 ^ 32) (hn : n ≠ 0) : (a + 1).toNat = a.toNat + 1 := by
  rw [BitVec.toNat_add, show (1 : Word).toNat = 1 from rfl, Nat.mod_eq_of_lt (by omega)]

theorem zeroBytes_ok : ∀ (n : Nat) (a : Word) (m : GuestMem), a.toNat + n ≤ 2 ^ 32 →
    (∀ x, a.toNat ≤ x → x < a.toNat + n → ¬Faults (m x)) →
    zeroBytes n a m = .ok fun x => if a.toNat ≤ x ∧ x < a.toNat + n then zeroed (m x) else m x
  | 0, a, m, _, _ => by
    unfold zeroBytes
    congr 1
    funext x
    rw [if_neg (by omega)]
  | n + 1, a, m, hfit, hno => by
    unfold zeroBytes
    rw [putUserU8_ok (hno a.toNat (Nat.le_refl _) (by omega))]
    show zeroBytes n (a + 1) _ = _
    have hrest : (a + 1).toNat = a.toNat + 1 ∨ n = 0 := by
      by_cases hn : n = 0
      · exact .inr hn
      · exact .inl (toNat_add_one hfit hn)
    rw [zeroBytes_ok n (a + 1) _ (by rcases hrest with hrest | hrest <;> omega)]
    · congr 1
      funext x
      by_cases hx : x = a.toNat
      · rw [hx, Function.update_self, if_neg (by omega), if_pos (by omega)]
      · rw [Function.update_of_ne hx]
        have hrange : ((a + 1).toNat ≤ x ∧ x < (a + 1).toNat + n) ↔ (a.toNat ≤ x ∧ x < a.toNat + (n + 1)) := by
          rcases hrest with hrest | hrest <;> omega
        exact if_congr hrange rfl rfl
    · intro x hlow hhigh
      have hx : x ≠ a.toNat := by rcases hrest with hrest | hrest <;> omega
      rw [Function.update_of_ne hx]
      exact hno x (by omega) (by omega)

theorem zeroBytes_error : ∀ (n : Nat) (a : Word) (m : GuestMem), a.toNat + n ≤ 2 ^ 32 →
    (∃ x, a.toNat ≤ x ∧ x < a.toNat + n ∧ Faults (m x)) → ∃ f, zeroBytes n a m = .error f
  | 0, a, m, _, ⟨x, hlow, hhigh, _⟩ => by omega
  | n + 1, a, m, hfit, ⟨x, hlow, hhigh, hx⟩ => by
    unfold zeroBytes
    by_cases ha : Faults (m a.toNat)
    · rw [putUserU8_error ha]
      exact ⟨_, rfl⟩
    · have hne : x ≠ a.toNat := by
        rintro rfl
        exact ha hx
      have hnext := toNat_add_one hfit (show n ≠ 0 by omega)
      rw [putUserU8_ok ha]
      apply zeroBytes_error n (a + 1) _ (by omega)
      refine ⟨x, by omega, by omega, ?_⟩
      rw [Function.update_of_ne hne]
      exact hx

/-- How many bytes `padzero` sets. -/
theorem padzero_count (h : HostPages) (e : Word) :
    (e &&& (h.size - 1) = 0 → h.up e.toNat = e.toNat) ∧
      (e &&& (h.size - 1) ≠ 0 → (h.size - (e &&& (h.size - 1))).toNat = h.up e.toNat - e.toNat) := by
  have hlow : (e &&& (h.size - 1)).toNat = e.toNat % 2 ^ h.bits := by
    rw [h.size_sub_one]
    exact Align.toNat_and_low e (Nat.le_of_lt h.lt_word)
  constructor
  · intro hzero
    rw [hzero] at hlow
    exact Align.up_of_dvd hlow.symm
  · intro hne
    have hmod : e.toNat % 2 ^ h.bits ≠ 0 := by
      intro hmod
      rw [hmod] at hlow
      exact hne (BitVec.eq_of_toNat_eq hlow)
    have hlt := Nat.mod_lt e.toNat (Nat.two_pow_pos h.bits)
    have hup : h.up e.toNat = e.toNat + (2 ^ h.bits - e.toNat % 2 ^ h.bits) := Align.up_of_not_dvd hmod
    have hle : e &&& (h.size - 1) ≤ h.size := by
      rw [BitVec.le_def, hlow, h.toNat_size]
      omega
    rw [BitVec.toNat_sub_of_le hle, hlow, h.toNat_size, hup, Nat.add_sub_cancel_left]

/-- The host's pages that `padzero` puts behind the last page of the file. -/
theorem mapRealPages_eq (h : HostPages) (e : Word) (m : GuestMem) : mapRealPages h e m = freshMem h e.toNat m := by
  have hend := h.toNat_align e
  have hend1 : ((e + (1 : Word) <<< realPageBits - 1) &&& ~~~((1 : Word) <<< realPageBits - 1)).toNat =
      if Align.up realPageBits e.toNat < 2 ^ 32 then Align.up realPageBits e.toNat else 0 :=
    HostPages.toNat_align ⟨realPageBits, by decide, by decide⟩ e
  have hle : Align.up realPageBits e.toNat ≤ h.up e.toNat := Align.up_le_up h.target_le
  unfold mapRealPages
  dsimp only
  generalize (e + (1 : Word) <<< realPageBits - 1) &&& ~~~((1 : Word) <<< realPageBits - 1) = end1 at hend1 ⊢
  generalize h.align e = end' at hend ⊢
  have hempty (hnone : ∀ a, ¬Fresh h e.toNat a) : m = freshMem h e.toNat m := by
    funext a
    unfold freshMem
    rw [if_neg (hnone a)]
  split
  · split
    · rename_i hlt
      have hlt' := BitVec.lt_def.mp hlt
      have hfit : h.up e.toNat < 2 ^ 32 := by
        by_contra hno
        rw [if_neg hno] at hend
        omega
      rw [if_pos hfit] at hend
      rw [if_pos (by omega)] at hend1
      funext a
      unfold hostMmap freshMem Fresh
      have hlen : (end' - end1).toNat = h.up e.toNat - Align.up realPageBits e.toNat := by
        rw [BitVec.toNat_sub_of_le (BitVec.le_of_lt hlt), hend, hend1]
      have hrange : (end1.toNat ≤ a ∧ a < end1.toNat + (end' - end1).toNat) ↔
          (Align.up realPageBits e.toNat ≤ a ∧ a < h.up e.toNat ∧ h.up e.toNat < 2 ^ 32) := by
        rw [hlen, hend1]
        omega
      exact if_congr hrange rfl rfl
    · rename_i hge
      apply hempty
      rintro a ⟨hlow, hhigh, hfit⟩
      rw [if_pos hfit] at hend
      rw [if_pos (by omega)] at hend1
      have hge := BitVec.le_def.mp (BitVec.not_lt.mp hge)
      omega
  · rename_i hsmall
    apply hempty
    rintro a ⟨hlow, hhigh, -⟩
    -- the pages are of one size
    have hbits : h.bits = realPageBits := by
      apply Nat.le_antisymm _ h.target_le
      have hsize := BitVec.le_def.mp (BitVec.not_lt.mp hsmall)
      rw [h.toNat_size] at hsize
      exact (Nat.pow_le_pow_iff_right (by decide)).mp hsize
    have hup : h.up e.toNat = Align.up realPageBits e.toNat := by rw [HostPages.up, hbits]
    omega

section

variable {h : HostPages} {e b : Word} {m : GuestMem}

/-- The memory after `padzero`. -/
def padMem (h : HostPages) (e : Nat) (m : GuestMem) : GuestMem := fun a =>
  if e ≤ a ∧ a < h.up e then zeroed (freshMem h e m a) else freshMem h e m a

theorem padzero_ok (hlt : e < b) (hno : ∀ a, e.toNat ≤ a → a < h.up e.toNat → ¬Faults (freshMem h e.toNat m a)) :
    padzero h e b m = .ok (padMem h e.toNat m) := by
  have hcount := padzero_count h e
  have hle := h.le_up e.toNat
  have htop := h.up_le e
  unfold padzero
  rw [if_neg (BitVec.not_le.mpr hlt), mapRealPages_eq]
  dsimp only
  split
  · rename_i hne
    rw [zeroBytes_ok _ _ _ (by rw [hcount.2 hne]; omega) (by rw [hcount.2 hne]; exact fun a h1 h2 => hno a h1 (by omega)),
      hcount.2 hne, Nat.add_sub_cancel' hle]
    rfl
  · rename_i hzero
    have hup := hcount.1 (not_not.mp hzero)
    congr 1
    funext a
    unfold padMem
    rw [if_neg (by omega)]

theorem padzero_error (hlt : e < b) (hex : ∃ a, e.toNat ≤ a ∧ a < h.up e.toNat ∧ Faults (freshMem h e.toNat m a)) :
    ∃ f, padzero h e b m = .error f := by
  have hcount := padzero_count h e
  have hle := h.le_up e.toNat
  have htop := h.up_le e
  obtain ⟨a, hlow, hhigh, ha⟩ := hex
  unfold padzero
  rw [if_neg (BitVec.not_le.mpr hlt), mapRealPages_eq]
  dsimp only
  split
  · rename_i hne
    apply zeroBytes_error
    · rw [hcount.2 hne]
      omega
    · exact ⟨a, hlow, by rw [hcount.2 hne]; omega, ha⟩
  · rename_i hzero
    have hup := hcount.1 (not_not.mp hzero)
    omega

end

/-! ## What the program finds -/

def Holds (c : Option Cell) (x : Byte) : Prop := ∃ y ∈ c, y.byte = x

def ReadsZero (c : Option Cell) : Prop := ∃ y ∈ c, y.prot ≠ 0 ∧ y.byte = 0

/-- The bytes of every segment, those of the file and the zeroes behind them. -/
def Loaded (file : List Byte) (phdrs : List Phdr) (s : LoadState) : Prop :=
  ∀ ph ∈ loads phdrs,
    (∀ i < ph.filesz.toNat, Holds (s.mem (ph.start s.loadBias + i)) (file.getD (ph.offset.toNat + i) 0)) ∧
    ∀ i, ph.filesz.toNat ≤ i → i < ph.memsz.toNat → ReadsZero (s.mem (ph.start s.loadBias + i))

/-- With file data up to `e` and memory up to `b`, `a` is set to zero after the loop, which leaves `c` there. -/
def Cleared (h : HostPages) (e b : Nat) (c : Option Cell) (a : Nat) : Prop :=
  e ≤ a ∧ (Fresh h e a ∨ (a < h.up e ∧ ∃ y ∈ c, y.accessOk) ∨ h.up e ≤ a ∧ h.up b < 2 ^ 32)

/-- `padzero` is let into no page where the host stops it. -/
def NoFault (h : HostPages) (e b : Nat) (m : GuestMem) : Prop :=
  e < b → ∀ a, e ≤ a → a < h.up e → Faults (m a) → Fresh h e a

section

variable {h : HostPages} {e b : Nat} {m : GuestMem} {a : Nat}

theorem readsZero_zeroed {c : Option Cell} (hno : ¬Faults c) :
    ReadsZero (zeroed c) ↔ ReadsZero c ∨ ∃ y ∈ c, y.accessOk := by
  cases c with
  | none => simp [ReadsZero, zeroed]
  | some y =>
    by_cases hok : y.accessOk
    · have hwrite : hasFlag y.prot PROT_WRITE := by
        by_contra hw
        exact hno ⟨y, rfl, hok, hw⟩
      have hprot : ¬y.prot = 0#32 := by
        intro hz
        rw [hz] at hwrite
        exact absurd hwrite (by decide)
      simp [ReadsZero, zeroed, hok, hprot]
    · simp [ReadsZero, zeroed, hok]

theorem freshMem_of_fresh (hf : Fresh h e a) : ReadsZero (freshMem h e m a) ∧ ¬Faults (freshMem h e m a) := by
  unfold freshMem
  rw [if_pos hf]
  constructor
  · exact ⟨_, rfl, show PROT_READ ||| PROT_WRITE ||| PROT_EXEC ≠ 0 by decide, rfl⟩
  · rintro ⟨y, hy, -, hw⟩
    cases hy
    exact hw (show hasFlag (PROT_READ ||| PROT_WRITE ||| PROT_EXEC) PROT_WRITE by decide)

theorem freshMem_of_not (hf : ¬Fresh h e a) : freshMem h e m a = m a := by
  unfold freshMem
  rw [if_neg hf]

theorem brkMem_below (ha : a < h.up e) : brkMem h e b m a = m a := by
  unfold brkMem
  rw [if_neg (by omega)]

/-- Below the end of the file data, nothing is done after the loop. -/
theorem padMem_below (ha : a < e) : padMem h e (brkMem h e b m) a = m a := by
  have hup := h.le_up e
  have hreal := Align.le_up realPageBits e
  unfold padMem
  rw [if_neg (by omega), freshMem_of_not, brkMem_below (by omega)]
  rintro ⟨hlow, -, -⟩
  omega

theorem readsZero_padMem (ha : a < b) (hno : e ≤ a → a < h.up e → Faults (m a) → Fresh h e a) :
    ReadsZero (padMem h e (brkMem h e b m) a) ↔ ReadsZero (m a) ∨ Cleared h e b (m a) a := by
  by_cases hlow : e ≤ a
  · unfold padMem Cleared
    by_cases hup : a < h.up e
    · rw [if_pos ⟨hlow, hup⟩]
      by_cases hf : Fresh h e a
      · have hzero := freshMem_of_fresh (m := brkMem h e b m) hf
        rw [readsZero_zeroed hzero.2]
        exact iff_of_true (.inl hzero.1) (.inr ⟨hlow, .inl hf⟩)
      · rw [freshMem_of_not hf, brkMem_below hup, readsZero_zeroed fun hfault => hf (hno hlow hup hfault)]
        have hnot : ¬h.up e ≤ a := Nat.not_le.mpr hup
        simp only [hlow, hf, hup, hnot, false_and, or_false, true_and, false_or]
    · have hf : ¬Fresh h e a := fun hf => hup hf.2.1
      have hge : h.up e ≤ a := Nat.not_lt.mp hup
      rw [if_neg fun hin => hup hin.2, freshMem_of_not hf]
      simp only [hlow, hf, hup, hge, false_and, true_and, false_or]
      unfold brkMem
      by_cases hfit : h.up b < 2 ^ 32
      · have hb := h.le_up b
        rw [if_pos ⟨hge, by omega, hfit⟩]
        exact iff_of_true ⟨_, rfl, show PROT_READ ||| PROT_WRITE ||| PROT_EXEC ≠ 0 by decide, rfl⟩ (.inr hfit)
      · rw [if_neg fun hin => hfit hin.2.2]
        exact ⟨.inl, fun hor => hor.resolve_right hfit⟩
  · rw [padMem_below (Nat.not_le.mp hlow)]
    exact ⟨.inl, fun hor => hor.resolve_right fun hcl => hlow hcl.1⟩

end

/-- `set_brk` and `padzero` together. -/
def finishBss (h : HostPages) (e b : Word) (m : GuestMem) : Result GuestMem := do
  let m ← setBrk h e b m
  padzero h e b m

theorem finishBss_ok {h : HostPages} {e b : Word} {m : GuestMem} (hle : e ≤ b) (hno : NoFault h e.toNat b.toNat m) :
    ∃ m', finishBss h e b m = .ok m' ∧ (∀ a < e.toNat, m' a = m a) ∧
      ∀ a < b.toNat, ReadsZero (m' a) ↔ ReadsZero (m a) ∨ Cleared h e.toNat b.toNat (m a) a := by
  unfold finishBss
  rw [setBrk_eq h hle]
  show ∃ m', padzero h e b _ = .ok m' ∧ _
  by_cases hlt : e < b
  · have hno := hno (BitVec.lt_def.mp hlt)
    rw [padzero_ok hlt]
    · exact ⟨_, rfl, fun a ha => padMem_below ha, fun a ha => readsZero_padMem ha (hno a)⟩
    · intro a hlow hup hfault
      by_cases hf : Fresh h e.toNat a
      · exact (freshMem_of_fresh hf).2 hfault
      · rw [freshMem_of_not hf, brkMem_below hup] at hfault
        exact hf (hno a hlow hup hfault)
  · have heq : e = b := BitVec.le_antisymm hle (BitVec.not_lt.mp hlt)
    subst heq
    have hsame : brkMem h e.toNat e.toNat m = m := by
      funext a
      unfold brkMem
      rw [if_neg (by omega)]
    unfold padzero
    rw [if_pos hle, hsame]
    refine ⟨m, rfl, fun _ _ => rfl, fun a ha => ⟨.inl, fun hor => hor.resolve_right fun hcl => ?_⟩⟩
    have := hcl.1
    omega

theorem finishBss_error {h : HostPages} {e b : Word} {m : GuestMem} (hle : e ≤ b) (hno : ¬NoFault h e.toNat b.toNat m) :
    ∃ f, finishBss h e b m = .error f := by
  unfold NoFault at hno
  push Not at hno
  obtain ⟨hlt, a, hlow, hup, hfault, hf⟩ := hno
  unfold finishBss
  rw [setBrk_eq h hle]
  apply padzero_error (BitVec.lt_def.mpr hlt)
  refine ⟨a, hlow, hup, ?_⟩
  rw [freshMem_of_not hf, brkMem_below hup]
  exact hfault

theorem loadSegments_eq {h : HostPages} {etype : ElfType} {mapBase : Word} {file : List Byte} {phdrs : List Phdr}
    {m : GuestMem} {s : LoadState} (hs : phdrs.foldlM (loadSegment etype mapBase file) { mem := m } = .ok s) :
    loadSegments h etype mapBase file phdrs m =
      (finishBss h (s.elfBss + s.loadBias) (s.elfBrk + s.loadBias) s.mem).map fun mem => { s.addBias with mem := mem } := by
  unfold loadSegments finishBss
  rw [hs]
  show (do
    let mem ← setBrk h (s.elfBss + s.loadBias) (s.elfBrk + s.loadBias) s.mem
    let mem ← padzero h (s.elfBss + s.loadBias) (s.elfBrk + s.loadBias) mem
    return { s.addBias with mem := mem }) = _
  cases setBrk h (s.elfBss + s.loadBias) (s.elfBrk + s.loadBias) s.mem with
  | error f => rfl
  | ok mem =>
    show (do
      let mem ← padzero h (s.elfBss + s.loadBias) (s.elfBrk + s.loadBias) mem
      return { s.addBias with mem := mem }) = Except.map _ (padzero h (s.elfBss + s.loadBias) (s.elfBrk + s.loadBias) mem)
    cases padzero h (s.elfBss + s.loadBias) (s.elfBrk + s.loadBias) mem with
    | error f => rfl
    | ok mem => rfl

/-- When the program finds everything: at a byte of file data the uppermost of the segments' pages of the file have
that byte; at a byte behind the data they are zero and can be read, unless the byte is in the last segment and is set
to zero after the loop; `padzero` is let into no page of the last segment where the host stops it. -/
structure Intact (h : HostPages) (file : List Byte) (bias : Word) (m : GuestMem) (l : List Phdr) : Prop where
  data : ∀ ph ∈ l, ∀ i < ph.filesz.toNat,
    Holds (covered file bias m l (ph.start bias + i)) (file.getD (ph.offset.toNat + i) 0)
  bss : ∀ ph ∈ l, ∀ i, ph.filesz.toNat ≤ i → i < ph.memsz.toNat →
    ReadsZero (covered file bias m l (ph.start bias + i)) ∨
      ∃ last ∈ l.getLast?, Cleared h (last.dataEnd bias) (last.memEnd bias) (covered file bias m l (ph.start bias + i))
        (ph.start bias + i)
  noFault : ∀ last ∈ l.getLast?, NoFault h (last.dataEnd bias) (last.memEnd bias) (covered file bias m l)

section

variable {bias : Word} {l : List Phdr}

/-- A segment is the last one, or ends where that one begins or below. -/
theorem Ascending.below_last {last ph : Phdr} (hasc : Ascending (Phdr.start bias) l) (hlast : last ∈ l.getLast?)
    (hph : ph ∈ l) : ph = last ∨ ph.memEnd bias ≤ last.start bias := by
  obtain ⟨l', rfl⟩ := List.getLast?_eq_some_iff.mp (Option.mem_def.mp hlast)
  rcases List.mem_append.mp hph with hin | hin
  · exact .inr ((List.pairwise_append.mp hasc.apart).2.2 ph hin last (List.mem_singleton_self _))
  · exact .inl (List.mem_singleton.mp hin)

theorem toNat_end {ph : Phdr} {size : Word} (hle : size ≤ ph.memsz) (hfits : ph.start bias + ph.memsz.toNat < 2 ^ 32) :
    (ph.vaddr + size + bias).toNat = ph.start bias + size.toNat := by
  have hcomm : ph.vaddr + size + bias = bias + ph.vaddr + size := by
    rw [add_right_comm, add_comm ph.vaddr bias]
  rw [hcomm]
  exact toNat_add_of_fits hle hfits

end

section

variable {h : HostPages} {file : List Byte} {bias : Word} {l : List Phdr} {last : Phdr} {room m' : GuestMem}

/-- What holds after the loop, with the zeroes of the last segment, is what holds in the end. -/
theorem intact_of_finish (hasc : Ascending (Phdr.start bias) l) (hle : ∀ ph ∈ l, ph.filesz ≤ ph.memsz)
    (hlast : last ∈ l.getLast?) (hno : NoFault h (last.dataEnd bias) (last.memEnd bias) (covered file bias room l))
    (hbelow : ∀ a < last.dataEnd bias, m' a = covered file bias room l a)
    (hzero : ∀ a < last.memEnd bias, ReadsZero (m' a) ↔
      ReadsZero (covered file bias room l a) ∨ Cleared h (last.dataEnd bias) (last.memEnd bias) (covered file bias room l a) a) :
    (∀ ph ∈ l, (∀ i < ph.filesz.toNat, Holds (m' (ph.start bias + i)) (file.getD (ph.offset.toNat + i) 0)) ∧
      ∀ i, ph.filesz.toNat ≤ i → i < ph.memsz.toNat → ReadsZero (m' (ph.start bias + i))) ↔
      Intact h file bias room l := by
  have hdata : ∀ ph ∈ l, ∀ i < ph.filesz.toNat, ph.start bias + i < last.dataEnd bias := by
    intro ph hph i hi
    have hsize := BitVec.le_def.mp (hle ph hph)
    rcases hasc.below_last hlast hph with rfl | hend
    · unfold Phdr.dataEnd
      omega
    · unfold Phdr.memEnd at hend
      unfold Phdr.dataEnd
      omega
  have hbytes : ∀ ph ∈ l, ∀ i < ph.memsz.toNat, ph.start bias + i < last.memEnd bias := by
    intro ph hph i hi
    rcases hasc.below_last hlast hph with rfl | hend
    · unfold Phdr.memEnd
      omega
    · unfold Phdr.memEnd at hend ⊢
      omega
  rw [Option.mem_def] at hlast
  constructor
  · intro hall
    constructor
    · intro ph hph i hi
      rw [← hbelow _ (hdata ph hph i hi)]
      exact (hall ph hph).1 i hi
    · intro ph hph i hlow hi
      have hread := (hzero _ (hbytes ph hph i hi)).mp ((hall ph hph).2 i hlow hi)
      exact hread.imp_right fun hcl => ⟨last, hlast, hcl⟩
    · intro q hq
      rw [Option.mem_def, hlast] at hq
      cases hq
      exact hno
  · rintro ⟨hin, hbss, -⟩ ph hph
    constructor
    · intro i hi
      rw [hbelow _ (hdata ph hph i hi)]
      exact hin ph hph i hi
    · intro i hlow hi
      apply (hzero _ (hbytes ph hph i hi)).mpr
      refine (hbss ph hph i hlow hi).imp_right ?_
      rintro ⟨q, hq, hcl⟩
      rw [Option.mem_def, hlast] at hq
      cases hq
      exact hcl

end

/-- The loader does right by every segment just when the image is `Intact`. -/
theorem loadSegments_loaded_iff (h : HostPages) (etype : ElfType) (mapBase : Word) (file : List Byte) (phdrs : List Phdr)
    (m : GuestMem) (hwf : WellFormed etype mapBase phdrs) :
    (∃ s, loadSegments h etype mapBase file phdrs m = .ok s ∧ Loaded file phdrs s) ↔
      Intact h file (biasOf etype mapBase (loads phdrs)) (roomFor etype mapBase m) (loads phdrs) := by
  by_cases hne : loads phdrs = []
  · have hloop : phdrs.foldlM (loadSegment etype mapBase file) { mem := m } = .ok { mem := m } := by
      rw [foldlM_loads, hne]
      rfl
    obtain ⟨m', hm', -⟩ := finishBss_ok (h := h) (e := 0 + 0) (b := 0 + 0) (m := m) (BitVec.le_refl _)
      fun hlt => absurd hlt (Nat.lt_irrefl _)
    have hok := loadSegments_eq (h := h) hloop
    rw [hm'] at hok
    apply iff_of_true
    · refine ⟨_, hok, fun ph hph => ?_⟩
      rw [hne] at hph
      cases hph
    · rw [hne]
      constructor
      · intro ph hph
        cases hph
      · intro ph hph
        cases hph
      · intro last hlast
        cases hlast
  · obtain ⟨s, hs, hloop⟩ := loop_spec hwf file m hne
    obtain ⟨last, hlast⟩ : ∃ last, last ∈ (loads phdrs).getLast? := ⟨_, List.getLast?_eq_some_getLast hne⟩
    have hmem := List.mem_of_getLast? hlast
    obtain ⟨hle, -, -, hasc, -⟩ := hwf
    generalize biasOf etype mapBase (loads phdrs) = bias at *
    generalize roomFor etype mapBase m = room at *
    have hbss : (s.elfBss + s.loadBias).toNat = last.dataEnd bias := by
      rw [hloop.elfBss, hloop.loadBias, Option.mem_def.mp hlast]
      exact toNat_end (hle last hmem) (hasc.fits last hmem)
    have hbrk : (s.elfBrk + s.loadBias).toNat = last.memEnd bias := by
      rw [hloop.elfBrk, hloop.loadBias, Option.mem_def.mp hlast]
      exact toNat_end (BitVec.le_refl _) (hasc.fits last hmem)
    have hend : s.elfBss + s.loadBias ≤ s.elfBrk + s.loadBias := by
      have hsize := BitVec.le_def.mp (hle last hmem)
      rw [BitVec.le_def, hbss, hbrk]
      unfold Phdr.dataEnd Phdr.memEnd
      omega
    rw [loadSegments_eq hs, hloop.mem]
    by_cases hno : NoFault h (last.dataEnd bias) (last.memEnd bias) (covered file bias room (loads phdrs))
    · obtain ⟨m', hm', hbelow, hzero⟩ := finishBss_ok hend (by rw [hbss, hbrk]; exact hno)
      rw [hbss] at hbelow
      rw [hbss, hbrk] at hzero
      rw [hm', ← intact_of_finish hasc hle hlast hno hbelow hzero, ← hloop.loadBias]
      constructor
      · rintro ⟨t, ht, hloaded⟩
        cases ht
        exact hloaded
      · intro hall
        exact ⟨_, rfl, hall⟩
    · obtain ⟨f, hf⟩ := finishBss_error hend (by rw [hbss, hbrk]; exact hno)
      rw [hf]
      apply iff_of_false
      · rintro ⟨t, ht, -⟩
        cases ht
      · exact fun hintact => hno (hintact.noFault last hlast)

/-- A segment with zeroes on a page of its own, and another segment above it. -/
def gapPhdrs : List Phdr :=
  [{ type := PT_LOAD, offset := 0, vaddr := 0x8048000, filesz := 0x10, memsz := 0x2000, flags := PF_R ||| PF_W },
    { type := PT_LOAD, offset := 0x1000, vaddr := 0x8050000, filesz := 4, memsz := 4, flags := PF_R }]

theorem gapPhdrs_wellFormed : WellFormed .exec 0 gapPhdrs where
  filesz_le := by decide +kernel
  congruent := by decide +kernel
  linked := ⟨by decide +kernel, by decide +kernel⟩
  loaded := ⟨by decide +kernel, by decide +kernel⟩
  found := fun hdyn => by cases hdyn

/-- Pages of the host as large as the target's. -/
def smallPages : HostPages := ⟨12, by decide, by decide⟩

theorem loadSegments_loaded_iff_gap :
    WellFormed .exec 0 gapPhdrs ∧
      ((∃ s, loadSegments smallPages .exec 0 (List.replicate 0x1004 0) gapPhdrs (fun _ => none) = .ok s ∧
          Loaded (List.replicate 0x1004 0) gapPhdrs s) ↔
        Intact smallPages (List.replicate 0x1004 0) (biasOf .exec 0 (loads gapPhdrs)) (roomFor .exec 0 fun _ => none)
          (loads gapPhdrs)) :=
  ⟨gapPhdrs_wellFormed, loadSegments_loaded_iff _ _ _ _ _ _ gapPhdrs_wellFormed⟩

theorem not_loadSegments_loaded :
    ¬∀ (h : HostPages) (etype : ElfType) (mapBase : Word) (file : List Byte) (phdrs : List Phdr) (m : GuestMem),
      WellFormed etype mapBase phdrs → ∃ s, loadSegments h etype mapBase file phdrs m = .ok s ∧ Loaded file phdrs s := by
  intro hall
  obtain ⟨s, hs, hloaded⟩ := hall smallPages .exec 0 (List.replicate 0x1004 0) gapPhdrs (fun _ => none) gapPhdrs_wellFormed
  -- nothing is mapped on the second page of the first segment
  have hgap : (loadSegments smallPages .exec 0 (List.replicate 0x1004 0) gapPhdrs fun _ => none).toOption.map
      (fun s => (s.mem 0x8049000, s.loadBias)) = some (none, 0) := by decide +kernel
  rw [hs] at hgap
  have hgap : (s.mem 0x8049000, s.loadBias) = (none, 0) := Option.some.inj hgap
  obtain ⟨hnone, hbias⟩ := Prod.mk.inj hgap
  obtain ⟨c, hc, -⟩ := (hloaded _ List.mem_cons_self).2 0x1000 (by decide) (by decide)
  rw [hbias] at hc
  have hc : s.mem 0x8049000 = some c := hc
  rw [hnone] at hc
  cases hc

end Unitrans
