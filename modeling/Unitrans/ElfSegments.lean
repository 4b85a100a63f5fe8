/-
How the segments of the new program get into the guest's memory: `load_elf_binary`
maps the file's part of each, and `set_brk` and `padzero` see to the rest of the
last one (`elfload.c`). `target_mmap` and `mmap` do what they say they do.
-/
import Unitrans.Library.Align
import Unitrans.PageTable

namespace Unitrans

open X86

def PT_LOAD : Word := 1
def PF_X : Word := 1
def PF_W : Word := 2
def PF_R : Word := 4
def PROT_READ : Word := 1
def PROT_WRITE : Word := 2
def PROT_EXEC : Word := 4
def ET_DYN_MAP_SIZE : Word := 128 * 1024 * 1024

def TARGET_ELF_PAGESTART (v : Word) : Word := v &&& ~~~(TARGET_PAGE_SIZE - 1)
def TARGET_ELF_PAGEOFFSET (v : Word) : Word := v &&& (TARGET_PAGE_SIZE - 1)

/-! ## The program's file -/

inductive ElfType
  | exec
  | dyn
  deriving DecidableEq

/-- A program header. -/
structure Phdr where
  type : Word
  offset : Word
  vaddr : Word
  filesz : Word
  memsz : Word
  flags : Word
  deriving DecidableEq

def Phdr.prot (ph : Phdr) : Word :=
  (if ph.flags &&& PF_R ≠ 0 then PROT_READ else 0) ||| (if ph.flags &&& PF_W ≠ 0 then PROT_WRITE else 0) |||
    (if ph.flags &&& PF_X ≠ 0 then PROT_EXEC else 0)

/-! ## The memory it is mapped into -/

/-- `qemu_host_page_size`, a power of two and no less than the target's. -/
structure HostPages where
  bits : Nat
  target_le : TARGET_PAGE_BITS ≤ bits
  lt_word : bits < 32

/-- `qemu_real_host_page_size` -/
def realPageBits : Nat := 12

namespace HostPages

def size (h : HostPages) : Word := (1 : Word) <<< h.bits

/-- `HOST_PAGE_ALIGN` -/
def align (h : HostPages) (addr : Word) : Word := (addr + h.size - 1) &&& ~~~(h.size - 1)

end HostPages

/-- A byte of a page: what the host lets the program do there, and what `page_set_flags`
recorded. -/
structure Cell where
  byte : Byte
  prot : Word
  flags : Word
  deriving DecidableEq

abbrev GuestMem := Nat → Option Cell

/-- `access_ok(VERIFY_WRITE, ..)` -/
def Cell.accessOk (c : Cell) : Bool := hasFlag c.flags PAGE_READ && hasFlag c.flags PAGE_WRITE

/-- Byte `i` of a mapping of the file. Past the page the file ends in, there is nothing to access. -/
def fileCell (file : List Byte) (offset prot : Word) (i : Nat) : Cell :=
  { byte := file.getD (offset.toNat + i) 0
    prot := if offset.toNat + i < Align.up TARGET_PAGE_BITS file.length then prot else 0
    flags := prot }

def zeroCell (prot : Word) : Cell := { byte := 0, prot := prot, flags := prot }

/-- `target_mmap` with `MAP_FIXED`. -/
def targetMmap (m : GuestMem) (start len offset : Word) (cell : Nat → Cell) : Option GuestMem :=
  if offset &&& ~~~TARGET_PAGE_MASK ≠ 0 ∨ start &&& ~~~TARGET_PAGE_MASK ≠ 0 then none
  else some fun a =>
    if start.toNat ≤ a ∧ a < start.toNat + (TARGET_PAGE_ALIGN len).toNat then some (cell (a - start.toNat)) else m a

/-- The host's own `mmap`, of pages of zeroes: `page_set_flags` is not called. -/
def hostMmap (m : GuestMem) (start len : Word) : GuestMem := fun a =>
  if start.toNat ≤ a ∧ a < start.toNat + len.toNat then
    some { byte := 0, prot := PROT_READ ||| PROT_WRITE ||| PROT_EXEC, flags := ((m a).map Cell.flags).getD 0 }
  else m a

def putUserU8 (x : Byte) (gaddr : Word) (m : GuestMem) : Result GuestMem :=
  match m gaddr.toNat with
  | none => .ok m
  | some c =>
    if c.accessOk then
      if hasFlag c.prot PROT_WRITE then .ok (Function.update m gaddr.toNat (some { c with byte := x })) else .error .wild
    else .ok m

/-! ## The loop over the program headers -/

/-- The variables of `load_elf_binary` in the loop. -/
structure LoadState where
  mem : GuestMem
  loadAddr : Word := 0
  loadBias : Word := 0
  loadAddrSet : Bool := false
  elfBss : Word := 0
  elfBrk : Word := 0
  startCode : Word := -1
  endCode : Word := 0
  startData : Word := 0
  endData : Word := 0

/-- The additions of `load_bias` after the loop. -/
def LoadState.addBias (s : LoadState) : LoadState :=
  { s with
    elfBss := s.elfBss + s.loadBias
    elfBrk := s.elfBrk + s.loadBias
    startCode := s.startCode + s.loadBias
    endCode := s.endCode + s.loadBias
    startData := s.startData + s.loadBias
    endData := s.endData + s.loadBias }

section

variable (etype : ElfType) (mapBase : Word) (file : List Byte)

/-- Room for an `ET_DYN` program, where its first segment comes; `target_mmap` returned `mapBase`. -/
def reserveRoom (s : LoadState) (ph : Phdr) : Result LoadState :=
  if etype = .exec ∨ s.loadAddrSet then .ok s
  else if mapBase = -1 then .error (.abort "mmap")
  else match targetMmap s.mem mapBase ET_DYN_MAP_SIZE 0 fun _ => zeroCell 0 with
    | none => .error (.abort "mmap")
    | some mem => .ok { s with mem := mem, loadBias := TARGET_ELF_PAGESTART (mapBase - ph.vaddr) }

def mapSegment (s : LoadState) (ph : Phdr) : Result LoadState :=
  let start := TARGET_ELF_PAGESTART (s.loadBias + ph.vaddr)
  let offset := ph.offset - TARGET_ELF_PAGEOFFSET ph.vaddr
  match targetMmap s.mem start (ph.filesz + TARGET_ELF_PAGEOFFSET ph.vaddr) offset (fileCell file offset ph.prot) with
  | none => .error (.abort "mmap")
  | some mem =>
    let bias := if etype = .dyn ∧ ¬s.loadAddrSet then
        s.loadBias + (start - TARGET_ELF_PAGESTART (s.loadBias + ph.vaddr))
      else s.loadBias
    let loadAddr := if s.loadAddrSet then s.loadAddr
      else ph.vaddr - ph.offset + if etype = .dyn then bias else 0
    let k := ph.vaddr
    let startCode := if k < s.startCode then k else s.startCode
    let startData := if s.startData < k then k else s.startData
    let k := ph.vaddr + ph.filesz
    let elfBss := if s.elfBss < k then k else s.elfBss
    let endCode := if ph.flags &&& PF_X ≠ 0 ∧ s.endCode < k then k else s.endCode
    let endData := if s.endData < k then k else s.endData
    let k := ph.vaddr + ph.memsz
    let elfBrk := if s.elfBrk < k then k else s.elfBrk
    .ok { mem, loadAddr, loadBias := bias, loadAddrSet := true, elfBss, elfBrk, startCode, endCode, startData, endData }

/-- The body of the loop. -/
def loadSegment (s : LoadState) (ph : Phdr) : Result LoadState :=
  if ph.type ≠ PT_LOAD then .ok s else do
    let s ← reserveRoom etype mapBase s ph
    mapSegment etype file s ph

end

/-! ## What comes after the file's part -/

/-- `set_brk`, from `start` to `stop`. -/
def setBrk (h : HostPages) (start stop : Word) (m : GuestMem) : Result GuestMem :=
  let start := h.align start
  let stop := h.align stop
  if stop ≤ start then .ok m
  else match targetMmap m start (stop - start) 0 fun _ => zeroCell (PROT_READ ||| PROT_WRITE ||| PROT_EXEC) with
    | none => .error (.abort "cannot mmap brk")
    | some m => .ok m

/-- The loop of `padzero`. -/
def zeroBytes : Nat → Word → GuestMem → Result GuestMem
  | 0, _, m => .ok m
  | nbyte + 1, elfBss, m => do
    let m ← putUserU8 0 elfBss m
    zeroBytes nbyte (elfBss + 1) m

/-- The `mmap` of `padzero`: some of the host's own pages after the end of the file may not be mapped. -/
def mapRealPages (h : HostPages) (elfBss : Word) (m : GuestMem) : GuestMem :=
  let real := (1 : Word) <<< realPageBits
  if real < h.size then
    let endAddr1 := (elfBss + real - 1) &&& ~~~(real - 1)
    let endAddr := h.align elfBss
    if endAddr1 < endAddr then hostMmap m endAddr1 (endAddr - endAddr1) else m
  else m

def padzero (h : HostPages) (elfBss lastBss : Word) (m : GuestMem) : Result GuestMem :=
  if lastBss ≤ elfBss then .ok m else
  let m := mapRealPages h elfBss m
  let nbyte := elfBss &&& (h.size - 1)
  if nbyte ≠ 0 then zeroBytes (h.size - nbyte).toNat elfBss m else .ok m

/-- The loop of `load_elf_binary`, `set_brk` and `padzero`. -/
def loadSegments (h : HostPages) (etype : ElfType) (mapBase : Word) (file : List Byte) (phdrs : List Phdr)
    (m : GuestMem) : Result LoadState := do
  let s ← phdrs.foldlM (loadSegment etype mapBase file) { mem := m }
  let s := s.addBias
  let mem ← setBrk h s.elfBss s.elfBrk s.mem
  let mem ← padzero h s.elfBss s.elfBrk mem
  return { s with mem := mem }

end Unitrans
