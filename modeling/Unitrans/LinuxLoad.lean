/-
How the strings and tables get on the new program's stack: the strings are copied
backwards into pages of the loader, the pages onto the stack, and the tables
are pushed below them (`elfload.c`, `linuxload.c`). Writes to the guest are taken
to succeed. Addresses in the pages count from the first one.
-/
import Unitrans.Library.Align
import Unitrans.Library.Splice
import Unitrans.PageTable
import Unitrans.X86.Mem

namespace Unitrans

open X86 Splice

def MAX_ARG_PAGES : Nat := 33
def DLINFO_ITEMS : Word := 12
def TARGET_EFAULT : Word := 14

def pageSize : Nat := TARGET_PAGE_SIZE.toNat

/-! ## The pages of the strings -/

structure CString where
  chars : List Byte
  noNul : (0 : Byte) ∉ chars

namespace CString

def bytes (s : CString) : List Byte := s.chars ++ [0]

/-- What `tmp - tmp1` is after `while (*tmp++)`. -/
def len (s : CString) : Nat := s.bytes.length

end CString

/-- The pages of `linux_binprm`, where they are allocated. -/
abbrev ArgPages := Elems MAX_ARG_PAGES (Option (Elems pageSize Byte))

/-- A write of bytes from place `offset` of the page `pag` points to on. -/
def ArgPages.write (page : ArgPages) (pag : Option Nat) (offset : Nat) (bs : List Byte) : Result ArgPages :=
  match pag with
  | none => .error .wild
  | some k =>
    match page k with
    | none => .error .wild
    | some pg =>
      if offset + bs.length ≤ pageSize then .ok (Function.update page k (some (splice pg offset bs)))
      else .error .outOfBounds

/-- The variables of `copy_elf_strings` that outlive a string. -/
structure CopyState where
  page : ArgPages
  p : Nat
  offset : Int
  pag : Option Nat

/-- `if (--offset < 0)`, after `--p`. -/
def CopyState.enterPage (c : CopyState) : Result CopyState :=
  let offset := c.offset - 1
  if offset < 0 then do
    let k := c.p / pageSize
    let page ← match ← c.page.load k with
      | some _ => pure c.page
      | none => c.page.store k (some fun _ => 0)
    return { c with page := page, offset := c.p % pageSize, pag := some k }
  else return { c with offset := offset }

/-- The loop `while (len)`; `tmp` is `tmp1 + len` in every round. -/
def copyString (s : List Byte) (len : Nat) (c : CopyState) : Result CopyState :=
  if len = 0 then .ok c else do
    let len' := len - 1
    let c ← CopyState.enterPage { c with p := c.p - 1 }
    if len' = 0 ∨ c.offset = 0 then do
      let page ← c.page.write c.pag c.offset.toNat ((s.drop len').take 1)
      copyString s len' { c with page := page }
    else do
      let bytesToCopy := if (len' : Int) > c.offset then c.offset.toNat else len'
      let offset := c.offset.toNat - bytesToCopy
      let page ← c.page.write c.pag offset ((s.drop (len' - bytesToCopy)).take (bytesToCopy + 1))
      copyString s (len' - bytesToCopy) { c with page := page, p := c.p - bytesToCopy, offset := offset }
termination_by len

/-- The loop over the strings, the last one first. -/
def copyStrings : List CString → CopyState → Result (Nat × ArgPages)
  | [], c => .ok (c.p, c.page)
  | s :: rest, c =>
    if c.p < s.len then .ok (0, c.page) else do
      let c ← copyString s.bytes s.len c
      copyStrings rest c

def copyElfStrings (argv : List CString) (page : ArgPages) (p : Nat) : Result (Nat × ArgPages) :=
  if p = 0 then .ok (0, page) else copyStrings argv.reverse { page := page, p := p, offset := 0, pag := none }

/-- `bprm->p` at the start. -/
def loaderP : Nat := pageSize * MAX_ARG_PAGES - 4

/-- The three calls of `load_elf_binary`, from the pages of `loader_exec`. -/
def copyArgs (filename : CString) (argv envp : List CString) : Result (Nat × ArgPages) := do
  let (p, page) ← copyElfStrings [filename] (fun _ => none) loaderP
  let (p, page) ← copyElfStrings envp page p
  copyElfStrings argv page p

/-! ## The stack -/

/-- The part of `image_info` the tables are recorded in. -/
structure ImageInfo where
  rss : Word := 0
  stackLimit : Word := 0
  savedAuxv : Word := 0
  argStart : Word := 0
  argEnd : Word := 0

/-- The size of the stack, for `guest_stack_size`. -/
def stackSize (guestStackSize : Word) : Word :=
  if guestStackSize < BitVec.ofNat 32 MAX_ARG_PAGES * TARGET_PAGE_SIZE then BitVec.ofNat 32 MAX_ARG_PAGES * TARGET_PAGE_SIZE
  else guestStackSize

/-- The bytes of a page. -/
def pageBytes (pg : Elems pageSize Byte) : List Byte := (List.range pageSize).map pg

/-- The loop that copies the pages from page `i` on. -/
def putArgPages (page : ArgPages) : Nat → Nat → Word → Mem → ImageInfo → Mem × ImageInfo
  | 0, _, _, m, info => (m, info)
  | n + 1, i, stackBase, m, info =>
    let (m, info) := match page i with
      | some pg => (m.put stackBase (pageBytes pg), { info with rss := info.rss + 1 })
      | none => (m, info)
    putArgPages page n (i + 1) (stackBase + TARGET_PAGE_SIZE) m info

/-- `setup_arg_pages`, where `target_mmap` returned `error` and `m` is the memory with
the new pages in it. -/
def setupArgPages (guestStackSize error : Word) (p : Nat) (page : ArgPages) (m : Mem) (info : ImageInfo) :
    Result (Word × Mem × ImageInfo) :=
  if error = -1 then .error (.abort "stk mmap") else
  let info := { info with stackLimit := error }
  let stackBase := error + stackSize guestStackSize - BitVec.ofNat 32 MAX_ARG_PAGES * TARGET_PAGE_SIZE
  .ok (BitVec.ofNat 32 p + stackBase, putArgPages page MAX_ARG_PAGES 0 stackBase m info)

def qemuStrnlen (m : Mem) (s : Word) : Nat → Nat
  | 0 => 0
  | maxLen + 1 => if m s = 0 then 0 else qemuStrnlen m (s + 1) maxLen + 1

/-- The bytes from `a` to the end of its page. -/
def pageRest (a : Word) : Nat := pageSize - (a &&& ~~~TARGET_PAGE_MASK).toNat

theorem pageRest_eq (a : Word) : pageRest a = pageSize - a.toNat % pageSize := by
  rw [pageRest, show ~~~TARGET_PAGE_MASK = Align.low 32 12 by decide, Align.toNat_and_low a (by decide)]
  rfl

/-- The loop of `target_strlen` for the string at `guestAddr1`. -/
def targetStrlenFrom (m : Mem) (guestAddr1 guestAddr : Word) : Word :=
  let maxLen := pageRest guestAddr
  let len := qemuStrnlen m guestAddr maxLen
  let next := guestAddr + BitVec.ofNat 32 len
  if next = 0 ∨ 0x7fffffff < next - guestAddr1 then -TARGET_EFAULT
  else if len ≠ maxLen then next - guestAddr1
  else targetStrlenFrom m guestAddr1 next
termination_by 2 ^ 32 - guestAddr.toNat
decreasing_by
  have hnext : ¬(guestAddr + BitVec.ofNat 32 len = 0) := fun h => (by assumption : ¬(_ ∨ _)) (.inl h)
  have hfull : len = pageRest guestAddr := not_not.mp (by assumption)
  rw [hfull, pageRest_eq] at hnext
  show 2 ^ 32 - (guestAddr + BitVec.ofNat 32 len).toNat < 2 ^ 32 - guestAddr.toNat
  rw [hfull, pageRest_eq]
  rw [show pageSize = 4096 from rfl] at hnext ⊢
  bv_omega

def targetStrlen (m : Mem) (guestAddr : Word) : Word := targetStrlenFrom m guestAddr guestAddr

/-- A loop of `loader_build_argptr`: the table, the next string and the memory after it. -/
def putPointers : Nat → Word → Word → Mem → Word × Word × Mem
  | 0, table, stringp, m => (table, stringp, m)
  | n + 1, table, stringp, m =>
    let m := m.st32 table stringp
    putPointers n (table + 4) (stringp + (targetStrlen m stringp + 1)) m

def loaderBuildArgptr (envc argc sp stringp : Word) (pushPtr : Bool) (m : Mem) (info : ImageInfo) :
    Word × Mem × ImageInfo :=
  let sp := sp - (envc + 1) * 4
  let envp := sp
  let sp := sp - (argc + 1) * 4
  let argv := sp
  let (sp, m) := if pushPtr then (sp - 4 - 4, (m.st32 (sp - 4) envp).st32 (sp - 4 - 4) argv) else (sp, m)
  let sp := sp - 4
  let m := m.st32 sp argc
  let info := { info with argStart := stringp }
  let (argv, stringp, m) := putPointers argc.toInt.toNat argv stringp m
  let info := { info with argEnd := stringp }
  let m := m.st32 argv 0
  let (envp, _, m) := putPointers envc.toInt.toNat envp stringp m
  let m := m.st32 envp 0
  (sp, m, info)

/-! ## The auxiliary vector -/

/-- The values of the entries that come from elsewhere. -/
structure AuxValues where
  cpuidVersion : Word
  cpuidFeatures : Word
  phoff : Word
  phnum : BitVec 16
  entry : Word
  loadAddr : Word
  loadBias : Word
  interpLoadAddr : Word
  uid : Word
  euid : Word
  gid : Word
  egid : Word
  clkTck : Word

/-- `get_elf_platform`, with the NUL. -/
def elfPlatform (v : AuxValues) : List Byte :=
  let family := (v.cpuidVersion >>> 8) &&& 0xff
  let family := if 6 < family then 6 else family
  [0x69, if 3 ≤ family then 0x30 + family.setWidth 8 else 0x33, 0x38, 0x36, 0]

/-- The entries, in the order they are pushed. -/
def auxEntries (v : AuxValues) (uPlatform : Word) : List (Word × Word) :=
  [(0, 0),
    (3, v.loadAddr + v.phoff), (4, 32), (5, v.phnum.setWidth 32), (6, TARGET_PAGE_SIZE), (7, v.interpLoadAddr), (8, 0),
    (9, v.loadBias + v.entry), (11, v.uid), (12, v.euid), (13, v.gid), (14, v.egid), (16, v.cpuidFeatures), (17, v.clkTck),
    (15, uPlatform)]

/-- `NEW_AUX_ENT` -/
def newAuxEnt (s : Word × Mem) (e : Word × Word) : Word × Mem :=
  (s.1 - 4 - 4, (s.2.st32 (s.1 - 4) e.2).st32 (s.1 - 4 - 4) e.1)

def createElfTables (v : AuxValues) (p argc envc ibcs : Word) (m : Mem) (info : ImageInfo) : Word × Mem × ImageInfo :=
  let sp := p
  let kPlatform := elfPlatform v
  let len := BitVec.ofNat 32 kPlatform.length
  let sp := sp - ((len + 4 - 1) &&& ~~~(4 - 1))
  let uPlatform := sp
  let m := m.put sp kPlatform
  let sp := sp &&& ~~~15
  let size := (DLINFO_ITEMS + 1) * 2
  let size := size + 2
  let size := size + (envc + argc + 2)
  let size := size + if ibcs = 0 then 3 else 1
  let size := size * 4
  let sp := if size &&& 15 ≠ 0 then sp - (16 - (size &&& 15)) else sp
  let (sp, m) := (auxEntries v uPlatform).foldl newAuxEnt (sp, m)
  let info := { info with savedAuxv := sp }
  loaderBuildArgptr envc argc sp p (ibcs == 0) m info

end Unitrans
