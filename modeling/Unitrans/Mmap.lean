/-
The guest's address space (`linux-user/mmap.c`): the calls by which the guest maps, protects, moves and unmaps memory,
over the page flags and over what the host has mapped. A host page may be larger than a page of the guest's, and what
the guest asks for part of a host page is done to all of it.
-/
import Unitrans.ElfSegments

namespace Unitrans

open X86

/-! ## Constants -/

def PAGE_BITS : Word := PAGE_READ ||| PAGE_WRITE ||| 0x0004

def PROT_NONE : Word := 0
def MAP_SHARED : Word := 0x01
def MAP_PRIVATE : Word := 0x02
def MAP_TYPE : Word := 0x0f
def MAP_FIXED : Word := 0x10
def MAP_ANONYMOUS : Word := 0x20
def MAP_NORESERVE : Word := 0x4000
def MREMAP_MAYMOVE : Word := 1
def MREMAP_FIXED : Word := 2

/-- `-EINVAL` -/
def negEINVAL : Word := -22

def TASK_UNMAPPED_BASE : Word := 0x40000000

/-! ## The host -/

/-- What the host has mapped: the protection of each of its pages, if it is mapped. Addresses are the guest's: `g2h` adds
the same number to all. -/
abbrev HostMap := Nat → Option Word

/-- The arguments of the host's `mmap`. -/
structure MmapCall where
  addr : Word
  len : Word
  prot : Word
  flags : Word
  fd : Word
  offset : Word
  deriving DecidableEq

/-- The host's system calls. What maps memory returns its address, or nothing for `MAP_FAILED`; the others return 0, or -1
when they fail. -/
structure Kernel where
  mmap : HostMap → MmapCall → Option Word × HostMap
  munmap : HostMap → (addr len : Word) → Word × HostMap
  mprotect : HostMap → (addr len prot : Word) → Word × HostMap
  mremap : HostMap → (oldAddr oldSize newSize flags newAddr : Word) → Option Word × HostMap
  /-- `pread(fd, buf, count, offset)` does not return -1 -/
  pread : (fd buf count offset : Word) → Bool

/-- Settings of the emulator: `RESERVED_VA` and `mmap_min_addr`. -/
structure Settings where
  reservedVa : Word
  mmapMinAddr : Word

namespace HostPages

/-- `qemu_host_page_mask` -/
def mask (h : HostPages) : Word := ~~~(h.size - 1)

end HostPages

/-- `l1_map`, what the host has mapped, and `mmap_next_start`. -/
structure Vm where
  pages : L1Map
  host : HostMap
  mmapNextStart : Word

namespace Vm

variable (h : HostPages) (c : Settings) (K : Kernel)

def pageSetFlags (s : Vm) (start end_ flags : Word) : Result Vm := do
  let pages ← Unitrans.pageSetFlags s.pages start end_ flags
  return { s with pages := pages }

/-- `for (addr = start; addr < end; addr += TARGET_PAGE_SIZE) prot |= page_get_flags(addr)` -/
def orFlags (m : L1Map) (end_ : Word) : Nat → Word → Word → Word
  | 0, _, prot => prot
  | n + 1, addr, prot =>
    if addr < end_ then orFlags m end_ n (addr + TARGET_PAGE_SIZE) (prot ||| pageGetFlags m addr) else prot

/-- The loop, which visits no more pages than there are. -/
def orPageFlags (m : L1Map) (start end_ prot : Word) : Word := orFlags m end_ (2 ^ 20) start prot

/-! ## Protecting -/

/-- What is left of a range to protect: the host pages, and the guest's end of it. -/
structure Rest where
  hostStart : Word
  hostEnd : Word
  end_ : Word

def callMprotect (s : Vm) (addr len prot : Word) : Word × Vm :=
  let (ret, host) := K.mprotect s.host addr len prot
  (ret, { s with host := host })

/-- `if (start > host_start) { .. }`: the host page that contains `start` -/
def mprotectStart (s : Vm) (start prot : Word) (r : Rest) : Word × Rest × Vm :=
  if r.hostStart < start then
    let prot1 := orPageFlags s.pages r.hostStart start prot
    let single := r.hostEnd = r.hostStart + h.size
    let prot1 := if single then orPageFlags s.pages r.end_ r.hostEnd prot1 else prot1
    let (ret, s) := s.callMprotect K r.hostStart h.size (prot1 &&& PAGE_BITS)
    (ret, { hostStart := r.hostStart + h.size, hostEnd := r.hostEnd, end_ := if single then r.hostEnd else r.end_ }, s)
  else (0, r, s)

/-- `if (end < host_end) { .. }`: the host page that contains `end` -/
def mprotectEnd (s : Vm) (prot : Word) (r : Rest) : Word × Rest × Vm :=
  if r.end_ < r.hostEnd then
    let prot1 := orPageFlags s.pages r.end_ r.hostEnd prot
    let (ret, s) := s.callMprotect K (r.hostEnd - h.size) h.size (prot1 &&& PAGE_BITS)
    (ret, { r with hostEnd := r.hostEnd - h.size }, s)
  else (0, r, s)

def targetMprotect (s : Vm) (start len prot : Word) : Result (Word × Vm) :=
  if start &&& ~~~TARGET_PAGE_MASK ≠ 0 then .ok (negEINVAL, s) else
  let len := TARGET_PAGE_ALIGN len
  let end_ := start + len
  if end_ < start then .ok (negEINVAL, s) else
  let prot := prot &&& (PROT_READ ||| PROT_WRITE ||| PROT_EXEC)
  if len = 0 then .ok (0, s) else
  let (ret, r, s) := s.mprotectStart h K start prot { hostStart := start &&& h.mask, hostEnd := h.align end_, end_ := end_ }
  if ret ≠ 0 then .ok (ret, s) else
  let (ret, r, s) := s.mprotectEnd h K prot r
  if ret ≠ 0 then .ok (ret, s) else
  -- handle the pages in the middle
  let (ret, s) := if r.hostStart < r.hostEnd then s.callMprotect K r.hostStart (r.hostEnd - r.hostStart) prot else (0, s)
  if ret ≠ 0 then .ok (ret, s) else do
  let s ← s.pageSetFlags start (start + len) (prot ||| PAGE_VALID)
  return (0, s)

/-! ## Looking for room -/

/-- The loop of `mmap_find_vma_reserved`, with `last_addr` and `addr` where it ends, or nothing for -1. -/
def findVmaReserved (m : L1Map) (size : Word) : Nat → (lastAddr addr : Word) → (looped : Bool) → Result (Option (Word × Word))
  | 0, _, _, _ => .error .hang
  | n + 1, lastAddr, addr, looped =>
    if lastAddr + size = addr then .ok (some (lastAddr, addr))
    else if c.reservedVa ≤ lastAddr + size ∨ lastAddr + size < lastAddr then
      if looped then .ok none else findVmaReserved m size n h.size (0 + h.size) true
    else findVmaReserved m size n (if pageGetFlags m addr ≠ 0 then addr + h.size else lastAddr) (addr + h.size) looped

def mmapFindVmaReserved (s : Vm) (start size : Word) : Result (Word × Vm) :=
  if c.reservedVa < size then .ok (-1, s) else do
  -- each of the two passes visits no more pages than there are
  match ← findVmaReserved h c s.pages size (2 ^ 22) start start false with
  | none => return (-1, s)
  | some (lastAddr, addr) => return (lastAddr, { s with mmapNextStart := addr })

/-- Where to try next, when the host's `ptr` is not aligned for the guest, by how often it has been returned. -/
def nextTry (ptr : Word) : Nat → Word
  | 0 => TARGET_PAGE_ALIGN ptr
  | 1 => ptr &&& TARGET_PAGE_MASK
  | 2 => 0
  | _ => -1

/-- The loop of `mmap_find_vma`; on a host with addresses as long as the guest's every pointer is one of the guest's. -/
def findVma (start size : Word) : Nat → Vm → (addr prev : Word) → (wrapped : Bool) → (again : Nat) → Result (Word × Vm)
  | 0, _, _, _, _, _ => .error .hang
  | n + 1, s, addr, prev, wrapped, again =>
    match K.mmap s.host ⟨addr, size, PROT_NONE, MAP_ANONYMOUS ||| MAP_PRIVATE ||| MAP_NORESERVE, -1, 0⟩ with
    | (none, host) => .ok (-1, { s with host := host })
    | (some ptr, host) =>
      let again := if ptr = prev then again + 1 else 0
      if ptr &&& ~~~TARGET_PAGE_MASK = 0 then
        .ok (ptr, { s with
          host := host
          mmapNextStart :=
            if start = s.mmapNextStart ∧ TASK_UNMAPPED_BASE ≤ ptr then ptr + size else s.mmapNextStart })
      else
        let addr := nextTry ptr again
        let s := { s with host := (K.munmap host ptr size).2 }
        if addr = -1 then .ok (-1, s)
        else if addr = 0 then
          if wrapped then .ok (-1, s)
          else
            let low := if TARGET_PAGE_SIZE < c.mmapMinAddr then TARGET_PAGE_ALIGN c.mmapMinAddr else TARGET_PAGE_SIZE
            findVma start size n s low ptr true again
        else if wrapped ∧ start ≤ addr then .ok (-1, s)
        else findVma start size n s addr ptr wrapped again

def mmapFindVma (s : Vm) (start size : Word) : Result (Word × Vm) :=
  let start := if start = 0 then s.mmapNextStart else start &&& h.mask
  let size := h.align size
  if c.reservedVa ≠ 0 then s.mmapFindVmaReserved h c start size
  else findVma c K start size (2 ^ 32) s start 0 false 0

/-! ## Mapping -/

/-- The protection of the guest's pages at the addresses of a host page that are not in a mapping: the loop over the
bytes of the page. -/
def fragFlags (m : L1Map) (realEnd start end_ : Word) : Nat → Word → Word → Word
  | 0, _, prot1 => prot1
  | n + 1, addr, prot1 =>
    if addr < realEnd then
      fragFlags m realEnd start end_ n (addr + 1)
        (if addr < start ∨ end_ ≤ addr then prot1 ||| pageGetFlags m addr else prot1)
    else prot1

/-- A call the result of which is not looked at. -/
def ignoreMprotect (s : Vm) (addr len prot : Word) : Vm := (s.callMprotect K addr len prot).2

/-- `mmap_frag` once the page is there, `prot1` being its protection so far. -/
def fragProtect (s : Vm) (realStart start end_ prot flags fd offset prot1 : Word) : Word × Vm :=
  let protNew := prot ||| prot1
  if flags &&& MAP_ANONYMOUS = 0 then
    if flags &&& MAP_TYPE = MAP_SHARED ∧ prot &&& PROT_WRITE ≠ 0 then (-1, s)
    else
      -- adjust protection to be able to read
      let s := if prot1 &&& PROT_WRITE = 0 then s.ignoreMprotect K realStart h.size (prot1 ||| PROT_WRITE) else s
      if K.pread fd start (end_ - start) offset then
        (0, if protNew ≠ (prot1 ||| PROT_WRITE) then s.ignoreMprotect K realStart h.size protNew else s)
      else (-1, s)
  else (0, if protNew ≠ prot1 then s.ignoreMprotect K realStart h.size protNew else s)

def mmapFrag (s : Vm) (realStart start end_ prot flags fd offset : Word) : Word × Vm :=
  let prot1 := fragFlags s.pages (realStart + h.size) start end_ h.size.toNat realStart 0
  if prot1 = 0 then
    -- no page was there, so we allocate one
    match K.mmap s.host ⟨realStart, h.size, prot, flags ||| MAP_ANONYMOUS, -1, 0⟩ with
    | (none, host) => (-1, { s with host := host })
    | (some _, host) => fragProtect h K { s with host := host } realStart start end_ prot flags fd offset (prot &&& PAGE_BITS)
  else fragProtect h K s realStart start end_ prot flags fd offset (prot1 &&& PAGE_BITS)

/-- What is mapped, the arguments of `target_mmap`. -/
structure Request where
  start : Word
  len : Word
  prot : Word
  flags : Word
  fd : Word
  offset : Word
  deriving DecidableEq

variable (q : Request)

/-- `the_end1` -/
def mmapEnd (s : Vm) (start len : Word) : Result (Word × Vm) := do
  let s ← s.pageSetFlags start (start + len) (q.prot ||| PAGE_VALID)
  return (start, s)

/-- The branch without `MAP_FIXED`. -/
def mmapAnywhere (s : Vm) (len : Word) : Result (Word × Vm) := do
  let hostOffset := q.offset &&& h.mask
  let hostLen := h.align (len + q.offset - hostOffset)
  let (mmapStart, s) ← s.mmapFindVma h c K (q.start &&& h.mask) hostLen
  if mmapStart = -1 then return (-1, s) else
  match K.mmap s.host ⟨mmapStart, hostLen, q.prot, q.flags ||| MAP_FIXED ||| MAP_ANONYMOUS, -1, 0⟩ with
  | (none, host) => return (-1, { s with host := host })
  | (some p, host) =>
    if q.flags &&& MAP_ANONYMOUS = 0 then
      -- whether the file has been mapped is not looked at
      let (_, host) := K.mmap host ⟨mmapStart, len, q.prot, q.flags ||| MAP_FIXED, q.fd, hostOffset⟩
      mmapEnd q { s with host := host } (p + (q.offset - hostOffset)) len
    else mmapEnd q { s with host := host } p len

/-- The start of a mapping at a fixed address, if it is within a host page. The first value is whether the host page is
all there is; the second is the new `real_start`, or nothing for `fail`. -/
def mmapStart (s : Vm) (end_ realStart realEnd : Word) : Bool × Option Word × Vm :=
  if realStart < q.start then
    if realEnd = realStart + h.size then
      -- one single host page
      let (ret, s) := s.mmapFrag h K realStart q.start end_ q.prot q.flags q.fd q.offset
      (true, if ret = -1 then none else some realStart, s)
    else
      let (ret, s) := s.mmapFrag h K realStart q.start (realStart + h.size) q.prot q.flags q.fd q.offset
      (false, if ret = -1 then none else some (realStart + h.size), s)
  else (false, some realStart, s)

/-- The end of a mapping at a fixed address, if it is within a host page: the new `real_end`, or nothing for `fail`. -/
def mmapTail (s : Vm) (end_ realEnd : Word) : Option Word × Vm :=
  if end_ < realEnd then
    let (ret, s) := s.mmapFrag h K (realEnd - h.size) (realEnd - h.size) realEnd q.prot q.flags q.fd
      (q.offset + realEnd - h.size - q.start)
    (if ret = -1 then none else some (realEnd - h.size), s)
  else (some realEnd, s)

/-- `map the middle (easier)`: whether it has been mapped -/
def mmapMiddle (s : Vm) (realStart realEnd : Word) : Bool × Vm :=
  if realStart < realEnd then
    let offset1 := if q.flags &&& MAP_ANONYMOUS ≠ 0 then 0 else q.offset + realStart - q.start
    let (p, host) := K.mmap s.host ⟨realStart, realEnd - realStart, q.prot, q.flags, q.fd, offset1⟩
    (p.isSome, { s with host := host })
  else (true, s)

/-- The branch for `MAP_FIXED`, the offset being aligned as the address is. -/
def mmapFixed (s : Vm) (len : Word) : Result (Word × Vm) :=
  let end_ := q.start + len
  let realEnd := h.align end_
  match s.mmapStart h K q end_ (q.start &&& h.mask) realEnd with
  | (_, none, s) => .ok (-1, s)
  | (true, some _, s) => mmapEnd q s q.start len
  | (false, some realStart, s) =>
    match s.mmapTail h K q end_ realEnd with
    | (none, s) => .ok (-1, s)
    | (some realEnd, s) =>
      match s.mmapMiddle K q realStart realEnd with
      | (false, s) => .ok (-1, s)
      | (true, s) => mmapEnd q s q.start len

end Vm

/-- The body of `target_mmap`, which calls itself at most once. The host's pages are no smaller than the guest's, so that no
file is cut off at its end. -/
def Vm.targetMmapAt (h : HostPages) (c : Settings) (K : Kernel) : (depth : Nat) → Vm → Vm.Request → Result (Word × Vm)
  | 0, _, _ => .error .hang
  | n + 1, s, q =>
    if q.offset &&& ~~~TARGET_PAGE_MASK ≠ 0 then .ok (-1, s) else
    let len := TARGET_PAGE_ALIGN q.len
    if len = 0 then .ok (q.start, s) else
    if q.flags &&& MAP_FIXED = 0 then s.mmapAnywhere h c K q len else
    if q.start &&& ~~~TARGET_PAGE_MASK ≠ 0 then .ok (-1, s) else
    -- the sum does not fit an `unsigned long` of this host
    if q.flags &&& MAP_ANONYMOUS = 0 ∧ q.offset &&& ~~~h.mask ≠ q.start &&& ~~~h.mask then
      if q.flags &&& MAP_TYPE = MAP_SHARED ∧ q.prot &&& PROT_WRITE ≠ 0 then .ok (-1, s) else do
      let (retaddr, s) ← targetMmapAt h c K n s
        ⟨q.start, len, q.prot ||| PROT_WRITE, MAP_FIXED ||| MAP_PRIVATE ||| MAP_ANONYMOUS, -1, 0⟩
      if retaddr = -1 then return (-1, s) else
      if !K.pread q.fd q.start len q.offset then return (-1, s) else
      if q.prot &&& PROT_WRITE = 0 then do
        let (ret, s) ← s.targetMprotect h K q.start len q.prot
        return (if ret ≠ 0 then ret else q.start, s)
      else return (q.start, s)
    else s.mmapFixed h K q len

namespace Vm

variable (h : HostPages) (c : Settings) (K : Kernel)

def targetMmap (s : Vm) (q : Request) : Result (Word × Vm) := targetMmapAt h c K 2 s q

/-! ## Unmapping -/

/-- The host pages of a range, less those with flags outside it; `target_munmap` and `mmap_reserve` share it. -/
def wholePages (m : L1Map) (start end_ : Word) : Word × Word :=
  let realStart := start &&& h.mask
  let realEnd := h.align end_
  let (realStart, end_) :=
    if realStart < start then
      let prot := orPageFlags m realStart start 0
      let single := realEnd = realStart + h.size
      let prot := if single then orPageFlags m end_ realEnd prot else prot
      (if prot ≠ 0 then realStart + h.size else realStart, if single then realEnd else end_)
    else (realStart, end_)
  let realEnd :=
    if end_ < realEnd then if orPageFlags m end_ realEnd 0 ≠ 0 then realEnd - h.size else realEnd
    else realEnd
  (realStart, realEnd)

def mmapReserve (s : Vm) (start size : Word) : Vm :=
  let (realStart, realEnd) := wholePages h s.pages start (start + size)
  if realStart ≠ realEnd then
    { s with
      host := (K.mmap s.host ⟨realStart, realEnd - realStart, PROT_NONE,
        MAP_FIXED ||| MAP_ANONYMOUS ||| MAP_PRIVATE ||| MAP_NORESERVE, -1, 0⟩).2 }
  else s

def targetMunmap (s : Vm) (start len : Word) : Result (Word × Vm) :=
  if start &&& ~~~TARGET_PAGE_MASK ≠ 0 then .ok (negEINVAL, s) else
  let len := TARGET_PAGE_ALIGN len
  if len = 0 then .ok (negEINVAL, s) else
  let (realStart, realEnd) := wholePages h s.pages start (start + len)
  let (ret, s) :=
    -- unmap what we can
    if realStart < realEnd then
      if c.reservedVa ≠ 0 then (0, s.mmapReserve h K realStart (realEnd - realStart))
      else
        let (ret, host) := K.munmap s.host realStart (realEnd - realStart)
        (ret, { s with host := host })
    else (0, s)
  if ret = 0 then do
    let s ← s.pageSetFlags start (start + len) 0
    return (0, s)
  else .ok (ret, s)

/-! ## Moving -/

/-- `for (addr = start; addr < end; addr++) prot |= page_get_flags(addr)` -/
def orByteFlags (m : L1Map) (end_ : Word) : Nat → Word → Word → Word
  | 0, _, prot => prot
  | n + 1, addr, prot => if addr < end_ then orByteFlags m end_ n (addr + 1) (prot ||| pageGetFlags m addr) else prot

/-- What the host is asked for, by `flags`. -/
def callMremap (s : Vm) (oldAddr oldSize newSize flags newAddr : Word) : Result (Option Word × Vm) :=
  if flags &&& MREMAP_FIXED ≠ 0 then
    let (p, host) := K.mremap s.host oldAddr oldSize newSize flags newAddr
    let s := { s with host := host }
    .ok (p, if c.reservedVa ≠ 0 ∧ p.isSome then s.mmapReserve h K oldAddr oldSize else s)
  else if flags &&& MREMAP_MAYMOVE ≠ 0 then do
    let (mmapStart, s) ← s.mmapFindVma h c K 0 newSize
    if mmapStart = -1 then return (none, s) else
    let (p, host) := K.mremap s.host oldAddr oldSize newSize (flags ||| MREMAP_FIXED) mmapStart
    return (p, mmapReserve h K { s with host := host } oldAddr oldSize)
  else
    let end_ := oldAddr + newSize
    let prot := if c.reservedVa ≠ 0 ∧ oldSize < newSize then orByteFlags s.pages end_ (2 ^ 32) (oldAddr + oldSize) 0 else 0
    if prot = 0 then
      let (p, host) := K.mremap s.host oldAddr oldSize newSize flags 0
      let s := { s with host := host }
      -- the address fits the guest's address space
      .ok (p, if p.isSome ∧ c.reservedVa ≠ 0 ∧ newSize < oldSize then s.mmapReserve h K (oldAddr + oldSize) (newSize - oldSize)
        else s)
    else .ok (none, s)

def targetMremap (s : Vm) (oldAddr oldSize newSize flags newAddr : Word) : Result (Word × Vm) := do
  match ← s.callMremap h c K oldAddr oldSize newSize flags newAddr with
  | (none, s) => return (-1, s)
  | (some newAddr, s) =>
    let prot := pageGetFlags s.pages oldAddr
    let s ← s.pageSetFlags oldAddr (oldAddr + oldSize) 0
    let s ← s.pageSetFlags newAddr (newAddr + newSize) (prot ||| PAGE_VALID)
    return (newAddr, s)

end Vm

end Unitrans
