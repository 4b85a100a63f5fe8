/-
The page flags of the guest's address space, as exec.c keeps them: `l1_map`, whose
entries are tables made when a page in them first gets flags, and the
functions over it. A walk is a run of the source's loops up to the first
callback that returns something else than 0.
-/
import Unitrans.Library.RadixTree
import Unitrans.State

namespace Unitrans

open X86 RadixTree

/-! ## Constants -/

def TARGET_PAGE_BITS : Nat := 12
def TARGET_PAGE_SIZE : Word := 1 <<< TARGET_PAGE_BITS
def TARGET_PAGE_MASK : Word := ~~~(TARGET_PAGE_SIZE - 1)
def TARGET_PAGE_ALIGN (addr : Word) : Word := (addr + TARGET_PAGE_SIZE - 1) &&& TARGET_PAGE_MASK

def L1_MAP_ADDR_SPACE_BITS : Nat := 32
def L2_BITS : Nat := 10
def L2_SIZE : Nat := 1 <<< L2_BITS
def V_L1_BITS_REM : Nat := (L1_MAP_ADDR_SPACE_BITS - TARGET_PAGE_BITS) % L2_BITS
def V_L1_BITS : Nat := if V_L1_BITS_REM < 4 then V_L1_BITS_REM + L2_BITS else V_L1_BITS_REM
def V_L1_SIZE : Nat := 1 <<< V_L1_BITS
def V_L1_SHIFT : Nat := L1_MAP_ADDR_SPACE_BITS - TARGET_PAGE_BITS - V_L1_BITS
/-- The levels between `l1_map` and the tables of pages. -/
def l2Levels : Nat := V_L1_SHIFT / L2_BITS - 1

def PAGE_READ : Word := 0x0001
def PAGE_WRITE : Word := 0x0002
def PAGE_VALID : Word := 0x0008
def PAGE_WRITE_ORG : Word := 0x0010

/-- `flags & f` -/
def hasFlag (flags f : Word) : Bool := flags &&& f != 0

/-! ## The table -/

structure PageDesc where
  firstTb : Word
  flags : Word
  deriving DecidableEq

/-- A page of zeroes, as `mmap` makes it. -/
instance : Inhabited PageDesc := ⟨⟨0, 0⟩⟩

abbrev L1Map := Nat → RadixTree.Tree PageDesc l2Levels

/-- `l1_map` at the start. -/
def noPages : L1Map := fun _ => RadixTree.Tree.empty l2Levels

def l1Index (index : Nat) : Nat := (index >>> V_L1_SHIFT) &&& (V_L1_SIZE - 1)

/-- The index into the table at each level below. -/
def l2Path (index : Nat) : Nat → Nat := fun i => (index >>> (i * L2_BITS)) &&& (L2_SIZE - 1)

/-- The descriptor a pointer is returned to, if any, and the table. -/
def pageFindAlloc (m : L1Map) (index : Nat) (alloc : Bool) : Option PageDesc × L1Map :=
  let m := if alloc then put m (l1Index index) ((m (l1Index index)).alloc l2Levels (l2Path index)) else m
  ((m (l1Index index)).lookup l2Levels (l2Path index), m)

def pageFind (m : L1Map) (index : Nat) : Option PageDesc := (pageFindAlloc m index false).1

/-- An assignment through the pointer to a descriptor. -/
def pageStore (m : L1Map) (index : Nat) (f : PageDesc → PageDesc) : L1Map :=
  put m (l1Index index) ((m (l1Index index)).update l2Levels (l2Path index) f)

def pageIndex (addr : Word) : Nat := addr.toNat >>> TARGET_PAGE_BITS

def pageGetFlags (m : L1Map) (address : Word) : Word :=
  match pageFind m (pageIndex address) with
  | none => 0
  | some p => p.flags

def tbInvalidatePhysPage : Result Unit := .error (.abort "")

/-- The addresses the loop
`for (; len != 0; len -= TARGET_PAGE_SIZE, addr += TARGET_PAGE_SIZE)` visits. -/
def pageAddrs : Nat → Word → Word → List Word
  | 0, _, _ => []
  | n + 1, addr, len => if len = 0 then [] else addr :: pageAddrs n (addr + TARGET_PAGE_SIZE) (len - TARGET_PAGE_SIZE)

/-- The loop for a length that is a number of pages, of which there are `2 ^ 20`. -/
def pageRange (start len : Word) : List Word := pageAddrs (2 ^ 20) start len

/-- The body of the loop of `page_set_flags`. -/
def setPageFlags (flags : Word) (m : L1Map) (addr : Word) : Result L1Map := do
  let (p, m) := pageFindAlloc m (pageIndex addr) true
  match p with
  | none => .error .wild
  | some p =>
    if !hasFlag p.flags PAGE_WRITE && hasFlag flags PAGE_WRITE && p.firstTb != 0 then tbInvalidatePhysPage
    return pageStore m (pageIndex addr) fun p => { p with flags := flags }

def pageSetFlags (m : L1Map) (start end_ flags : Word) : Result L1Map :=
  if ¬ start < end_ then .error (.abort "assert") else
  let start := start &&& TARGET_PAGE_MASK
  let end_ := TARGET_PAGE_ALIGN end_
  let flags := if hasFlag flags PAGE_WRITE then flags ||| PAGE_WRITE_ORG else flags
  (pageRange start (end_ - start)).foldlM (setPageFlags flags) m

/-! ## Checking a range -/

/-- The loop of `page_unprotect` over the pages of a host page. -/
def unprotectPages (hostEnd : Word) : Nat → L1Map → Word → Result L1Map
  | 0, _, _ => .error .hang
  | n + 1, m, addr =>
    if addr < hostEnd then
      match pageFind m (pageIndex addr) with
      | none => .error .wild
      | some _ => do
        let m := pageStore m (pageIndex addr) fun p => { p with flags := p.flags ||| PAGE_WRITE }
        tbInvalidatePhysPage
        unprotectPages hostEnd n m (addr + TARGET_PAGE_SIZE)
    else .ok m

variable (hostPageSize : Word)

/-- `page_unprotect`, less what `mprotect` is told. -/
def pageUnprotect (m : L1Map) (address : Word) : Result (Int × L1Map) :=
  match pageFind m (pageIndex address) with
  | none => .ok (0, m)
  | some p =>
    if hasFlag p.flags PAGE_WRITE_ORG && !hasFlag p.flags PAGE_WRITE then do
      let hostStart := address &&& ~~~(hostPageSize - 1)
      let m ← unprotectPages (hostStart + hostPageSize) (2 ^ 20) m hostStart
      return (1, m)
    else .ok (0, m)

/-- The loop of `page_check_range`. -/
def checkPages (flags : Word) (m : L1Map) : List Word → Result (Int × L1Map)
  | [] => .ok (0, m)
  | addr :: addrs =>
    match pageFind m (pageIndex addr) with
    | none => .ok (-1, m)
    | some p =>
      if !hasFlag p.flags PAGE_VALID then .ok (-1, m)
      else if hasFlag flags PAGE_READ && !hasFlag p.flags PAGE_READ then .ok (-1, m)
      else if hasFlag flags PAGE_WRITE then
        if !hasFlag p.flags PAGE_WRITE_ORG then .ok (-1, m)
        else if !hasFlag p.flags PAGE_WRITE then do
          let (r, m) ← pageUnprotect hostPageSize m addr
          return (if r = 0 then -1 else 0, m)
        else .ok (0, m)
      else checkPages flags m addrs

def pageCheckRange (m : L1Map) (start len flags : Word) : Result (Int × L1Map) :=
  if len = 0 then .ok (0, m)
  -- the range wraps around
  else if start + len - 1 < start then .ok (-1, m)
  else
    let end_ := TARGET_PAGE_ALIGN (start + len)
    let start := start &&& TARGET_PAGE_MASK
    checkPages hostPageSize flags m (pageRange start (end_ - start))

/-! ## Walking the regions -/

structure Region where
  start : Word
  end_ : Word
  prot : Word
  deriving DecidableEq

/-- `struct walk_memory_regions_data`, with the calls made so far. -/
structure WalkData where
  start : Word := -1
  prot : Word := 0
  calls : List Region := []

/-- What a callback returns, given the calls before. -/
abbrev Callback := List Region → Region → Int

variable (fn : Callback)

def walkMemoryRegionsEnd (data : WalkData) (end_ newProt : Word) : Int × WalkData :=
  let next (data : WalkData) : WalkData :=
    { data with start := if newProt ≠ 0 then end_ else -1, prot := newProt }
  if data.start ≠ -1 then
    let region := ⟨data.start, end_, data.prot⟩
    let rc := fn data.calls region
    let data := { data with calls := data.calls ++ [region] }
    if rc ≠ 0 then (rc, data) else (0, next data)
  else (0, next data)

/-- A `for` loop over `n` indices from `i` on, left at the first result that is not 0. -/
def walkFor (body : Nat → WalkData → Int × WalkData) : Nat → Nat → WalkData → Int × WalkData
  | 0, _, data => (0, data)
  | n + 1, i, data =>
    let r := body i data
    if r.1 ≠ 0 then r else walkFor body n (i + 1) r.2

def walkMemoryRegions₁ : (level : Nat) → RadixTree.Tree PageDesc level → Word → WalkData → Int × WalkData
  | 0, none, base, data => walkMemoryRegionsEnd fn data base 0
  | 0, some pd, base, data =>
    walkFor (fun i data =>
      let prot := (pd i).flags
      let pa := base ||| BitVec.ofNat 32 i <<< TARGET_PAGE_BITS
      if prot ≠ data.prot then walkMemoryRegionsEnd fn data pa prot else (0, data)) L2_SIZE 0 data
  | _ + 1, none, base, data => walkMemoryRegionsEnd fn data base 0
  | level + 1, some pp, base, data =>
    walkFor (fun i data =>
      let pa := base ||| BitVec.ofNat 32 i <<< (TARGET_PAGE_BITS + L2_BITS * (level + 1))
      walkMemoryRegions₁ level (pp i) pa data) L2_SIZE 0 data

def walkMemoryRegions (m : L1Map) : Int × WalkData :=
  let r := walkFor (fun i data => walkMemoryRegions₁ fn l2Levels (m i) (BitVec.ofNat 32 i <<< V_L1_SHIFT) data)
    V_L1_SIZE 0 {}
  if r.1 ≠ 0 then r else walkMemoryRegionsEnd fn r.2 0 0

end Unitrans
