/-
What `codecache_prologue_init` leaves in memory: the way in and out, the
sieve's stub with every bucket leading to the exit stub, and the return cache
with every slot leading to the sieve.
-/
import Unitrans.EmitFacts

namespace Unitrans

open X86 Except

/-! ## The memory it writes -/

section

variable (L : Layout)

/-- `tb_ret_addr` -/
def tbRet : Word := L.codeGenPrologue + BitVec.ofNat 32 65

/-- The exit stub at the end of every chain of the sieve. -/
def sieveExit : Word := L.codeGenPrologue + BitVec.ofNat 32 256

/-- The stub every slot of the return cache leads to at first. -/
def retCacheStub : Word := L.codeGenPrologue + BitVec.ofNat 32 512

/-- Bucket `i` of the sieve. -/
def bucket (i : Nat) : Word := L.sieveHashtable + BitVec.ofNat 32 (8 * i)

/-- `push %ecx; jmp sieve_stub` -/
def retCacheStubBytes : List Byte := [0x51] ++ jmpTo (retCacheStub L + 1) L.sieveBuffer

@[simp] theorem length_retCacheStubBytes : (retCacheStubBytes L).length = 6 := rfl

def sieveExitBytes : List Byte := exitTbBytes L (tbRet L) (sieveExit L) (-1) IND_TYPE_CALL

@[simp] theorem length_sieveExitBytes : (sieveExitBytes L).length = 22 := by
  simp [sieveExitBytes, exitTbBytes, IND_TYPE_CALL]

@[simp] theorem length_enterBytes : (State.enterBytes L).length = 65 := rfl
@[simp] theorem length_leaveBytes : (State.leaveBytes L).length = 66 := rfl

/-- The code: the way in and out, the sieve's stub and two stubs. -/
def cacheCode (m : Mem) : Mem :=
  let m := m.put L.codeGenPrologue (State.enterBytes L)
  let m := m.put (tbRet L) (State.leaveBytes L)
  let m := m.put L.sieveBuffer (sieveStubBytes L)
  m.put (sieveExit L) (sieveExitBytes L)

def prologueMem (m : Mem) : Mem :=
  let m := m.st32 (L.reg 4) (m.ld32 (L.reg 4) - 4)
  let m := (cacheCode L m).putTable L.sieveHashtable 8 (fun i => jmpTo (bucket L i) (sieveExit L)) SIEVE_SIZE
  let m := m.put (retCacheStub L) (retCacheStubBytes L)
  m.putTable L.retHashTable 4 (fun _ => le32 (retCacheStub L)) RET_CACHE_SIZE

end

variable {L : Layout}

/-- A bucket is stored in two writes. -/
theorem put_bucket (m : Mem) (e t : Word) :
    (m.put e [0xe9]).st32 (e + 1) (t - (e + 1) - 4) = m.put e (jmpTo e t) := by
  rw [Mem.st32, show e + 1 = e + BitVec.ofNat 32 [(0xe9 : Byte)].length from rfl, Mem.put_put_append (by simp)]
  rfl

/-- `s` with another memory. -/
def State.withMem (s : State) (m : Mem) : State := { s with mem := m }

theorem foldl_buckets (s : State) (p : Word) (n : Nat) :
    (List.range n).foldl (fun (s : State) i =>
      let e := State.sieveEntryAddr L.sieveHashtable i
      let s := s.st8 e 0xe9
      s.st32 (e + 1) (p - (e + 1) - 4)) s =
    s.withMem (s.mem.putTable L.sieveHashtable 8 (fun i => jmpTo (bucket L i) p) n) := by
  have hf : ∀ (s : State) (i : Nat),
      (s.st8 (State.sieveEntryAddr L.sieveHashtable i) 0xe9).st32
        (State.sieveEntryAddr L.sieveHashtable i + 1) (p - (State.sieveEntryAddr L.sieveHashtable i + 1) - 4) =
      s.withMem (s.mem.put (bucket L i) (jmpTo (bucket L i) p)) := by
    intro s i
    rw [← put_bucket]
    cases s
    rfl
  simp only [hf]
  induction n with
  | zero => rfl
  | succ n ih =>
    rw [List.range_succ, List.foldl_append, ih, Mem.putTable_succ, List.foldl_cons, List.foldl_nil]
    rfl

theorem foldl_retSlots (s : State) (p : Word) (n : Nat) :
    (List.range n).foldl (fun (s : State) i => s.st32 (L.retHashTable + BitVec.ofNat 32 (4 * i)) p) s =
    s.withMem (s.mem.putTable L.retHashTable 4 (fun _ => le32 p) n) := by
  induction n with
  | zero => rfl
  | succ n ih => rw [List.range_succ, List.foldl_append, ih, Mem.putTable_succ, List.foldl_cons, List.foldl_nil]; rfl

/-- Emitting elsewhere and coming back. -/
theorem emit_aside (s : State) (p : Word) (bs : List Byte) :
    ((s.setCodePtr p).emit bs).setCodePtr s.codePtr = s.withMem (s.mem.put p bs) := by
  cases s
  rfl

theorem svTableInit_eq (s : State) (p t : Word) : s.svTableInit L p t =
    s.withMem ((s.mem.put p (exitTbBytes L s.tbRetAddr p (-1) t)).putTable L.sieveHashtable 8
      (fun i => jmpTo (bucket L i) p) SIEVE_SIZE) := by
  have hp : (s.setCodePtr p).codePtr = p := by cases s; rfl
  have hr : (s.setCodePtr p).tbRetAddr = s.tbRetAddr := by cases s; rfl
  rw [State.svTableInit]
  simp only [cemitExitTb_eq, hp, hr, emit_aside]
  rw [foldl_buckets]
  cases s
  rfl

theorem retCacheProcInit_eq (s : State) : s.retCacheProcInit L =
    s.withMem ((s.mem.put (retCacheStub L) ([0x51] ++ jmpTo (retCacheStub L + 1) s.sieveStub)).putTable
      L.retHashTable 4 (fun _ => le32 (retCacheStub L)) RET_CACHE_SIZE) := by
  have hs : (s.setCodePtr (retCacheStub L)).cemitSieve =
      (s.setCodePtr (retCacheStub L)).emit ([0x51] ++ jmpTo (retCacheStub L + 1) s.sieveStub) := by
    rw [State.cemitSieve, cemitSieveNopush_eq, State.emit_emit (by simp)]
    cases s
    rfl
  have hp : L.codeGenPrologue + 512 = retCacheStub L := rfl
  simp only [State.retCacheProcInit, hp, hs, emit_aside]
  rw [foldl_retSlots]
  cases s
  rfl

theorem sieveInit_eq (s : State) : s.sieveInit L =
    { s with
      sieveStub := s.sieveCodePtr, sieveCodePtr := s.sieveCodePtr + 16
      mem := ((s.mem.put s.sieveCodePtr (sieveStubBytes L)).put (sieveExit L)
        (exitTbBytes L s.tbRetAddr (sieveExit L) (-1) IND_TYPE_CALL)).putTable L.sieveHashtable 8
        (fun i => jmpTo (bucket L i) (sieveExit L)) SIEVE_SIZE } := by
  have he : ∀ s : State, (((s.emitSieve [0x8b, 0x4c, 0x24, 4]).emitSieve [0x0f, 0xb7, 0xc9]).emitSieve
      ([0x8d, 0x0c, 0xcd] ++ le32 L.sieveHashtable)).emitSieve [0xff, 0xe1] = s.emitSieve (sieveStubBytes L) := by
    intro s
    simp [State.emitSieve_emitSieve, sieveStubBytes]
  have hp : L.codeGenPrologue + 256 = sieveExit L := rfl
  simp only [State.sieveInit, he, hp, svTableInit_eq]
  cases s
  rfl

theorem cachePrologue_eq (s : State) : s.cachePrologue L =
    { s with
      mem := prologueMem L s.mem, tbRetAddr := tbRet L, sieveStub := L.sieveBuffer
      sieveCodePtr := L.sieveBuffer + 16 } := by
  have hp : L.codeGenPrologue + BitVec.ofNat 32 (State.enterBytes L).length = tbRet L := rfl
  simp only [State.cachePrologue, sieveInit_eq, retCacheProcInit_eq, hp]
  cases s
  rfl

/-! ## What is in memory then -/

structure CacheCode (L : Layout) (m : Mem) : Prop where
  enter : m.At L.codeGenPrologue (State.enterBytes L)
  leave : m.At (tbRet L) (State.leaveBytes L)
  exit : m.At (sieveExit L) (sieveExitBytes L)
  stub : m.At (retCacheStub L) (retCacheStubBytes L)
  sieve : m.At L.sieveBuffer (sieveStubBytes L)

theorem prologue_subset {i k : Nat} (h : i + k ≤ sizeofPrologue) :
    Span (L.codeGenPrologue + BitVec.ofNat 32 i) k ⊆ Span L.codeGenPrologue sizeofPrologue :=
  span_subset_add h (by decide)

/-- Code but the last stub is in place once it is written: what comes after is that stub and
the two tables. -/
theorem at_prologueMem {m : Mem} {a : Word} {bs : List Byte}
    (h : (cacheCode L (m.st32 (L.reg 4) (m.ld32 (L.reg 4) - 4))).At a bs) (hl : bs.length ≤ 2 ^ 32)
    (hd : Disjoint (Span L.env sizeofEnv) (Span a bs.length))
    (hr : Disjoint (Span (retCacheStub L) 6) (Span a bs.length)) : (prologueMem L m).At a bs := by
  have h₁ := h.putTable (w := 8) (g := fun i => jmpTo (bucket L i) (sieveExit L)) (n := SIEVE_SIZE) (by simp)
    (by decide) hl (hd.mono_left (L.field_subset (i := 267344) (by decide)))
  have hr : Disjoint (Span (retCacheStub L) (retCacheStubBytes L).length) (Span a bs.length) := by simpa using hr
  exact (h₁.put hl hr).putTable (w := 4) (g := fun _ => le32 (retCacheStub L)) (n := RET_CACHE_SIZE) (by simp)
    (by decide) hl (hd.mono_left (L.field_subset (i := 72) (by decide)))

theorem disjoint_env_prologue {i k : Nat} (h : i + k ≤ sizeofPrologue) :
    Disjoint (Span L.env sizeofEnv) (Span (L.codeGenPrologue + BitVec.ofNat 32 i) k) :=
  L.env_prologue.mono_right (prologue_subset h)

theorem disjoint_prologue_sieve {i k n : Nat} (h : i + k ≤ sizeofPrologue) (hn : n ≤ DEFAULT_SIEVE_BUFFER_SIZE) :
    Disjoint (Span (L.codeGenPrologue + BitVec.ofNat 32 i) k) (Span L.sieveBuffer n) :=
  L.prologue_sieve.mono (prologue_subset h) (span_mono hn)

theorem cacheCode_prologueMem (m : Mem) : CacheCode L (prologueMem L m) := by
  have h0 : L.codeGenPrologue + BitVec.ofNat 32 0 = L.codeGenPrologue := by simp
  -- the way in is first in the region
  have henv : Disjoint (Span L.env sizeofEnv) (Span L.codeGenPrologue 65) := by
    simpa only [h0] using disjoint_env_prologue (L := L) (i := 0) (k := 65) (by decide)
  have hin : ∀ {j l : Nat}, 65 ≤ j → j + l ≤ 2 ^ 32 →
      Disjoint (Span (L.codeGenPrologue + BitVec.ofNat 32 j) l) (Span L.codeGenPrologue 65) := fun h hl => by
    simpa only [h0] using (disjoint_span_add (a := L.codeGenPrologue) (i := 0) (by omega) hl).symm
  have hsieve : Disjoint (Span L.sieveBuffer 16) (Span L.codeGenPrologue 65) := by
    simpa only [h0] using (disjoint_prologue_sieve (L := L) (i := 0) (by decide) (by decide)).symm
  have hbuf : 16 ≤ DEFAULT_SIEVE_BUFFER_SIZE := by decide
  refine ⟨?_, ?_, ?_, ?_, ?_⟩
  · refine at_prologueMem ?_ (by simp) henv (hin (by simp) (by simp))
    refine Mem.At.put (Mem.At.put (Mem.At.put (Mem.At.put_self (by simp)) (by simp) ?_) (by simp) ?_) (by simp) ?_
    · exact hin (by simp) (by simp)
    · exact hsieve
    · exact hin (by simp) (by simp)
  · refine at_prologueMem ?_ (by simp) (disjoint_env_prologue (by simp [sizeofPrologue]))
      (disjoint_span_add (by simp) (by simp)).symm
    refine Mem.At.put (Mem.At.put (Mem.At.put_self (by simp)) (by simp) ?_) (by simp) ?_
    · exact (disjoint_prologue_sieve (by simp [sizeofPrologue]) hbuf).symm
    · exact (disjoint_span_add (by simp) (by simp)).symm
  · exact at_prologueMem (Mem.At.put_self (by simp)) (by simp) (disjoint_env_prologue (by simp [sizeofPrologue]))
      (disjoint_span_add (by simp) (by simp)).symm
  · refine Mem.At.putTable (w := 4) (Mem.At.put_self (by simp)) (by simp) (by decide) (by simp) ?_
    exact (disjoint_env_prologue (by simp [sizeofPrologue])).mono_left (L.field_subset (i := 72) (by decide))
  · refine at_prologueMem (Mem.At.put (Mem.At.put_self (by simp)) (by simp) ?_) (by simp) ?_
      (disjoint_prologue_sieve (by decide) hbuf)
    · exact disjoint_prologue_sieve (by simp [sizeofPrologue]) hbuf
    · exact L.env_sieve.mono_right (span_mono hbuf)

/-- A store into `env` leaves the code alone. -/
theorem CacheCode.st32_field {m : Mem} (h : CacheCode L m) {k : Nat} (hk : k + 4 ≤ sizeofEnv) (w : Word) :
    CacheCode L (m.st32 (L.field k) w) := by
  have hP : ∀ {i n : Nat}, i + n ≤ sizeofPrologue →
      Disjoint (Span (L.field k) 4) (Span (L.codeGenPrologue + BitVec.ofNat 32 i) n) := fun h =>
    (disjoint_env_prologue h).mono_left (L.field_subset hk)
  have h0 : Disjoint (Span (L.field k) 4) (Span L.codeGenPrologue 65) := by
    simpa using hP (i := 0) (n := 65) (by decide)
  have hS : Disjoint (Span (L.field k) 4) (Span L.sieveBuffer 16) :=
    L.env_sieve.mono (L.field_subset hk) (span_mono (by decide))
  exact ⟨h.enter.st32 (by simp) h0, h.leave.st32 (by simp) (hP (by simp [sizeofPrologue])),
    h.exit.st32 (by simp) (hP (by simp [sizeofPrologue])), h.stub.st32 (by simp) (hP (by simp [sizeofPrologue])),
    h.sieve.st32 (by simp) hS⟩

theorem field_add (k i : Nat) : L.field k + BitVec.ofNat 32 i = L.field (k + i) := by
  simp [Layout.field, BitVec.add_assoc, BitVec.ofNat_add]

theorem bucket_eq (i : Nat) : bucket L i = L.field (267344 + 8 * i) := field_add _ _

theorem bucket_prologueMem (m : Mem) {i : Nat} (hi : i < SIEVE_SIZE) :
    (prologueMem L m).At (bucket L i) (jmpTo (bucket L i) (sieveExit L)) := by
  have hi : i < 65536 := hi
  have hstub : Disjoint (Span (retCacheStub L) 6) (Span (bucket L i) 5) := by
    rw [bucket_eq]
    exact (disjoint_env_prologue (by decide)).symm.mono_right (L.field_subset (by simp only [sizeofEnv]; omega))
  have hret : Disjoint (Span L.retHashTable (4 * RET_CACHE_SIZE)) (Span (bucket L i) 5) := by
    rw [bucket_eq]
    exact L.disjoint_field (i := 72) (Or.inl (by simp only [RET_CACHE_SIZE]; omega)) (by decide)
      (by simp only [sizeofEnv]; omega)
  refine Mem.At.putTable (w := 4) (Mem.At.put ?_ (by simp) hstub) (by simp) (by decide) (by simp) hret
  exact Mem.at_putTable (w := 8) (by simp) (by decide) hi

/-- The rest of `env` is as before. -/
theorem prologueMem_field (m : Mem) {k : Nat} (hk : 20 ≤ k ∧ k < 72 ∨ 791632 ≤ k ∧ k < sizeofEnv) :
    prologueMem L m (L.field k) = m (L.field k) := by
  have hks : k < sizeofEnv := by
    have : sizeofEnv = 1840216 := rfl
    omega
  have hmem : L.field k ∈ Span (L.field k) 1 := by simp [mem_span]
  have hne : ∀ {j l : Nat}, (j + l ≤ k ∨ k + 1 ≤ j) → j + l ≤ sizeofEnv → L.field k ∉ Span (L.field j) l :=
    fun h hj hx => Set.disjoint_left.mp (L.disjoint_field (l := 1) h hj hks) hx hmem
  have henv : L.field k ∈ Span L.env sizeofEnv := L.field_subset hks hmem
  have hout : ∀ {a : Word} {n : Nat}, Disjoint (Span L.env sizeofEnv) (Span a n) → L.field k ∉ Span a n :=
    fun h hx => Set.disjoint_left.mp h henv hx
  have hP : ∀ {i n : Nat}, i + n ≤ sizeofPrologue →
      L.field k ∉ Span (L.codeGenPrologue + BitVec.ofNat 32 i) n := fun h => hout (disjoint_env_prologue h)
  have h0 : L.field k ∉ Span L.codeGenPrologue 65 := by simpa using hP (i := 0) (n := 65) (by decide)
  have hsb : 16 ≤ DEFAULT_SIEVE_BUFFER_SIZE := by decide
  rw [prologueMem, Mem.putTable_of_notMem (by simp) (by decide), Mem.put_of_notMem,
    Mem.putTable_of_notMem (by simp) (by decide), cacheCode, Mem.put_of_notMem, Mem.put_of_notMem,
    Mem.put_of_notMem, Mem.put_of_notMem, Mem.st32_of_notMem]
  · exact hne (j := 16) (by omega) (by decide)
  · exact h0
  · exact hP (by simp [sizeofPrologue])
  · exact hout (L.env_sieve.mono_right (span_mono hsb))
  · exact hP (by simp [sizeofPrologue])
  · exact hne (j := 267344) (by simp only [SIEVE_SIZE]; omega) (by decide)
  · exact hP (by simp [sizeofPrologue])
  · exact hne (j := 72) (by simp only [RET_CACHE_SIZE]; omega) (by decide)

theorem ld32_prologueMem (m : Mem) {k : Nat} (hk : 20 ≤ k ∧ k + 4 ≤ 72 ∨ 791632 ≤ k ∧ k + 4 ≤ sizeofEnv) :
    (prologueMem L m).ld32 (L.field k) = m.ld32 (L.field k) := by
  refine Mem.ld32_congr fun x hx => ?_
  obtain ⟨i, hi, rfl⟩ := exists_of_mem_span hx
  rw [field_add]
  exact prologueMem_field m (by omega)

end Unitrans
