/-
How far a superblock goes, read off the guest's code. A sweep walks from a
block's address over the instructions by the lengths the tables give them. Of
their translation it knows the number of bytes only, and it ends where the
loop of `gen_target_code` does: at an instruction that ends a superblock, at
a block that has code, at a limit, or where the translator gives up. So the
heads of the loop are the instructions the sweep meets (`mem_swept`).
-/
import Unitrans.CallerFacts
import Unitrans.StaleDecode

namespace Unitrans

open X86 Except

variable {L : Layout} {img : Mem} {G : State.GenLoop}

/-- Where a sweep is, and what it has met on the way. -/
structure Sweep where
  /-- the next instruction -/
  pc : Word
  /-- where its code begins -/
  codePtr : Word
  /-- the block it belongs to -/
  tb : Nat
  /-- the addresses of the blocks begun -/
  begun : List Word := []
  /-- how many of them are new -/
  made : Nat := 0
  /-- the direct branches -/
  branches : Nat := 0
  /-- the memory with the instructions copied: one of nearly 4 GiB of prefixes reaches `env` -/
  mem : Mem

namespace Sweep

/-- The code ends in its buffer, and the patch array is not near its end. -/
def Within (L : Layout) (w : Sweep) : Prop :=
  (w.codePtr - L.codeGenBuffer).toNat ≤ DEFAULT_CODE_GEN_BUFFER_SIZE ∧ w.branches < PATCH_ARRAY_SIZE - 2

instance (w : Sweep) : Decidable (w.Within L) := inferInstanceAs (Decidable (_ ∧ _))

def skip (w : Sweep) (n : Nat) : Sweep := { w with codePtr := w.codePtr + BitVec.ofNat 32 n }

def copy (w : Sweep) (bs : List Byte) : Sweep := { w.skip bs.length with mem := w.mem.put w.codePtr bs }

/-- Into the block `i`, unless it has code. -/
def enterTb (s : State) (w : Sweep) (i : Nat) : Option Sweep :=
  if (s.tbs[i]?).map (·.tcPtr) = some NOT_TRANS_YET then some { w with tb := i, begun := w.pc :: w.begun } else none

/-- Into a new block, while there is room for one. -/
def enterNewTb (L : Layout) (s : State) (w : Sweep) : Option Sweep :=
  if s.tbs.length + w.made < codeGenMaxBlocks ∧ (s.codeGenPtr - L.codeGenBuffer).toNat < codeGenBufferMaxSize then
    some { w with tb := s.tbs.length + w.made, begun := w.pc :: w.begun, made := w.made + 1 }
  else none

/-- Into the next block, one known or a new one, unless it was begun before. -/
def transNext (L : Layout) (s : State) (ds : Decode) (w : Sweep) : Option Sweep :=
  if !has ds.opstate OPSTATE_DATA32 || w.begun.contains w.pc then none
  else (s.index.lookup w.pc).elim (w.enterNewTb L s) (w.enterTb s)

/-- Past an instruction without a branch. -/
def straight (L : Layout) (w : Sweep) : Option Sweep := if w.Within L then some w else none

/-- Past an indirect call, translated to `n` bytes. -/
def indirect (L : Layout) (s : State) (ds : Decode) (n : Nat) (w : Sweep) : Option Sweep :=
  if (w.skip n).Within L then (w.skip n).transNext L s ds else none

/-- Past a direct branch, whose field `note_patch` takes unless `env->patch_num` forbids it. -/
def direct (L : Layout) (s : State) (ds : Decode) (n : Nat) (w : Sweep) : Option Sweep :=
  if w.mem.ld32 L.patchNum < PATCH_MAX then { w with branches := w.branches + 1 }.indirect L s ds n else none

/-- Past the code of an instruction with the bytes `insn`; none where it ends the superblock. -/
def callEmitfn (L : Layout) (img : Mem) (s : State) (ds : Decode) (insn : List Byte) (w : Sweep) : Option Sweep :=
  match ds.emitfn with
  | .fn .normal => (w.copy insn).straight L
  | .fn .int => ((w.copy (if img (ds.instr + 1) = 0x80 then exitTestBytes L w.codePtr else [])).copy insn).straight L
  | .fn .jcond => w.direct L s ds (jcondBytes img ds).length
  | .fn .otherJcond => w.direct L s ds (otherJcondBytes ds).length
  | .fn .callDisp => w.direct L s ds 43
  | .fn .callNearMem =>
    if has ds.flags DSFL_GROUP4_PREFIX then none
    else w.indirect L s ds (callNearMemBytes L 0 0 0 (L.tbPtr w.tb) 0 ds).length
  | _ => none

/-- Past the instruction at hand. -/
def next (L : Layout) (img : Mem) (s : State) (w : Sweep) : Option Sweep := do
  let (ds, _) ← simpleDisasInsn img .zero w.pc
  { w with pc := ds.decodeEip }.callEmitfn L img s ds (img.read w.pc (ds.decodeEip - w.pc).toNat)

/-- The addresses of the instructions met, no more than `n` past the first. -/
def addrs (L : Layout) (img : Mem) (s : State) : Nat → Sweep → List Word
  | 0, w => [w.pc]
  | n + 1, w => w.pc :: ((w.next L img s).map (addrs L img s n)).getD []

end Sweep

/-- The instructions a sweep from block `tb` meets. -/
def State.swept (L : Layout) (img : Mem) (s : State) (tb : Nat) : List Word :=
  match s.tbs[tb]? with
  | some b =>
    if s.stbs.length + 1 < STB_MAX then
      Sweep.addrs L img s MAX_INSNS { pc := b.pc, codePtr := b.tcPtr, tb := tb, mem := s.mem }
    else []
  | none => []

/-- Where the code of block `i` is. -/
def State.tcAt (s : State) (i : Nat) : Option Word := (s.tbs[i]?).map (·.tcPtr)

/-- The loop that began in `s` is at `t`, where the sweep is at `w`. -/
structure Sweeps (L : Layout) (s : State) (w : Sweep) (t : State) : Prop where
  pc : t.pcPtr = w.pc
  codePtr : t.codePtr = w.codePtr
  curTb : t.curTb = w.tb
  cur : ∃ b, t.tbs[t.curTb]? = some b
  branches : t.patchArray.length = w.branches
  mem : ∀ a ∈ Span L.patchNum 4, t.mem a = w.mem a
  tables : Tables t.index
  made : t.tbs.length = s.tbs.length + w.made
  codeGenPtr : t.codeGenPtr = s.codeGenPtr
  begun : ∀ pc ∈ w.begun, ∃ i p, t.index.lookup pc = some i ∧ t.tcAt i = some p ∧ p ≠ NOT_TRANS_YET
  other : ∀ pc, pc ∉ w.begun → t.index.lookup pc = s.index.lookup pc ∧
    ∀ i, t.index.lookup pc = some i → t.tcAt i = s.tcAt i

/-- The loop goes on after the emitter at `x` just where the sweep does. -/
def GoesOn (L : Layout) (s : State) (x : Result (Bool × State)) : Option Sweep → Prop
  | some w => w.Within L ∧ ∃ t, x = .ok (true, t) ∧ Sweeps L s w t
  | none => ∀ t, x = .ok (true, t) →
      ¬ ((t.codePtr - L.codeGenBuffer).toNat ≤ DEFAULT_CODE_GEN_BUFFER_SIZE ∧ t.patchArray.length < PATCH_ARRAY_SIZE - 2)

theorem GoesOn.error {s : State} (f : Fault) : GoesOn L s (.error f) none := by
  intro t h
  cases h

theorem GoesOn.congr {s : State} {x y : Result (Bool × State)} {o : Option Sweep} (h : GoesOn L s x o)
    (hxy : ∀ t, x = .ok (true, t) ↔ y = .ok (true, t)) : GoesOn L s y o := by
  cases o with
  | some w =>
    obtain ⟨hin, t, ht, hs⟩ := h
    exact ⟨hin, t, (hxy t).mp ht, hs⟩
  | none => exact fun t ht => h t ((hxy t).mpr ht)

/-! ## Code that stays in its buffer -/

/-- A few bytes of code that end in the buffer are not in `env->patch_num`. -/
theorem notMem_patchNum {p : Word} {n : Nat} (hn : n ≤ 256)
    (hp : (p + BitVec.ofNat 32 n - L.codeGenBuffer).toNat ≤ DEFAULT_CODE_GEN_BUFFER_SIZE) {a : Word}
    (ha : a ∈ Span L.patchNum 4) : a ∉ Span p n := by
  intro hin
  have henv : ∀ x ∈ Span L.env sizeofEnv, x ∉ Span L.codeGenBuffer DEFAULT_CODE_GEN_BUFFER_SIZE := fun x hx hc =>
    Set.disjoint_left.mp L.env_code hx hc
  have hfield : (a - L.env).toNat < 68 ∧ 64 ≤ (a - L.env).toNat := by
    have hpn : L.patchNum = L.env + 64 := rfl
    rw [hpn] at ha
    simp only [mem_span] at ha
    bv_omega
  by_cases hbuf : (a - L.codeGenBuffer).toNat < DEFAULT_CODE_GEN_BUFFER_SIZE
  · refine henv a ?_ hbuf
    simp only [mem_span, sizeofEnv]
    omega
  · -- the field is below the buffer, which then begins inside `env`
    refine henv L.codeGenBuffer ?_ ?_
    · simp only [mem_span, sizeofEnv, DEFAULT_CODE_GEN_BUFFER_SIZE] at *
      bv_omega
    · rw [mem_span, BitVec.sub_self]
      decide

/-! ## The next block -/

theorem State.tcAt_modify {s t : State} {i : Nat} {f : TranslationBlock → TranslationBlock} (ht : t.tbs = s.tbs.modify i f)
    {j : Nat} (h : j ≠ i ∨ ∀ b, (f b).tcPtr = b.tcPtr) : t.tcAt j = s.tcAt j := by
  rw [State.tcAt, ht, List.getElem?_modify, State.tcAt]
  cases s.tbs[j]? with
  | none => rfl
  | some b =>
    rcases h with hne | hf
    · simp [Ne.symm hne]
    · by_cases hij : i = j <;> simp [hij, hf b]

/-- The block a lookup finds is for the address. -/
theorem Tables.lookup_block {s : State} {pc : Word} {i : Nat} (h : s.index.lookup pc = some i) :
    ∃ b, s.tbs[i]? = some b ∧ b.pc = pc := by
  obtain ⟨g, hg, hpc⟩ := Tables.lookup_sig h
  obtain ⟨b, hb, rfl⟩ : ∃ b, s.tbs[i]? = some b ∧ b.sig = g := by simpa [State.index] using hg
  exact ⟨b, hb, hpc⟩

theorem Tables.lookup_inj {s : State} {pc pc' : Word} {i : Nat} (h : s.index.lookup pc = some i)
    (h' : s.index.lookup pc' = some i) : pc = pc' := by
  obtain ⟨b, hb, rfl⟩ := Tables.lookup_block h
  obtain ⟨b', hb', rfl⟩ := Tables.lookup_block h'
  rw [Option.some.inj (hb.symm.trans hb')]

section

variable {s t : State} {w : Sweep} {ds : Decode}

/-- An address no block was begun at has the block, if any, it had before. -/
theorem Sweeps.lookup (h : Sweeps L s w t) {pc : Word} (hpc : pc ∉ w.begun) : t.index.lookup pc = s.index.lookup pc :=
  (h.other pc hpc).1

/-- The walk goes on in block `i`, begun here. -/
theorem Sweeps.opened (h : Sweeps L s w t) {u : State} {i made : Nat}
    (hroom : (t.codePtr - L.codeGenBuffer).toNat ≤ DEFAULT_CODE_GEN_BUFFER_SIZE) (hu : Tables u.index)
    (hl : u.index.lookup t.pcPtr = some i) (hpcs : u.pcPtr = t.pcPtr) (hptr : u.codePtr = t.codePtr)
    (hpatch : u.patchArray = t.patchArray) (hmem : u.mem = t.mem) (hgen : u.codeGenPtr = t.codeGenPtr)
    (hmade : u.tbs.length = s.tbs.length + made)
    (hother : ∀ pc, pc ≠ t.pcPtr → u.index.lookup pc = t.index.lookup pc ∧
      ∀ j, t.index.lookup pc = some j → u.tcAt j = t.tcAt j) :
    Sweeps L s { w with tb := i, begun := w.pc :: w.begun, made := made } (u.opened i) := by
  obtain ⟨b, hb, -⟩ := Tables.lookup_block hl
  have hindex : (u.opened i).index = u.index := by
    rw [State.opened, State.index_setCurTb, State.index_updTb (TranslationBlock.keepsSig_setTcPtr _)]
  have htbs : (u.opened i).tbs = u.tbs.modify i (·.setTcPtr u.codePtr) := rfl
  have hi : (u.opened i).tbs[i]? = some (b.setTcPtr u.codePtr) := by
    rw [htbs, List.getElem?_modify_eq, hb]
    rfl
  have hfar : ∀ {pc j}, pc ≠ t.pcPtr → u.index.lookup pc = some j → (u.opened i).tcAt j = u.tcAt j := fun hne hj =>
    State.tcAt_modify htbs (Or.inl fun he => hne (Tables.lookup_inj (he ▸ hj) hl))
  refine ⟨hpcs.trans h.pc, hptr.trans h.codePtr, rfl, ⟨_, hi⟩, ?_, ?_, ?_, ?_, hgen.trans h.codeGenPtr, ?_, ?_⟩
  case refine_1 => exact (congrArg List.length hpatch).trans h.branches
  case refine_2 => exact fun a ha => (congrFun hmem a).trans (h.mem a ha)
  case refine_3 => exact hindex ▸ hu
  case refine_4 =>
    rw [htbs, List.length_modify]
    exact hmade
  case refine_5 =>
    intro pc hin
    rw [hindex]
    rcases eq_or_ne pc t.pcPtr with rfl | hne
    · refine ⟨i, u.codePtr, hl, ?_, fun he => ?_⟩
      · rw [State.tcAt, hi]
        rfl
      · refine L.not_trans_yet ?_
        rw [← he, hptr, mem_span]
        omega
    · rw [← h.pc, List.mem_cons] at hin
      obtain ⟨j, p, hj, hp, hp'⟩ := h.begun pc (hin.resolve_left hne)
      obtain ⟨hlook, htc⟩ := hother pc hne
      refine ⟨j, p, hlook.trans hj, ?_, hp'⟩
      rw [hfar hne (hlook.trans hj), htc j hj, hp]
  case refine_6 =>
    intro pc hnin
    rw [← h.pc, List.mem_cons, not_or] at hnin
    obtain ⟨hlook, htc⟩ := hother pc hnin.1
    obtain ⟨hlook', htc'⟩ := h.other pc hnin.2
    rw [hindex]
    refine ⟨hlook.trans hlook', fun j hj => ?_⟩
    rw [hfar hnin.1 hj, htc j (hlook ▸ hj), htc' j (hlook ▸ hj)]

theorem State.tb_withCache {i : Nat} {b : TranslationBlock} (hb : t.tbs[i]? = some b) (c : Word → Option Nat) :
    (t.withCache c).tb i = .ok b := by
  show (match t.tbs[i]? with | some b => Except.ok b | none => _) = _
  rw [hb]

/-- A block that has code ends the superblock. -/
theorem transNext_ends (ht : Tables t.index) (h32 : has ds.opstate OPSTATE_DATA32) {i : Nat} {b : TranslationBlock}
    (hl : t.index.lookup t.pcPtr = some i) (hb : t.tbs[i]? = some b) (hcode : b.tcPtr ≠ NOT_TRANS_YET) :
    GoesOn L s (t.transNext L ds) none := by
  obtain ⟨c, hfind, -⟩ := tbFindFast_spec ht t.pcPtr
  have hfind : t.tbFindFast t.pcPtr NORMAL_TB_TAG = _ := hfind
  simp only [State.transNext]
  rw [if_neg (by simpa using h32), hfind, hl]
  simp only [GoesOn, State.tb_withCache hb, ok_bind, if_pos hcode, bind_eq_ok]
  rintro u ⟨cur, -, hu⟩
  cases hu

/-- Where `trans_next` finds a block it begins it, unless it has code. -/
theorem Sweeps.enterTb (h : Sweeps L s w t) (hin : w.Within L) (hnew : w.pc ∉ w.begun) (h32 : has ds.opstate OPSTATE_DATA32)
    {i : Nat} (hl : t.index.lookup t.pcPtr = some i) : GoesOn L s (t.transNext L ds) (w.enterTb s i) := by
  obtain ⟨c, hfind, htab⟩ := tbFindFast_spec h.tables t.pcPtr
  have hfind : t.tbFindFast t.pcPtr NORMAL_TB_TAG = _ := hfind
  obtain ⟨b, hb, -⟩ := Tables.lookup_block hl
  have htc : (s.tbs[i]?).map (·.tcPtr) = some b.tcPtr := by
    have := (h.other _ hnew).2 i (h.pc ▸ hl)
    rw [State.tcAt, hb] at this
    exact this.symm
  rw [Sweep.enterTb, htc]
  by_cases hyet : b.tcPtr = NOT_TRANS_YET
  · rw [if_pos (by rw [hyet])]
    simp only [State.transNext]
    rw [if_neg (by simpa using h32), hfind, hl]
    simp only [State.tb_withCache hb, ok_bind]
    rw [if_neg (not_not.mpr hyet)]
    refine ⟨hin, _, rfl, ?_⟩
    exact h.opened (u := t.withCache c) (h.codePtr ▸ hin.1) htab hl rfl rfl rfl rfl rfl h.made
      fun pc _ => ⟨rfl, fun j _ => rfl⟩
  · rw [if_neg (by simpa using hyet)]
    exact transNext_ends h.tables h32 hl hb hyet

/-- Where it finds none it makes one, unless there is no room for it. -/
theorem Sweeps.enterNewTb (h : Sweeps L s w t) (hin : w.Within L) (h32 : has ds.opstate OPSTATE_DATA32)
    (hl : t.index.lookup t.pcPtr = none) : GoesOn L s (t.transNext L ds) (w.enterNewTb L s) := by
  obtain ⟨c, hfind, htab⟩ := tbFindFast_spec h.tables t.pcPtr
  have hfind : t.tbFindFast t.pcPtr NORMAL_TB_TAG = _ := hfind
  obtain ⟨b, hb⟩ := h.cur
  have htb : (t.withCache c).tb (t.withCache c).curTb = .ok b := State.tb_withCache hb c
  have hlen : (t.withCache c).tbs.length = s.tbs.length + w.made := h.made
  have hgen : (t.withCache c).codeGenPtr = s.codeGenPtr := h.codeGenPtr
  simp only [State.transNext, Sweep.enterNewTb]
  rw [if_neg (by simpa using h32), hfind, hl]
  simp only [htb, ok_bind]
  by_cases hfull : s.tbs.length + w.made < codeGenMaxBlocks ∧ (s.codeGenPtr - L.codeGenBuffer).toNat < codeGenBufferMaxSize
  · obtain ⟨p, hp⟩ := makeTb_returns (s := t.withCache c) (hlen ▸ hfull.1) (hgen ▸ hfull.2) w.pc b.funcAddr NORMAL_TB_TAG
    obtain ⟨i, u⟩ := p
    obtain ⟨rfl, rfl⟩ := makeTb_spec _ hp
    have hw : (t.withCache c).pcPtr = w.pc := h.pc
    rw [if_pos hfull, hw, hp, ok_bind, hlen]
    refine ⟨hin, _, rfl, ?_⟩
    have hlook : ∀ pc, ((t.withCache c).withNewTb w.pc b.funcAddr).index.lookup pc =
        if w.pc = pc then some (t.withCache c).tbs.length else t.index.lookup pc := fun pc => lookup_withNewTb _ _ _ pc
    refine h.opened (u := (t.withCache c).withNewTb w.pc b.funcAddr) (h.codePtr ▸ hin.1) (htab.make _ _) ?_ rfl rfl rfl rfl
      rfl ?_ fun pc hne => ?_
    · rw [hlook, if_pos h.pc.symm, hlen]
    · show (t.tbs ++ [_]).length = _
      rw [List.length_append, h.made]
      rfl
    · refine ⟨?_, fun j hj => ?_⟩
      · rw [hlook, if_neg (h.pc ▸ Ne.symm hne)]
      · obtain ⟨b', hb', -⟩ := Tables.lookup_block hj
        show ((t.tbs ++ [_])[j]?).map _ = _
        rw [List.getElem?_append_left (List.getElem?_eq_some_iff.mp hb').1]
        rfl
  · rw [if_neg hfull]
    have hno : (t.withCache c).makeTb L (t.withCache c).pcPtr b.funcAddr NORMAL_TB_TAG = .error (.abort "qemu: tb flush\n") := by
      rw [State.makeTb, State.tbAlloc, if_pos (by rw [hlen, hgen]; omega)]
    rw [hno]
    exact GoesOn.error _

/-- `trans_next` goes on just where the sweep does. -/
theorem Sweeps.transNext (h : Sweeps L s w t) (hin : w.Within L) : GoesOn L s (t.transNext L ds) (w.transNext L s ds) := by
  rw [Sweep.transNext]
  by_cases h32 : has ds.opstate OPSTATE_DATA32
  case neg =>
    rw [if_pos (by simp [h32])]
    simp only [State.transNext]
    rw [if_pos (by simpa using h32)]
    exact GoesOn.error _
  by_cases hbegun : w.pc ∈ w.begun
  · -- begun in this superblock: it has code
    obtain ⟨i, p, hl, htc, hp⟩ := h.begun _ hbegun
    obtain ⟨b, hb, rfl⟩ := Option.map_eq_some_iff.mp htc
    rw [if_pos (by simp [hbegun])]
    exact transNext_ends h.tables h32 (h.pc ▸ hl) hb hp
  rw [if_neg (by simp [h32, hbegun]), ← h.lookup hbegun]
  cases hl : t.index.lookup w.pc with
  | some i => exact h.enterTb hin hbegun h32 (h.pc ▸ hl)
  | none => exact h.enterNewTb hin h32 (h.pc ▸ hl)

/-! ## The emitters that go on -/

/-- `u` is `t` with the code `bs` and `k` more entries in the patch array. -/
structure Grown (t u : State) (bs : List Byte) (k : Nat) : Prop where
  mem : u.mem = t.mem.put t.codePtr bs
  codePtr : u.codePtr = t.codePtr + BitVec.ofNat 32 bs.length
  pcPtr : u.pcPtr = t.pcPtr
  curTb : u.curTb = t.curTb
  tbs : ∃ f : TranslationBlock → TranslationBlock, (∀ b, (f b).tcPtr = b.tcPtr) ∧ u.tbs = t.tbs.modify t.curTb f
  index : u.index = { t.index with tags := u.index.tags }
  codeGenPtr : u.codeGenPtr = t.codeGenPtr
  patches : u.patchArray.length = t.patchArray.length + k

theorem Sweeps.grown {u : State} {bs : List Byte} {k : Nat} (h : Sweeps L s w t) (hg : Grown t u bs k)
    (m : Mem) (hm : ∀ a ∈ Span L.patchNum 4, u.mem a = m a) :
    Sweeps L s { w.skip bs.length with branches := w.branches + k, mem := m } u := by
  obtain ⟨f, hf, htbs⟩ := hg.tbs
  have hlook : ∀ pc, u.index.lookup pc = t.index.lookup pc := fun pc => by rw [hg.index]; rfl
  have htc : ∀ i, u.tcAt i = t.tcAt i := fun i => State.tcAt_modify htbs (Or.inr hf)
  refine ⟨hg.pcPtr.trans h.pc, ?_, hg.curTb.trans h.curTb, ?_, ?_, hm, ?_, ?_, hg.codeGenPtr.trans h.codeGenPtr, ?_, ?_⟩
  case refine_1 => rw [hg.codePtr, h.codePtr]; rfl
  case refine_2 =>
    obtain ⟨b, hb⟩ := h.cur
    refine ⟨f b, ?_⟩
    rw [hg.curTb, htbs, List.getElem?_modify_eq, hb]
    rfl
  case refine_3 => rw [hg.patches, h.branches]
  case refine_4 => rw [hg.index]; exact h.tables.withTags _
  case refine_5 => rw [htbs, List.length_modify]; exact h.made
  case refine_6 =>
    intro pc hpc
    obtain ⟨i, p, hl, hp, hne⟩ := h.begun pc hpc
    exact ⟨i, p, (hlook pc).trans hl, (htc i).trans hp, hne⟩
  case refine_7 =>
    intro pc hpc
    obtain ⟨hl, ho⟩ := h.other pc hpc
    exact ⟨(hlook pc).trans hl, fun i hi => (htc i).trans (ho i (hlook pc ▸ hi))⟩

/-- Where `trans_next` goes on it has emitted nothing. -/
theorem transNext_outside {u u' : State} (h : u.transNext L ds = .ok (true, u')) :
    u'.codePtr = u.codePtr ∧ u'.patchArray = u.patchArray := by
  obtain ⟨-, c, hn⟩ := transNext_spec u ds _ h
  cases hn <;> exact ⟨rfl, rfl⟩

/-- An emitter of a few bytes that leaves the rest to `trans_next`. -/
theorem Sweeps.indirect {u : State} {bs : List Byte} {k : Nat} (h : Sweeps L s w t) (hg : Grown t u bs k)
    (hlen : bs.length ≤ 256) :
    GoesOn L s (u.transNext L ds) ({ w with branches := w.branches + k }.indirect L s ds bs.length) := by
  have hptr : u.codePtr = w.codePtr + BitVec.ofNat 32 bs.length := by rw [hg.codePtr, h.codePtr]
  have hpatch : u.patchArray.length = w.branches + k := by rw [hg.patches, h.branches]
  rw [Sweep.indirect]
  by_cases hin : ({ w with branches := w.branches + k }.skip bs.length).Within L
  · rw [if_pos hin]
    refine Sweeps.transNext (h.grown hg w.mem fun a ha => ?_) hin
    rw [hg.mem, h.codePtr, Mem.put_of_notMem (notMem_patchNum hlen hin.1 ha)]
    exact h.mem a ha
  · rw [if_neg hin]
    intro u' hu'
    obtain ⟨hptr', hpatch'⟩ := transNext_outside hu'
    rw [hptr', hpatch', hptr, hpatch]
    exact hin

/-- An emitter of a direct branch: at its `note_patch` it has emitted `first`. -/
theorem Sweeps.direct {u : State} {x : Result (Bool × State)} {first bs : List Byte} (h : Sweeps L s w t)
    (hg : Grown t u bs 1) (hlen : bs.length ≤ 256) (hfirst : first.length ≤ bs.length)
    (hx : ∀ r, x = .ok r ↔ (t.emit first).CanNote L ∧ u.transNext L ds = .ok r) :
    GoesOn L s x (w.direct L s ds bs.length) := by
  have hgo : GoesOn L s (u.transNext L ds) ({ w with branches := w.branches + 1 }.indirect L s ds bs.length) := h.indirect hg hlen
  by_cases hin : ({ w with branches := w.branches + 1 }.skip bs.length).Within L
  case neg =>
    -- past the end of the buffer or near that of the array, whatever `note_patch` says
    have hnone : w.direct L s ds bs.length = none := by
      rw [Sweep.direct, Sweep.indirect, if_neg hin, ite_self]
    rw [Sweep.indirect, if_neg hin] at hgo
    rw [hnone]
    exact fun u' hu' => hgo u' ((hx _).mp hu').2
  have hnum : (t.emit first).mem.ld32 L.patchNum = w.mem.ld32 L.patchNum := by
    refine Mem.ld32_congr fun a ha => ?_
    rw [State.mem_emit, h.codePtr, Mem.put_of_notMem fun hc => notMem_patchNum hlen hin.1 ha (span_mono hfirst hc)]
    exact h.mem a ha
  rw [Sweep.direct]
  by_cases hok : w.mem.ld32 L.patchNum < PATCH_MAX
  · have hnote : (t.emit first).CanNote L := by
      refine ⟨?_, hnum ▸ hok⟩
      rw [State.patchArray_emit, h.branches]
      have hlt : w.branches + 1 < PATCH_ARRAY_SIZE - 2 := hin.2
      omega
    rw [if_pos hok]
    exact hgo.congr fun u' => ((hx _).trans (and_iff_right hnote)).symm
  · rw [if_neg hok]
    exact fun u' hu' => absurd (hnum ▸ ((hx _).mp hu').1.patchNum) hok

/-- Code of any length, copied. -/
theorem Sweeps.copy (h : Sweeps L s w t) (bs : List Byte) : Sweeps L s (w.copy bs) (t.emit bs) := by
  have hg : Grown t (t.emit bs) bs 0 :=
    ⟨rfl, rfl, rfl, rfl, ⟨id, fun _ => rfl, (List.modify_id ..).symm⟩, rfl, rfl, rfl⟩
  refine h.grown hg _ fun a ha => ?_
  rw [State.mem_emit, h.codePtr]
  simp only [Mem.put, h.mem a ha]

theorem Sweeps.straight (h : Sweeps L s w t) : GoesOn L s (.ok (true, t)) (w.straight L) := by
  rw [Sweep.straight]
  by_cases hin : w.Within L
  · rw [if_pos hin]
    exact ⟨hin, t, rfl, h⟩
  · rw [if_neg hin]
    rintro u hu
    obtain rfl : t = u := congrArg Prod.snd (Except.ok.inj hu)
    rw [h.codePtr, h.branches]
    exact hin

theorem length_callNearMemBytes (r r' p p' q pc pc' b : Word) :
    (callNearMemBytes L r p q b pc ds).length = (callNearMemBytes L r' p' 0 b pc' ds).length := by
  have hpush : (callPushBytes ds pc).length = (callPushBytes ds pc').length := by
    rw [callPushBytes, callPushBytes]
    split <;> simp
  have hexit : ∀ r q r' q' : Word, (exitTbBytes L r q b IND_TYPE_CALL).length = (exitTbBytes L r' q' b IND_TYPE_CALL).length :=
    fun r q r' q' => by simp [exitTbBytes]
  simp only [callNearMemBytes, List.length_append, length_callRcBytes, length_indOptBytes, length_rcCmpBytes, hpush]
  rw [hexit]

/-- A direct branch grows the code and the patch array. -/
theorem grown_noted (t : State) (bs : List Byte) {e : PatchEntry} (he : e.tb = t.curTb) :
    Grown t ((t.emit bs).noted e) bs 1 := by
  refine ⟨rfl, rfl, rfl, rfl, ⟨fun b => b.setPatchNum (b.patchNum + 1), fun _ => rfl, ?_⟩, ?_, rfl, ?_⟩
  · rw [← he]
    rfl
  · rw [State.noted, State.index_updTb (TranslationBlock.keepsSig_setPatchNum _), State.index_addPatch, State.index_emit]
  · exact List.length_append ..

theorem Grown.logRcCmp {u : State} {bs : List Byte} {k : Nat} (h : Grown t u bs k) (p : Word) :
    Grown t (u.logRcCmp p) bs k := by
  obtain ⟨hmem, hptr, hpc, hcur, htbs, hindex, hgen, hpatch⟩ := h
  exact ⟨hmem, hptr, hpc, hcur, htbs, hindex, hgen, hpatch⟩

theorem callNearMemFields_keeps (r p tb pc : Word) (ds : Decode) (b : TranslationBlock) :
    (callNearMemFields L r p tb pc ds b).tcPtr = b.tcPtr ∧ (callNearMemFields L r p tb pc ds b).sig = b.sig := by
  simp only [callNearMemFields, indOptFields, TranslationBlock.setJindSrcAddr, TranslationBlock.setJindDestAddr,
    TranslationBlock.setIndEnterSieve, TranslationBlock.setType, TranslationBlock.sig, and_self]

/-- An indirect call grows the code. -/
theorem grown_indirect (t : State) (bs : List Byte) {f : TranslationBlock → TranslationBlock}
    (hf : ∀ b, (f b).tcPtr = b.tcPtr ∧ (f b).sig = b.sig) (rc : Word) :
    Grown t (((t.emit bs).updTb t.curTb f).logRcCmp rc) bs 0 := by
  refine ⟨rfl, rfl, rfl, rfl, ⟨f, fun b => (hf b).1, rfl⟩, ?_, rfl, rfl⟩
  rw [State.index_logRcCmp, State.index_updTb fun b => (hf b).2, State.index_emit]

/-- The other emitters end the superblock, if they return. -/
theorem callEmitfn_ends (h : ds.emitfn ∉ [Ptr.fn .normal, .fn .int, .fn .jcond, .fn .otherJcond, .fn .callDisp, .fn .callNearMem]) :
    GoesOn L s (t.callEmitfn L img ds) none := fun u hu => by
  have he := callEmitfn_spec _ _ _ hu
  cases he <;> simp_all

/-- An emitter goes on just where the sweep does. -/
theorem Sweeps.callEmitfn (h : Sweeps L s w t) :
    GoesOn L s (t.callEmitfn L img ds) (w.callEmitfn L img s ds (insnBytes img t)) := by
  obtain ⟨b, hb⟩ := h.cur
  have hends := @callEmitfn_ends L img s t ds
  rw [Sweep.callEmitfn]
  cases hfn : ds.emitfn with
  | null => exact hends (by simp [hfn])
  | table _ => exact hends (by simp [hfn])
  | fn fn =>
    cases fn with
    | normal =>
      simp only [State.callEmitfn, hfn, emitNormal_eq]
      exact (h.copy _).straight
    | int =>
      simp only [State.callEmitfn, hfn, emitInt_eq, h.codePtr]
      exact ((h.copy _).copy _).straight
    | jcond =>
      simp only [State.callEmitfn, hfn]
      have hlen : (jcondBytes img ds).length ≤ 256 := by
        rw [jcondBytes]
        split <;> simp
      exact h.direct (grown_noted t _ rfl) hlen le_rfl fun r => emitJcond_iff L hb
    | otherJcond =>
      simp only [State.callEmitfn, hfn]
      have hlen : (otherJcondBytes ds).length ≤ 256 := by
        rw [otherJcondBytes]
        split <;> simp
      have hfirst : (otherJcondFirst ds).length ≤ (otherJcondBytes ds).length := by
        simp [otherJcondFirst, otherJcondBytes]
      exact h.direct (grown_noted t _ rfl) hlen hfirst fun r => emitOtherJcond_iff L hb
    | callDisp =>
      simp only [State.callEmitfn, hfn]
      rw [← length_callDispBytes t.sieveStub t.codePtr (RET_HASH_FUNC L.retHashTable (t.pcPtr + ds.immediate)) t.pcPtr]
      exact h.direct ((grown_noted t _ rfl).logRcCmp _) (by simp) (by simp [callDispFirst]) fun r => emitCallDisp_iff L
    | callNearMem =>
      simp only [State.callEmitfn, hfn, emitCallNearMem_eq]
      by_cases h4 : has ds.flags DSFL_GROUP4_PREFIX
      · rw [if_pos h4, if_pos h4]
        exact GoesOn.error _
      · have hlen := @length_callNearMemBytes L ds t.tbRetAddr 0 t.sieveStub 0 t.codePtr t.pcPtr 0 (L.tbPtr t.curTb)
        rw [if_neg h4, if_neg h4, ← h.curTb, ← hlen]
        exact h.indirect (grown_indirect t _ (callNearMemFields_keeps _ _ _ _ ds) _)
          ((length_callNearMemBytes_le L _ _ _ _ _ ds).trans (by decide))
    | jmp | jmpNearMem | ret | retIw | sysenter => exact hends (by simp [hfn])

/-! ## The loop and the sweep -/

/-- What `ds` held does not matter: an iteration does with what it holds what it
would do with the instruction decoded afresh. -/
theorem genInsn_fresh (t : State) (ds₁ : Decode) :
    (simpleDisasInsn img .zero t.pcPtr = none ∧ t.genInsn L img G ds₁ = .error .hang) ∨
    ∃ r r' ok, simpleDisasInsn img .zero t.pcPtr = some (r, ok) ∧ r'.decodeEip = r.decodeEip ∧
      t.genInsn L img G ds₁ = (do
        let (cont, u) ← (t.beginInsn r' ok).callEmitfn L img r
        u.checkCode L
        return (r', cont, u.updTb (G.who u) (·.incInsnCount))) := by
  rcases simpleDisasInsn_same img .zero ds₁ t.pcPtr with ⟨hn, hn'⟩ | ⟨r, r', ok, hr, hr', hsame, hset⟩
  · refine Or.inl ⟨hn, ?_⟩
    rw [State.genInsn, hn']
  · refine Or.inr ⟨r, r', ok, hr, hsame.decodeEip, ?_⟩
    have haddr : abortIf (has r'.opstate OPSTATE_ADDR16) "error: OPSTATE_ADDR16\n" = .ok () := by
      rw [abortIf, if_neg (not_addr16 _)]
    simp only [State.genInsn, hr', haddr, ok_bind, callEmitfn_congr hsame hset]

theorem Sweeps.beginInsn (h : Sweeps L s w t) (r : Decode) (ok : Bool) :
    Sweeps L s { w with pc := r.decodeEip } (t.beginInsn r ok) :=
  ⟨rfl, h.codePtr, h.curTb, h.cur, h.branches, h.mem, h.tables, h.made, h.codeGenPtr, h.begun, h.other⟩

theorem Sweeps.incInsnCount (h : Sweeps L s w t) (i : Nat) : Sweeps L s w (t.updTb i (·.incInsnCount)) := by
  have hindex : (t.updTb i (·.incInsnCount)).index = t.index := State.index_updTb TranslationBlock.keepsSig_incInsnCount
  have htc : ∀ j, (t.updTb i (·.incInsnCount)).tcAt j = t.tcAt j := fun j =>
    State.tcAt_modify (f := (·.incInsnCount)) rfl (Or.inr fun _ => rfl)
  refine ⟨h.pc, h.codePtr, h.curTb, ?_, h.branches, h.mem, hindex ▸ h.tables, ?_, h.codeGenPtr, ?_, ?_⟩
  case refine_1 =>
    obtain ⟨b, hb⟩ := h.cur
    show ∃ b, (t.tbs.modify i _)[t.curTb]? = some b
    rw [List.getElem?_modify, hb]
    exact ⟨_, rfl⟩
  case refine_2 => exact (List.length_modify ..).trans h.made
  case refine_3 =>
    intro pc hpc
    obtain ⟨j, p, hl, hp, hne⟩ := h.begun pc hpc
    exact ⟨j, p, hindex ▸ hl, (htc j).trans hp, hne⟩
  case refine_4 =>
    intro pc hpc
    obtain ⟨hl, ho⟩ := h.other pc hpc
    rw [hindex]
    exact ⟨hl, fun j hj => (htc j).trans (ho j hj)⟩

/-- One iteration goes on just where the sweep does. -/
theorem Sweeps.step (h : Sweeps L s w t) (ds₁ : Decode) :
    (∃ w' ds₂ u, w.next L img s = some w' ∧ t.genInsn L img G ds₁ = .ok (ds₂, true, u) ∧
      u.patchArray.length < PATCH_ARRAY_SIZE - 2 ∧ Sweeps L s w' u) ∨
    w.next L img s = none ∧ ∀ ds₂ u, t.genInsn L img G ds₁ = .ok (ds₂, true, u) →
      ¬ u.patchArray.length < PATCH_ARRAY_SIZE - 2 := by
  rcases @genInsn_fresh L img G t ds₁ with ⟨hn, herr⟩ | ⟨r, r', ok, hr, heip, hgen⟩
  · refine Or.inr ⟨?_, fun ds₂ u hu => ?_⟩
    · rw [Sweep.next, ← h.pc, hn]
      rfl
    · rw [herr] at hu
      cases hu
  have hnext : w.next L img s = { w with pc := r'.decodeEip }.callEmitfn L img s r (insnBytes img (t.beginInsn r' ok)) := by
    have hlen : (t.beginInsn r' ok).insnLen = r'.decodeEip - t.pcPtr := rfl
    have hpc : (t.beginInsn r' ok).pcPtr - (t.beginInsn r' ok).insnLen = t.pcPtr := by
      show r'.decodeEip - (r'.decodeEip - t.pcPtr) = _
      rw [sub_sub_cancel]
    rw [Sweep.next, ← h.pc, hr, insnBytes, hpc, hlen, heip]
    rfl
  have hgo := @Sweeps.callEmitfn L img s _ _ r (h.beginInsn r' ok)
  rw [← hnext] at hgo
  cases hw : w.next L img s with
  | some w' =>
    rw [hw] at hgo
    obtain ⟨hin, u, hu, hs⟩ := hgo
    have hcheck : u.checkCode L = .ok () := by
      rw [State.checkCode, hs.codePtr, if_neg (Nat.not_lt.mpr hin.1)]
    refine Or.inl ⟨w', r', u.updTb (G.who u) (·.incInsnCount), rfl, ?_, ?_, hs.incInsnCount _⟩
    · rw [hgen, hu, ok_bind]
      show (u.checkCode L >>= _) = _
      rw [hcheck]
      rfl
    · exact hs.branches ▸ hin.2
  | none =>
    rw [hw] at hgo
    refine Or.inr ⟨rfl, fun ds₂ u hu hlt => ?_⟩
    rw [hgen] at hu
    obtain ⟨⟨cont, v⟩, hv, hu⟩ := bind_eq_ok.mp hu
    obtain ⟨_, hcheck, hu⟩ := bind_eq_ok.mp hu
    obtain ⟨-, hp⟩ := Prod.mk.inj (Except.ok.inj hu)
    obtain ⟨rfl, rfl⟩ := Prod.mk.inj hp
    refine hgo v hv ⟨?_, hlt⟩
    simp only [State.checkCode] at hcheck
    split at hcheck
    · cases hcheck
    · omega

end

section

variable {s : State} {ds : Decode} {tb : Nat}

theorem Sweep.mem_addrs {n : Nat} {w : Sweep} : w.pc ∈ w.addrs L img s n := by
  cases n <;> exact List.mem_cons_self ..

theorem Sweep.addrs_next {n : Nat} {w w' : Sweep} (h : w.next L img s = some w') {pc : Word} :
    pc ∈ w.addrs L img s (n + 1) ↔ pc = w.pc ∨ pc ∈ w'.addrs L img s n := by
  simp [Sweep.addrs, h]

theorem sweeps_start (hs : Tables s.index) {b : TranslationBlock} (hb : s.tbs[tb]? = some b) :
    Sweeps L s { pc := b.pc, codePtr := b.tcPtr, tb := tb, mem := s.mem } (s.beginSuperblock b tb) := by
  refine ⟨rfl, rfl, rfl, ⟨b, hb⟩, rfl, fun _ _ => rfl, ?_, rfl, rfl, nofun, fun pc _ => ⟨?_, fun _ _ => rfl⟩⟩
  · rw [State.index_beginSuperblock]
    exact hs.withTags _
  · rw [State.index_beginSuperblock]
    rfl

/-- What a sweep meets from a head on are heads. -/
theorem Head.of_sweep {left : Nat} : ∀ {w : Sweep} {t : State} {ds₁ : Decode}, Head L img G s ds tb left t ds₁ →
    Sweeps L s w t → ∀ pc ∈ w.addrs L img s left, ∃ left' t' ds', Head L img G s ds tb left' t' ds' ∧ t'.pcPtr = pc := by
  induction left with
  | zero =>
    intro w t ds₁ hd hw pc hpc
    obtain rfl := List.mem_singleton.mp hpc
    exact ⟨_, _, _, hd, hw.pc⟩
  | succ left ih =>
    intro w t ds₁ hd hw pc hpc
    rcases @Sweeps.step L img G s _ _ hw ds₁ with ⟨w', ds₂, u, hnext, hgen, hlt, hw'⟩ | ⟨hnone, -⟩
    · rcases (Sweep.addrs_next hnext).mp hpc with rfl | hpc
      · exact ⟨_, _, _, hd, hw.pc⟩
      · exact ih (hd.next hgen hlt) hw' pc hpc
    · simp only [Sweep.addrs, hnone, Option.map_none, Option.getD_none, List.mem_singleton] at hpc
      exact ⟨_, _, _, hd, hw.pc.trans hpc.symm⟩

/-- At a head the sweep is as far as the loop. -/
theorem Head.sweeps (hs : Tables s.index) {left : Nat} {t : State} {ds₁ : Decode} (hd : Head L img G s ds tb left t ds₁) :
    ∃ w, Sweeps L s w t ∧ ∀ pc ∈ w.addrs L img s left, pc ∈ s.swept L img tb := by
  induction hd with
  | @start b hb hstb =>
    have hb := State.tb_ensures _ _ _ hb
    refine ⟨_, sweeps_start hs hb, fun pc hpc => ?_⟩
    simp only [State.swept, hb, if_pos hstb]
    exact hpc
  | @next left s₁ s₂ ds₁ ds₂ _ hgen hlt ih =>
    obtain ⟨w, hw, hsub⟩ := ih
    rcases @Sweeps.step L img G s _ _ hw ds₁ with ⟨w', ds', u, hnext, hgen', -, hw'⟩ | ⟨-, hno⟩
    · rw [hgen] at hgen'
      obtain ⟨-, hp⟩ := Prod.mk.inj (Except.ok.inj hgen')
      obtain ⟨-, rfl⟩ := Prod.mk.inj hp
      exact ⟨w', hw', fun pc hpc => hsub pc ((Sweep.addrs_next hnext).mpr (Or.inr hpc))⟩
    · exact absurd hlt (hno _ _ hgen)

/-- The instructions the loop begins an iteration at are those a sweep of the
guest's code meets. -/
theorem mem_swept (hs : Tables s.index) {pc : Word} : pc ∈ s.swept L img tb ↔
    ∃ left t ds₁, Head L img G s ds tb left t ds₁ ∧ t.pcPtr = pc := by
  constructor
  · intro hpc
    simp only [State.swept] at hpc
    split at hpc
    · rename_i b hb
      split at hpc
      · rename_i hstb
        have htb : s.tb tb = .ok b := by rw [State.tb, hb]
        exact Head.of_sweep (.start htb hstb) (sweeps_start hs hb) pc hpc
      · simp at hpc
    · simp at hpc
  · rintro ⟨left, t, ds₁, hd, rfl⟩
    obtain ⟨w, hw, hsub⟩ := hd.sweeps hs
    exact hsub _ (hw.pc ▸ Sweep.mem_addrs)

end

end Unitrans
