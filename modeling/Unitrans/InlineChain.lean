/-
The inline comparisons of an indirect branch, for any number of them and any code
between them and their hits. The check on a displacement lets 255 through, and the
processor reads a byte from 128 on as a jump backwards.
-/
import Unitrans.EmitInsn
import Unitrans.X86.Exec

namespace Unitrans

open X86 Except Mem

/-- `cemit_ind_opt`, with the number of slots and the code that the build's options put between the comparisons and
the hits: what counts, and from `ind_enter_sieve` on what leaves. -/
def State.cemitIndOptOf (slots : Nat) (counters exit : List Byte) (s : State) : Result State := do
  let s := s.emit [0x51]
  let (s, patchAddr) := (List.range slots).foldl
    (fun (s, patchAddr) i => let (s, a) := s.indOptCompare i; (s, patchAddr ++ [a])) (s, [])
  let s := s.emit counters
  let s := s.updTb s.curTb (·.setIndEnterSieve s.codePtr)
  let s := s.emit exit
  patchAddr.zipIdx.foldlM (fun s (a, i) => s.indOptHit i a) s

/-- The build's own chain. -/
theorem cemitIndOpt_eq_of (L : Layout) (s : State) (indType : Word) : s.cemitIndOpt L indType =
    s.cemitIndOptOf IND_SLOT_MAX [] (exitTbBytes L s.tbRetAddr (s.codePtr + 37) (L.tbPtr s.curTb) indType) := by
  have hnil : ∀ t : State, t.emit [] = t := fun t => by
    show { t with mem := t.mem.put t.codePtr [], codePtr := t.codePtr + 0#32 } = t
    rw [BitVec.add_zero, show t.mem.put t.codePtr [] = t.mem from funext fun _ => rfl]
  unfold State.cemitIndOpt State.cemitIndOptOf
  simp only [IND_SLOT_MAX, List.range_succ, List.range_zero, List.nil_append, List.cons_append, List.foldl_cons,
    List.foldl_nil, indOptCompare_eq, cemitExitTb_eq, State.codePtr_updTb, State.curTb_updTb, State.tbRetAddr_updTb,
    State.codePtr_emit, State.curTb_emit, State.tbRetAddr_emit, State.emit_updTb, hnil, length_indCmpBytes,
    List.length_cons, List.length_nil, BitVec.add_assoc]
  rfl

/-! ## The parts of the chain -/

/-- The comparisons, each with its displacement. -/
def chainCompares (slots : Nat) (d : Nat → Byte) : List Byte := (List.range slots).flatMap fun i => indCmpBytes (d i)

/-- The hits of the first `k` slots. -/
def chainHits (k : Nat) : List Byte := (List.replicate k indHitBytes).flatten

/-- The displacements when the first `k` slots have their hits. -/
def patchedBelow (k : Nat) (d : Nat → Byte) (i : Nat) : Byte := if i < k then d i else NEED_PATCH_8

/-- The chain when the first `k` slots have their hits. -/
def chainBytes (slots k : Nat) (mid : List Byte) (d : Nat → Byte) : List Byte :=
  [0x51] ++ chainCompares slots (patchedBelow k d) ++ mid ++ chainHits k

/-- How far hit `i` is from the end of its comparison, `m` bytes being between the comparisons and the hits. -/
def hitOffset (slots m i : Nat) : Nat := 12 * (slots - 1 - i) + m + 10 * i

theorem length_chainCompares (slots : Nat) (d : Nat → Byte) : (chainCompares slots d).length = 12 * slots := by
  unfold chainCompares
  induction slots with
  | zero => rfl
  | succ n ih =>
    rw [List.range_succ, List.flatMap_append, List.length_append, ih, List.flatMap_singleton, length_indCmpBytes]
    rfl

theorem length_chainHits (k : Nat) : (chainHits k).length = 10 * k := by
  unfold chainHits
  induction k with
  | zero => rfl
  | succ n ih =>
    rw [List.replicate_succ, List.flatten_cons, List.length_append, ih, length_indHitBytes]
    omega

theorem chainHits_succ (k : Nat) : chainHits (k + 1) = chainHits k ++ indHitBytes := by
  unfold chainHits
  rw [List.replicate_succ', List.flatten_append, List.flatten_singleton]

theorem chainHits_split {i k : Nat} (hi : i < k) : chainHits k = chainHits i ++ (indHitBytes ++ chainHits (k - 1 - i)) := by
  unfold chainHits
  rw [← List.flatten_cons, ← List.replicate_succ, ← List.flatten_append, List.replicate_append_replicate]
  congr 2
  omega

/-- What is around the displacement of slot `i`. -/
theorem chainCompares_split {slots i : Nat} (hi : i < slots) {d d' : Nat → Byte} (hd : ∀ j, j ≠ i → d' j = d j) :
    ∃ ys zs, ys.length = 12 * i + 10 ∧ zs.length = 12 * (slots - 1 - i) ∧
      chainCompares slots d = ys ++ ([0xe3] ++ ([d i] ++ zs)) ∧ chainCompares slots d' = ys ++ ([0xe3] ++ ([d' i] ++ zs)) := by
  obtain ⟨n, rfl⟩ : ∃ n, slots = i + (n + 1) := ⟨slots - 1 - i, by omega⟩
  have hrange : List.range (i + (n + 1)) = List.range i ++ (i :: (List.range n).map (i + 1 + ·)) := by
    rw [List.range_add, Nat.add_comm n 1, List.range_add, List.map_append, List.map_map]
    simp [Function.comp_def, Nat.add_assoc]
  have hsplit : ∀ d : Nat → Byte, chainCompares (i + (n + 1)) d =
      chainCompares i d ++ (indCmpBytes (d i) ++ ((List.range n).map (i + 1 + ·)).flatMap fun j => indCmpBytes (d j)) := by
    intro d
    unfold chainCompares
    rw [hrange, List.flatMap_append, List.flatMap_cons]
  have hbefore : chainCompares i d' = chainCompares i d := by
    refine List.flatMap_congr fun j hj => ?_
    rw [hd j (Nat.ne_of_lt (List.mem_range.mp hj))]
  obtain ⟨zs, hzs⟩ : ∃ zs, zs = ((List.range n).map (i + 1 + ·)).flatMap fun j => indCmpBytes (d j) := ⟨_, rfl⟩
  have hafter : (((List.range n).map (i + 1 + ·)).flatMap fun j => indCmpBytes (d' j)) = zs := by
    rw [hzs]
    refine List.flatMap_congr fun j hj => ?_
    obtain ⟨m, -, rfl⟩ := List.mem_map.mp hj
    rw [hd _ (by omega)]
  have hlen := congrArg List.length (hsplit d)
  rw [← hzs, length_chainCompares, List.length_append, List.length_append, length_chainCompares, length_indCmpBytes] at hlen
  refine ⟨chainCompares i d ++ ([0x8b, 0x4c, 0x24, 4] ++ ([0x8d, 0x89] ++ le32 (-NEED_PATCH_32))), zs, ?_, by omega, ?_, ?_⟩
  · rw [List.length_append, length_chainCompares]
    rfl
  · rw [hsplit, ← hzs]
    simp [indCmpBytes, indCmpHead]
  · rw [hsplit, hbefore, hafter]
    simp [indCmpBytes, indCmpHead]

/-! ## The loops -/

/-- Where slot `i` has its comparison, from the start of the chain. -/
def compareAt (i : Nat) : Nat := 1 + 12 * i

/-- Where it has its hit. -/
def hitAt (slots m i : Nat) : Nat := 1 + 12 * slots + m + 10 * i

/-- What the chain at `p` leaves in its block, with `n` bytes before `ind_enter_sieve` and `m` before the hits. -/
def slotFields (slots n m : Nat) (p : Word) (b : TranslationBlock) : TranslationBlock :=
  (List.range slots).foldl (fun b i => b.setJindDestAddr i (p + BitVec.ofNat 32 (hitAt slots m i + 6)))
    (((List.range slots).foldl (fun b i => b.setJindSrcAddr i (p + BitVec.ofNat 32 (compareAt i + 6))) b).setIndEnterSieve
      (p + BitVec.ofNat 32 (1 + 12 * slots + n)))

theorem indOptCompares_eq (s : State) {slots : Nat} (h : 1 + 12 * slots ≤ 2 ^ 32) :
    (List.range slots).foldl (fun (p : State × List Word) i => let (s, a) := p.1.indOptCompare i; (s, p.2 ++ [a]))
        (s.emit [0x51], []) =
      ((s.emit ([0x51] ++ chainCompares slots (patchedBelow 0 fun _ => 0))).updTb s.curTb fun b =>
          (List.range slots).foldl (fun b i => b.setJindSrcAddr i (s.codePtr + BitVec.ofNat 32 (compareAt i + 6))) b,
        (List.range slots).map fun i => s.codePtr + BitVec.ofNat 32 (compareAt i + 11)) := by
  induction slots with
  | zero =>
    show (s.emit [0x51], []) = ((s.emit [0x51]).updTb s.curTb id, [])
    unfold State.updTb
    rw [List.modify_id]
  | succ n ih =>
    have hlen := length_chainCompares n (patchedBelow 0 fun _ => 0)
    have hcompares : chainCompares (n + 1) (patchedBelow 0 fun _ => 0) =
        chainCompares n (patchedBelow 0 fun _ => 0) ++ indCmpBytes NEED_PATCH_8 := by
      unfold chainCompares
      rw [List.range_succ, List.flatMap_append, List.flatMap_singleton]
      rfl
    rw [List.range_succ, List.foldl_append, ih (by omega), List.map_append, hcompares]
    simp only [List.foldl_cons, List.foldl_nil, List.map_cons, List.map_nil, indOptCompare_eq, State.emit_updTb,
      State.codePtr_updTb, State.codePtr_emit, State.curTb_updTb, State.curTb_emit, State.updTb_updTb]
    rw [State.emit_emit (by rw [List.length_append, hlen, length_indCmpBytes, List.length_singleton]; omega),
      List.length_append, hlen, List.length_singleton, BitVec.add_assoc, BitVec.add_assoc]
    have hoffset : ∀ c, BitVec.ofNat 32 (compareAt n + c) = BitVec.ofNat 32 (1 + 12 * n) + BitVec.ofNat 32 c :=
      fun c => BitVec.ofNat_add ..
    simp only [List.foldl_append, List.foldl_cons, List.foldl_nil, List.append_assoc, hoffset]
    rfl

/-- The hits of the first `k` slots, where every displacement passes the check. -/
theorem indOptHits_of (s : State) (mid : List Byte) (f : TranslationBlock → TranslationBlock) {slots : Nat}
    (hfits : ∀ i < slots, hitOffset slots mid.length i < 256) {k : Nat} (hk : k ≤ slots) :
    (List.range k).foldlM (fun (t : State) i => t.indOptHit i (s.codePtr + BitVec.ofNat 32 (compareAt i + 11)))
        ((s.emit (chainBytes slots 0 mid fun i => BitVec.ofNat 8 (hitOffset slots mid.length i))).updTb s.curTb f) =
      .ok ((s.emit (chainBytes slots k mid fun i => BitVec.ofNat 8 (hitOffset slots mid.length i))).updTb s.curTb fun b =>
        (List.range k).foldl (fun b i => b.setJindDestAddr i (s.codePtr + BitVec.ofNat 32 (hitAt slots mid.length i + 6)))
          (f b)) := by
  generalize hd : (fun i => BitVec.ofNat 8 (hitOffset slots mid.length i)) = d
  induction k with
  | zero => rfl
  | succ k ih =>
    have hlt := hfits k (by omega)
    have hagree : ∀ j, j ≠ k → patchedBelow (k + 1) d j = patchedBelow k d j := fun j hj => by
      unfold patchedBelow
      rw [if_congr (show j < k + 1 ↔ j < k by omega) rfl rfl]
    obtain ⟨ys, zs, hys, hzs, hold, hnew⟩ := chainCompares_split (show k < slots by omega) hagree
    have hdk : patchedBelow (k + 1) d k = d k := if_pos (Nat.lt_succ_self k)
    have hbs : chainBytes slots k mid d =
        ([0x51] ++ ys ++ [0xe3]) ++ ([patchedBelow k d k] ++ (zs ++ mid ++ chainHits k)) := by
      unfold chainBytes
      rw [hold]
      simp
    have hbs' : ([0x51] ++ ys ++ [0xe3]) ++ ([d k] ++ ((zs ++ mid ++ chainHits k) ++ indHitBytes)) =
        chainBytes slots (k + 1) mid d := by
      unfold chainBytes
      rw [hnew, hdk, chainHits_succ]
      simp
    have hx : ([0x51] ++ ys ++ [0xe3] : List Byte).length = compareAt k + 11 := by
      rw [List.length_append, List.length_append, hys]
      unfold compareAt
      simp
      omega
    have hz : (zs ++ mid ++ chainHits k).length = hitOffset slots mid.length k := by
      rw [List.length_append, List.length_append, hzs, length_chainHits]
      rfl
    have hc : compareAt k + 11 + hitOffset slots mid.length k + 7 = hitAt slots mid.length k + 6 := by
      unfold compareAt hitOffset hitAt
      omega
    have hslots : compareAt k + 11 < 1024 := by
      have := hfits 0 (by omega)
      unfold hitOffset at this
      unfold compareAt
      omega
    rw [List.range_succ, List.foldlM_append, ih (by omega), ok_bind, List.foldlM_cons,
      indOptHit_emit s _ _ k _ (hz ▸ hlt) (hx ▸ hslots) hbs (by rw [hx]) (d := d k) (by rw [hz, ← hd]) hbs'
        (by rw [hx, hz, hc])]
    simp only [ok_bind, List.foldlM_nil, List.foldl_append, List.foldl_cons, List.foldl_nil]
    rfl

/-- The hits as one loop over the slots. -/
theorem foldlM_zipIdx (g : Nat → Word) (n : Nat) (t : State) :
    ((List.range n).map g).zipIdx.foldlM (fun (t : State) (p : Word × Nat) => t.indOptHit p.2 p.1) t =
      (List.range n).foldlM (fun (t : State) i => t.indOptHit i (g i)) t := by
  have hzip : ((List.range n).map g).zipIdx = (List.range n).map fun i => (g i, i) := by
    refine List.ext_getElem (by simp) fun i hi hi' => ?_
    simp
  rw [hzip, List.foldlM_map]

/-- The state before the hits. -/
theorem cemitIndOptOf_hits (s : State) {slots : Nat} {counters exit : List Byte}
    (h : 1 + 12 * slots + (counters.length + exit.length) ≤ 2 ^ 32) (d : Nat → Byte) : ∃ f : TranslationBlock → TranslationBlock,
    (fun b => (List.range slots).foldl (fun b i => b.setJindDestAddr i (s.codePtr + BitVec.ofNat 32
      (hitAt slots (counters ++ exit).length i + 6))) (f b)) = slotFields slots counters.length (counters ++ exit).length s.codePtr ∧
      s.cemitIndOptOf slots counters exit =
        (List.range slots).foldlM (fun (t : State) i => t.indOptHit i (s.codePtr + BitVec.ofNat 32 (compareAt i + 11)))
          ((s.emit (chainBytes slots 0 (counters ++ exit) d)).updTb s.curTb f) := by
  refine ⟨_, rfl, ?_⟩
  have hlen : ([0x51] ++ chainCompares slots (patchedBelow 0 fun _ => 0)).length = 1 + 12 * slots := by
    rw [List.length_append, length_chainCompares, List.length_singleton]
  have hhead : chainBytes slots 0 (counters ++ exit) d =
      ([0x51] ++ chainCompares slots (patchedBelow 0 fun _ => 0)) ++ counters ++ exit := by
    show [0x51] ++ chainCompares slots (patchedBelow 0 fun _ => 0) ++ (counters ++ exit) ++ [] = _
    rw [List.append_nil, List.append_assoc _ counters exit]
  unfold State.cemitIndOptOf
  dsimp only
  rw [indOptCompares_eq s (by omega)]
  simp only [State.emit_updTb, State.codePtr_updTb, State.curTb_updTb]
  rw [hhead]
  generalize [0x51] ++ chainCompares slots (patchedBelow 0 fun _ => 0) = head at hlen ⊢
  have hcounters : (s.emit head).emit counters = s.emit (head ++ counters) := State.emit_emit (by omega)
  have hexit : (s.emit (head ++ counters)).emit exit = s.emit (head ++ counters ++ exit) :=
    State.emit_emit (by rw [List.length_append]; omega)
  rw [hcounters, hexit, State.codePtr_emit, State.curTb_emit, State.updTb_updTb, List.length_append, hlen, foldlM_zipIdx]
  rfl

/-- The chain in memory, where the first displacement passes the check. -/
theorem cemitIndOptOf_eq (s : State) {slots : Nat} {counters exit : List Byte}
    (hfits : hitOffset slots (counters ++ exit).length 0 < 256) : s.cemitIndOptOf slots counters exit =
      .ok ((s.emit (chainBytes slots slots (counters ++ exit) fun i =>
        BitVec.ofNat 8 (hitOffset slots (counters ++ exit).length i))).updTb s.curTb
          (slotFields slots counters.length (counters ++ exit).length s.codePtr)) := by
  have hle : ∀ i < slots, hitOffset slots (counters ++ exit).length i < 256 := fun i hi => by
    unfold hitOffset at hfits ⊢
    omega
  have hsmall : 1 + 12 * slots + (counters.length + exit.length) ≤ 2 ^ 32 := by
    unfold hitOffset at hfits
    rw [List.length_append] at hfits
    omega
  obtain ⟨f, hf, hrun⟩ := cemitIndOptOf_hits s hsmall fun i => BitVec.ofNat 8 (hitOffset slots (counters ++ exit).length i)
  rw [hrun, indOptHits_of s _ f hle (Nat.le_refl _), hf]

/-- The check ends the run at the first slot. -/
theorem cemitIndOptOf_aborts (s : State) {slots : Nat} {counters exit : List Byte} (hslots : 0 < slots)
    (hlong : 256 ≤ hitOffset slots (counters ++ exit).length 0)
    (h : 1 + 12 * slots + (counters.length + exit.length) ≤ 2 ^ 32) :
    s.cemitIndOptOf slots counters exit = .error (.abort "jmp_offest exceed\n") := by
  obtain ⟨f, -, hrun⟩ := cemitIndOptOf_hits s h fun _ => 0
  obtain ⟨n, rfl⟩ : ∃ n, slots = n + 1 := ⟨slots - 1, by omega⟩
  rw [List.length_append] at hlong
  unfold hitOffset at hlong
  have hlen : (chainBytes (n + 1) 0 (counters ++ exit) fun _ => 0).length = 1 + 12 * (n + 1) + (counters.length + exit.length) := by
    unfold chainBytes
    simp only [List.length_append, length_chainCompares, length_chainHits, List.length_singleton]
    omega
  rw [hrun, List.range_succ_eq_map, List.foldlM_cons]
  generalize (chainBytes (n + 1) 0 (counters ++ exit) fun _ => 0) = bs at hlen ⊢
  have hcheck : 0xff < (s.emit bs).codePtr - (s.codePtr + BitVec.ofNat 32 (compareAt 0 + 11)) - 1 := by
    rw [State.codePtr_emit, hlen]
    unfold compareAt
    bv_omega
  have habort : ((s.emit bs).updTb s.curTb f).indOptHit 0 (s.codePtr + BitVec.ofNat 32 (compareAt 0 + 11)) =
      .error (.abort "jmp_offest exceed\n") := by
    have hfails : abortIf (0xff < (s.emit bs).codePtr - (s.codePtr + BitVec.ofNat 32 (compareAt 0 + 11)) - 1)
        "jmp_offest exceed\n" = .error (.abort "jmp_offest exceed\n") := if_pos (decide_eq_true hcheck)
    unfold State.indOptHit
    dsimp only
    rw [State.codePtr_updTb, hfails]
    rfl
  rw [habort]
  rfl

/-! ## Landing -/

/-- The `jecxz` of slot `i` of block `b` goes to the `pop %ecx` of its hit. The block has where the other two
instructions of the slot have their addresses: the `lea` before the `jecxz`, and the `jmp` of the hit. -/
def SlotLands (s : State) (b : TranslationBlock) (i : Nat) : Prop :=
  s.mem (b.jindDestAddr i - 6) = 0x59 ∧
    ∀ c : Cpu, c.mem = s.mem → c.eip = b.jindSrcAddr i + 4 → c.ecx = 0 → step c = some (c.goto (b.jindDestAddr i - 6))

/-- Unless the check aborts, every slot's `jecxz` goes to its hit. -/
def ChainLands (slots : Nat) (counters exit : List Byte) (s : State) : Prop :=
  ∀ s', s.cemitIndOptOf slots counters exit = .ok s' → ∀ b, s'.tbs[s'.curTb]? = some b → ∀ i < slots, SlotLands s' b i

theorem foldl_setJindDestAddr (g : Nat → Word) (b : TranslationBlock) {n i : Nat} (hi : i < n) :
    ((List.range n).foldl (fun b i => b.setJindDestAddr i (g i)) b).jindDestAddr i = g i := by
  induction n with
  | zero => exact absurd hi (Nat.not_lt_zero i)
  | succ n ih =>
    rw [List.range_succ, List.foldl_append]
    show Function.update (TranslationBlock.jindDestAddr _) n (g n) i = g i
    by_cases hn : i = n
    · rw [hn, Function.update_self]
    · rw [Function.update_of_ne hn, ih (by omega)]

theorem foldl_setJindDestAddr_src (g : Nat → Word) (b : TranslationBlock) (n : Nat) :
    ((List.range n).foldl (fun b i => b.setJindDestAddr i (g i)) b).jindSrcAddr = b.jindSrcAddr := by
  induction n with
  | zero => rfl
  | succ n ih =>
    rw [List.range_succ, List.foldl_append]
    exact ih

theorem foldl_setJindSrcAddr (g : Nat → Word) (b : TranslationBlock) {n i : Nat} (hi : i < n) :
    ((List.range n).foldl (fun b i => b.setJindSrcAddr i (g i)) b).jindSrcAddr i = g i := by
  induction n with
  | zero => exact absurd hi (Nat.not_lt_zero i)
  | succ n ih =>
    rw [List.range_succ, List.foldl_append]
    show Function.update (TranslationBlock.jindSrcAddr _) n (g n) i = g i
    by_cases hn : i = n
    · rw [hn, Function.update_self]
    · rw [Function.update_of_ne hn, ih (by omega)]

/-- The processor reads a displacement as it was meant below 128 only. -/
theorem signExtend_ofNat_iff {n : Nat} (h : n < 256) : (BitVec.ofNat 8 n).signExtend 32 = BitVec.ofNat 32 n ↔ n < 128 := by
  have hall : ∀ n : Fin 256, (BitVec.ofNat 8 n).signExtend 32 = BitVec.ofNat 32 n ↔ (n : Nat) < 128 := by decide +kernel
  exact hall ⟨n, h⟩

theorem goto_inj {c : Cpu} {a b : Word} (h : c.goto a = c.goto b) : a = b := by
  have := congrArg Cpu.eip h
  rwa [Cpu.goto_eip, Cpu.goto_eip] at this

/-- A slot of a chain in memory lands if and only if its displacement is below 128. -/
theorem slotLands_iff {s : State} {p : Word} {slots n : Nat} {mid : List Byte} {b : TranslationBlock}
    (hfits : hitOffset slots mid.length 0 < 256)
    (hat : s.mem.At p (chainBytes slots slots mid fun i => BitVec.ofNat 8 (hitOffset slots mid.length i)))
    {i : Nat} (hi : i < slots) :
    SlotLands s (slotFields slots n mid.length p b) i ↔ hitOffset slots mid.length i < 128 := by
  have hlt : hitOffset slots mid.length i < 256 := by
    unfold hitOffset at hfits ⊢
    omega
  have hdest : (slotFields slots n mid.length p b).jindDestAddr i - 6 = p + BitVec.ofNat 32 (hitAt slots mid.length i) := by
    unfold slotFields
    rw [foldl_setJindDestAddr _ _ hi, BitVec.ofNat_add]
    bv_omega
  have hsrc : (slotFields slots n mid.length p b).jindSrcAddr i + 4 = p + BitVec.ofNat 32 (compareAt i + 10) := by
    unfold slotFields
    rw [foldl_setJindDestAddr_src]
    show ((List.range slots).foldl _ b).jindSrcAddr i + 4 = _
    rw [foldl_setJindSrcAddr _ _ hi, BitVec.ofNat_add, BitVec.ofNat_add, BitVec.add_assoc, BitVec.add_assoc]
    rfl
  have hpop : s.mem (p + BitVec.ofNat 32 (hitAt slots mid.length i)) = 0x59 := by
    unfold chainBytes at hat
    rw [chainHits_split hi, ← List.append_assoc] at hat
    have hhit := hat.right.left
    have hlen : ([0x51] ++ chainCompares slots (patchedBelow slots fun i => BitVec.ofNat 8 (hitOffset slots mid.length i)) ++
        mid ++ chainHits i).length = hitAt slots mid.length i := by
      simp only [List.length_append, length_chainCompares, length_chainHits, List.length_singleton]
      rfl
    rw [hlen] at hhit
    have := hhit 0 (by decide)
    rwa [BitVec.add_zero] at this
  have hjecxz : s.mem.At (p + BitVec.ofNat 32 (compareAt i + 10)) [0xe3, BitVec.ofNat 8 (hitOffset slots mid.length i)] := by
    obtain ⟨ys, zs, hys, -, hchain, -⟩ := chainCompares_split hi
      (fun _ _ => rfl : ∀ j, j ≠ i → patchedBelow slots (fun i => BitVec.ofNat 8 (hitOffset slots mid.length i)) j = _)
    have hsplit : chainBytes slots slots mid (fun i => BitVec.ofNat 8 (hitOffset slots mid.length i)) =
        ([0x51] ++ ys) ++ ([0xe3, BitVec.ofNat 8 (hitOffset slots mid.length i)] ++ (zs ++ mid ++ chainHits slots)) := by
      unfold chainBytes
      rw [hchain]
      simp [patchedBelow, hi]
    rw [hsplit] at hat
    have := hat.right.left
    rwa [List.length_append, hys, List.length_singleton, show 1 + (12 * i + 10) = compareAt i + 10 by unfold compareAt; omega]
      at this
  have hstep : ∀ c : Cpu, c.mem = s.mem → c.eip = p + BitVec.ofNat 32 (compareAt i + 10) → c.ecx = 0 →
      step c = some (c.goto (p + BitVec.ofNat 32 (compareAt i + 10) + 2 +
        (BitVec.ofNat 8 (hitOffset slots mid.length i)).signExtend 32)) := by
    intro c hm heip hecx
    rw [step_at (show At c.mem c.eip _ by rw [hm, heip]; exact hjecxz) (encodes_jecxz _), heip]
    show some (c.goto (if c.regs .ecx = 0 then _ else _)) = _
    rw [if_pos hecx]
    rfl
  have htarget : p + BitVec.ofNat 32 (hitAt slots mid.length i) =
      p + BitVec.ofNat 32 (compareAt i + 10) + 2 + BitVec.ofNat 32 (hitOffset slots mid.length i) := by
    rw [show hitAt slots mid.length i = compareAt i + 10 + 2 + hitOffset slots mid.length i by
      unfold hitAt compareAt hitOffset; omega, BitVec.ofNat_add, BitVec.ofNat_add, ← BitVec.add_assoc, ← BitVec.add_assoc]
    rfl
  unfold SlotLands
  rw [hdest, hsrc, ← signExtend_ofNat_iff hlt]
  constructor
  · rintro ⟨-, hlands⟩
    let c : Cpu := ⟨fun _ => 0, 0, p + BitVec.ofNat 32 (compareAt i + 10), fun _ => 0, false, s.mem⟩
    have := (hstep c rfl rfl rfl).symm.trans (hlands c rfl rfl rfl)
    have heq := goto_inj (Option.some.inj this)
    rw [htarget] at heq
    exact (add_left_cancel heq)
  · intro hd
    refine ⟨hpop, fun c hm heip hecx => ?_⟩
    rw [hstep c hm heip hecx, hd, htarget]

/-- The run that passes the check. -/
theorem cemitIndOptOf_spec {s : State} {b : TranslationBlock} (hb : s.tbs[s.curTb]? = some b) {slots : Nat}
    {counters exit : List Byte} (hfits : hitOffset slots (counters ++ exit).length 0 < 256) :
    ∃ t, s.cemitIndOptOf slots counters exit = .ok t ∧
      t.tbs[t.curTb]? = some (slotFields slots counters.length (counters ++ exit).length s.codePtr b) ∧
      t.mem.At s.codePtr (chainBytes slots slots (counters ++ exit) fun i =>
        BitVec.ofNat 8 (hitOffset slots (counters ++ exit).length i)) := by
  have hlen : (chainBytes slots slots (counters ++ exit) fun i =>
      BitVec.ofNat 8 (hitOffset slots (counters ++ exit).length i)).length ≤ 2 ^ 32 := by
    unfold hitOffset at hfits
    unfold chainBytes
    simp only [List.length_append, length_chainCompares, length_chainHits, List.length_singleton] at hfits ⊢
    omega
  refine ⟨_, cemitIndOptOf_eq s hfits, ?_, ?_⟩
  · show (s.tbs.modify s.curTb _)[s.curTb]? = _
    rw [List.getElem?_modify_eq, hb]
    rfl
  · exact At.put_self hlen

/-- Every slot lands if and only if the first displacement, when the check lets it through, is below 128. -/
theorem cemitIndOpt_lands_iff {s : State} {b : TranslationBlock} (hb : s.tbs[s.curTb]? = some b) (slots : Nat)
    (counters exit : List Byte) (hspace : 1 + 22 * slots + (counters.length + exit.length) ≤ 2 ^ 32) :
    ChainLands slots counters exit s ↔ slots = 0 ∨ 0xff < 12 * (slots - 1) + (counters.length + exit.length) ∨
      12 * (slots - 1) + (counters.length + exit.length) ≤ 0x7f := by
  rcases Nat.eq_zero_or_pos slots with hzero | hpos
  · refine iff_of_true (fun s' _ b _ i hi => ?_) (.inl hzero)
    exact absurd hi (by omega)
  have hfirst : hitOffset slots (counters ++ exit).length 0 = 12 * (slots - 1) + (counters.length + exit.length) := by
    rw [List.length_append]
    unfold hitOffset
    omega
  by_cases hlong : 256 ≤ hitOffset slots (counters ++ exit).length 0
  · refine iff_of_true (fun s' hok => ?_) (.inr (.inl (by omega)))
    rw [cemitIndOptOf_aborts s hpos hlong (by omega)] at hok
    cases hok
  have hfits : hitOffset slots (counters ++ exit).length 0 < 256 := by omega
  obtain ⟨t, hrun, htb, hat⟩ := cemitIndOptOf_spec hb hfits
  have hslots : ChainLands slots counters exit s ↔ ∀ i < slots, hitOffset slots (counters ++ exit).length i < 128 := by
    constructor
    · intro h i hi
      exact (slotLands_iff hfits hat hi).mp (h t hrun _ htb i hi)
    · intro h t' hrun' b' hb' i hi
      rw [hrun, Except.ok.injEq] at hrun'
      rw [← hrun', htb, Option.some.injEq] at hb'
      rw [← hrun', ← hb']
      exact (slotLands_iff hfits hat hi).mpr (h i hi)
  rw [hslots]
  constructor
  · intro h
    have := h 0 hpos
    omega
  · rintro (hzero | hlarge | hsmall) i hi
    · omega
    · omega
    · unfold hitOffset at hfirst ⊢
      omega

/-- At an indirect jump of a block, with nothing emitted. -/
def atIndirectJmp : State where
  mem := fun _ => 0
  tbs := [{ pc := 0x08048000 }]
  codeGenPtr := Layout.sample.codeGenBuffer
  codePtr := Layout.sample.codeGenBuffer
  sieveCodePtr := Layout.sample.sieveBuffer
  pcPtr := 0x08048000

/-- The code that leaves `atIndirectJmp`. -/
def indirectJmpExit : List Byte :=
  exitTbBytes .sample 0 (Layout.sample.codeGenBuffer + 37) (Layout.sample.tbPtr 0) IND_TYPE_JMP

theorem cemitIndOpt_lands_three : ChainLands 3 [] indirectJmpExit atIndirectJmp := by
  have hlen : indirectJmpExit.length ≤ 32 := length_exitTbBytes_le ..
  refine (cemitIndOpt_lands_iff (b := { pc := 0x08048000 }) rfl 3 [] indirectJmpExit ?_).mpr (.inr (.inr ?_))
  · rw [List.length_nil]
    omega
  · rw [List.length_nil]
    omega

/-- Twelve slots before the code that leaves the block: the check lets 132 and more through. -/
theorem not_cemitIndOpt_lands : ¬ ∀ (s : State) (b : TranslationBlock), s.tbs[s.curTb]? = some b →
    ∀ (slots : Nat) (counters exit : List Byte), 1 + 22 * slots + (counters.length + exit.length) ≤ 2 ^ 32 →
      ChainLands slots counters exit s := by
  intro h
  have hlen : indirectJmpExit.length ≤ 32 := length_exitTbBytes_le ..
  have hfirst : hitOffset 12 ([] ++ indirectJmpExit).length 0 = 132 + indirectJmpExit.length := by
    unfold hitOffset
    rw [List.nil_append]
    omega
  have hlands := h atIndirectJmp { pc := 0x08048000 } rfl 12 [] indirectJmpExit (by simp only [List.length_nil]; omega)
  have hfits : hitOffset 12 ([] ++ indirectJmpExit).length 0 < 256 := by omega
  obtain ⟨t, hrun, htb, hat⟩ := cemitIndOptOf_spec (s := atIndirectJmp) (b := { pc := 0x08048000 }) rfl hfits
  have hshort := (slotLands_iff hfits hat (by decide)).mp (hlands t hrun _ htb 0 (by decide))
  omega

/-- The code of `cemit_retrans_ind` at `code_ptr`: count a miss, and leave for the sieve at the threshold. -/
def retransIndBytes (missCount threshold disp : Word) : List Byte :=
  [0x9c] ++ ([0xff, 0x05] ++ le32 missCount) ++ ([0x81, 0x3d] ++ le32 missCount ++ le32 threshold) ++
    ([0x0f, 0x84] ++ le32 disp) ++ [0x9d]

/-- With as many slots as the program has, every slot lands, with the code that counts misses and without it. -/
theorem chainLands_slotMax {s : State} {b : TranslationBlock} (hb : s.tbs[s.curTb]? = some b) {counters exit : List Byte}
    (hcounters : counters.length ≤ (retransIndBytes 0 0 0).length) (hexit : exit.length ≤ 32) :
    ChainLands IND_SLOT_MAX counters exit s := by
  have hcounters : counters.length ≤ 24 := hcounters
  have hoffset : ∀ i < IND_SLOT_MAX, hitOffset IND_SLOT_MAX (counters ++ exit).length i < 128 := fun i hi => by
    unfold IND_SLOT_MAX at hi
    unfold hitOffset IND_SLOT_MAX
    rw [List.length_append]
    omega
  have hfits : hitOffset IND_SLOT_MAX (counters ++ exit).length 0 < 256 :=
    Nat.lt_trans (hoffset 0 (by decide)) (by decide)
  obtain ⟨t, hrun, htb, hat⟩ := cemitIndOptOf_spec hb hfits
  intro t' hrun' b' hb' i hi
  rw [hrun, Except.ok.injEq] at hrun'
  rw [← hrun', htb, Option.some.injEq] at hb'
  rw [← hrun', ← hb']
  exact (slotLands_iff hfits hat hi).mpr (hoffset i hi)

/-- The chain of this build. -/
theorem cemitIndOpt_slotLands {L : Layout} {s : State} {b : TranslationBlock} (hb : s.tbs[s.curTb]? = some b)
    (indType : Word) {s' : State} (h : s.cemitIndOpt L indType = .ok s') {b' : TranslationBlock}
    (hb' : s'.tbs[s'.curTb]? = some b') {i : Nat} (hi : i < IND_SLOT_MAX) : SlotLands s' b' i := by
  rw [cemitIndOpt_eq_of] at h
  exact chainLands_slotMax hb (Nat.zero_le _) (length_exitTbBytes_le ..) s' h b' hb' i hi

end Unitrans
